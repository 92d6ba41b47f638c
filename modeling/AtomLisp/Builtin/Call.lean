import AtomLisp.Integer
import AtomLisp.Session

/-!
# Calling builtin operations

The call of an operation is noted before its arguments are looked at. Arithmetic works on the exact
integers and checks every intermediate result against the range of 64 bits, so a result out of range
is a fault and never a wrong number.
-/

namespace AtomLisp

namespace Builtin

/-- The result of an arithmetic step, which must lie in the range. -/
def inRange (i : Int) : Except Fault Int :=
  match Integer.checked i with
  | some i => .ok i
  | none => .error .overflow

/-- Combine `value` with each argument in turn. The argument is read first, then the result is
checked. -/
def accumulate (op : Int → Int → Int) (value : Int) (args : List Value) : Except Fault Int :=
  args.foldlM (fun value x => do inRange (op value (← x.toInteger))) value

/-- The sum of all arguments; zero without arguments. -/
def sum (args : List Value) : Except Fault Int :=
  accumulate (· + ·) 0 args

/-- The product of all arguments; one without arguments. -/
def product (args : List Value) : Except Fault Int :=
  accumulate (· * ·) 1 args

/-- The first argument less all others: a single argument is the result itself, and without
arguments it is zero. -/
def difference : List Value → Except Fault Int
  | [] => .ok 0
  | x :: xs => do accumulate (· - ·) (← x.toInteger) xs

/-- The quotient, rounded towards zero. The dividend is read first, then the divisor. -/
def quotient (x y : Value) : Except Fault Int := do
  let dividend ← x.toInteger
  let divisor ← y.toInteger
  if divisor = 0 then .error .divisionByZero else inRange (dividend.tdiv divisor)

/-- Carry out an operation on its arguments. The call is noted before the arguments are looked
at. -/
def call (op : Builtin) (args : List Value) : Eval Value := do
  Eval.emit (.callBuiltin op args.length)
  match op, args with
  | add, _ => return .ofInt (← Eval.ofExcept (sum args))
  | subtract, _ => return .ofInt (← Eval.ofExcept (difference args))
  | multiply, _ => return .ofInt (← Eval.ofExcept (product args))
  | divide, [x, y] => return .ofInt (← Eval.ofExcept (quotient x y))
  | divide, _ => Eval.raise (.builtinArity divide 2 args.length)
  | isEq, [x, y] => return .ofBool (x == y)
  | isEq, _ => Eval.raise (.builtinArity isEq 2 args.length)
  | display, _ => do
    let text := Value.renderAll args
    Eval.write (text ++ "\n")
    return .atom text
  | print, _ => do
    let text := Value.renderAll args
    Eval.write text
    return .atom text
  | format, _ => return .atom (Value.renderAll args)
  | raise, _ => do
    let message := Value.renderAll args
    Eval.emit (.userError message)
    Eval.raise (.user message)
  | isLambda, [x] => return .ofBool x.isClosure
  | isLambda, _ => Eval.raise (.builtinArity isLambda 1 args.length)
  | quit, _ => Eval.raise .quit

end Builtin

end AtomLisp
