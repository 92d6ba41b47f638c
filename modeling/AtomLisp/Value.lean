import AtomLisp.Builtin

/-!
# Values

Source forms and the values they evaluate to are one type. Reading yields atoms and lists only;
evaluation adds builtin operations and closures. Numbers and truth values are atoms whose text is
interpreted by whoever consumes them.

A scope is referred to by its number, `ScopeId`, so a value is plain data and evaluation is a
function on data. A closure carries the number of the evaluation that made it; two copies of one
closure, one of them named, agree in that number and differ in nothing but their name.
-/

namespace AtomLisp

/-- The number of a scope. Scopes are numbered from zero in the order of their creation. -/
abbrev ScopeId := Nat

/-- What a closure is apart from its body: the name it was first bound to, its parameters, the
scope it was made in, and the number of its making. -/
structure ClosureHead where
  name : Option String
  params : List String
  scope : ScopeId
  id : Nat
deriving DecidableEq, Repr

/-- A source form or the outcome of evaluating one. -/
inductive Value where
  | atom (text : String)
  | list (items : List Value)
  | builtin (op : Builtin)
  | closure (head : ClosureHead) (body : List Value)
deriving Repr

namespace Value

/-- Structural induction that offers the hypothesis for every element of a list and every form of
a closure's body. -/
@[elab_as_elim, induction_eliminator]
theorem induction {motive : Value → Prop}
    (atom : ∀ text, motive (.atom text))
    (list : ∀ items, (∀ x ∈ items, motive x) → motive (.list items))
    (builtin : ∀ op, motive (.builtin op))
    (closure : ∀ head body, (∀ x ∈ body, motive x) → motive (.closure head body)) :
    ∀ x, motive x
  | .atom text => atom text
  | .list items => list items fun x _ => induction atom list builtin closure x
  | .builtin op => builtin op
  | .closure head body => closure head body fun x _ => induction atom list builtin closure x

/-- The empty list, which is also the value of forms that have nothing to say. -/
def nil : Value := .list []

/-- The atom that stands for a truth value. -/
def ofBool (b : Bool) : Value :=
  .atom (if b then "#t" else "#f")

/-- The atom that stands for an integer: its decimal digits, with `-` in front if it is negative. -/
def ofInt (i : Int) : Value :=
  .atom (toString i)

instance : Inhabited Value := ⟨nil⟩

def isNil : Value → Bool
  | .list [] => true
  | _ => false

def isAtom : Value → Bool
  | .atom _ => true
  | _ => false

def isClosure : Value → Bool
  | .closure _ _ => true
  | _ => false

/-- Is it the atom with this very text? -/
def isAtomOf (x : Value) (text : String) : Bool :=
  match x with
  | .atom a => a == text
  | _ => false

/-- The value as it is bound to `name`. A closure without a name takes this one; a closure that
has a name keeps it, and every other value stays as it is, closures inside a list included. -/
def named (name : String) : Value → Value
  | .closure head body => .closure { head with name := head.name <|> some name } body
  | x => x

mutual

/-- The equality a program observes: atoms are equal by text, lists by their elements, builtin
operations by which one they are, and a closure is equal to the copies of itself only. -/
def same : Value → Value → Bool
  | .atom a, .atom b => a == b
  | .list xs, .list ys => sameAll xs ys
  | .builtin f, .builtin g => f == g
  | .closure head _, .closure head' _ => head.id == head'.id
  | _, _ => false

/-- Equality of two lists: the same length, and equal elements in each place. -/
def sameAll : List Value → List Value → Bool
  | [], [] => true
  | x :: xs, y :: ys => same x y && sameAll xs ys
  | _, _ => false

end

instance : BEq Value := ⟨same⟩

/-- Binding a value under a name yields an equal value. -/
theorem same_named (name : String) (x y : Value) : same (named name x) y = same x y := by
  cases x <;> cases y <;> simp [named, same]

end Value

end AtomLisp
