import AtomLisp.Value.Render

/-!
# Faults

Everything that can stop a program, each case with what a message about it has to say, the family
that it belongs to (`Fault.kind`) and the sentence that a user reads (`Fault.message`).

A fault holds values, not text, so that two programs can be compared by why they stopped; the
wording is made in one place.
-/

namespace AtomLisp

/-- The forms with a fixed shape. -/
inductive Shape where
  | lambda
  | defineProcedure
  | defineValue
  | branch
deriving DecidableEq, Repr

/-- The shape as it is shown to a user. -/
def Shape.text : Shape → String
  | lambda => "(lambda (params...) body...)"
  | defineProcedure => "(define (name params...) body...)"
  | defineValue => "(define name value)"
  | branch => "(if predicate consequent [alternative])"

/-- Why evaluation, reading a file or reading a line came to a stop. -/
inductive Fault where
  /-- An operation that takes `expected` arguments was given `got`. -/
  | builtinArity (op : Builtin) (expected got : Nat)
  /-- A closure was given `got` arguments, which is not the number of its parameters. -/
  | closureArity (head : ClosureHead) (got : Nat)
  | divisionByZero
  | notProcedure (found : Value)
  /-- A number does not fit in 64 bits. -/
  | overflow
  | quit
  /-- A form headed by a keyword has not the shape of that keyword. -/
  | malformed (form : Value) (shape : Shape)
  | invalidParameter (found : Value)
  /-- A clause is not a list with a predicate. -/
  | invalidClause (found : Value)
  | notNumber (found : Value)
  | notBoolean (found : Value)
  | notAtom (found : Value)
  | notList (found : Value)
  /-- The program reported an error of its own. -/
  | user (message : String)
  | fileNotFound
  /-- The file is there, but for this reason it cannot be read. -/
  | unreadable (reason : String)
  /-- The bytes of the file are not text. -/
  | invalidEncoding
  /-- There are no more lines. -/
  | endOfInput

namespace Fault

inductive Kind where
  | argument
  | divisionByZero
  | notProcedure
  | overflow
  | quit
  | malformed
  | wrongType
  | user
  | file
  | input
deriving DecidableEq, Repr

def kind : Fault → Kind
  | builtinArity .. => .argument
  | closureArity .. => .argument
  | divisionByZero => .divisionByZero
  | notProcedure _ => .notProcedure
  | overflow => .overflow
  | quit => .quit
  | malformed .. => .malformed
  | invalidParameter _ => .malformed
  | invalidClause _ => .malformed
  | notNumber _ => .wrongType
  | notBoolean _ => .wrongType
  | notAtom _ => .wrongType
  | notList _ => .wrongType
  | user _ => .user
  | fileNotFound => .file
  | unreadable _ => .file
  | invalidEncoding => .file
  | endOfInput => .input

/-- The sentence a user reads. -/
def message : Fault → String
  | builtinArity op expected got =>
    "Argument Error: " ++ op.name ++ " takes exactly " ++ toString expected
      ++ " arguments but got " ++ toString got
  | closureArity head got =>
    "Argument Error: " ++ head.short ++ " expects " ++ toString head.params.length
      ++ " arguments but got " ++ toString got
  | divisionByZero => "Division by zero"
  | notProcedure found => "No such function: " ++ found.short
  | overflow => "Integer overflow"
  | quit => "Quit"
  | malformed form shape => "Syntax Error: " ++ form.short ++ ": expected " ++ shape.text
  | invalidParameter found => "Syntax Error: invalid parameter: " ++ found.short
  | invalidClause found => "Syntax Error: invalid cond clause: " ++ found.short
  | notNumber found => "Type Error: expected a number but found " ++ found.short
  | notBoolean found => "Type Error: expected #t or #f but found " ++ found.short
  | notAtom found => "Type Error: expected atom: " ++ found.short
  | notList found => "Type Error: expected list: " ++ found.short
  | user message => message
  | fileNotFound => "IO Error: No such file or directory (os error 2)"
  | unreadable reason => "IO Error: " ++ reason
  | invalidEncoding => "IO Error: stream did not contain valid UTF-8"
  | endOfInput => "Readline Error: EOF"

end Fault

namespace Value

/-- The truth value that an atom stands for. Only two atoms stand for one. -/
def truthiness : Value → Except Fault Bool
  | .atom "#t" => .ok true
  | .atom "#f" => .ok false
  | x => .error (.notBoolean x)

def asAtom : Value → Except Fault String
  | .atom text => .ok text
  | x => .error (.notAtom x)

def asList : Value → Except Fault (List Value)
  | .list items => .ok items
  | x => .error (.notList x)

end Value

end AtomLisp
