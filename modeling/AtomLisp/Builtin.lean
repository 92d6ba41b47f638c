/-!
# Builtin operations

The procedures that a root scope offers under names without a definition. There are eleven, and
`Builtin.ofName?` is the operation that a program calls by a name; `Builtin.names` lists the names.
-/

namespace AtomLisp

/-- An operation carried out by the interpreter itself. -/
inductive Builtin where
  | add
  | subtract
  | multiply
  | divide
  | isEq
  | display
  | print
  | format
  | raise
  | isLambda
  | quit
deriving DecidableEq, Repr

namespace Builtin

/-- All operations. -/
def all : List Builtin :=
  [add, subtract, multiply, divide, isEq, display, print, format, raise, isLambda, quit]

/-- The name a program calls the operation by. -/
def name : Builtin → String
  | add => "+"
  | subtract => "-"
  | multiply => "*"
  | divide => "/"
  | isEq => "eq?"
  | display => "display"
  | print => "print"
  | format => "format"
  | raise => "error"
  | isLambda => "lambda?"
  | quit => "quit"

/-- The operation of a given name, if there is one. -/
def ofName? (name : String) : Option Builtin :=
  all.find? fun op => op.name == name

/-- The names of all operations. -/
def names : List String :=
  all.map name

/-- What a developer is shown for the operation. -/
def label : Builtin → String
  | add => "Add"
  | subtract => "Subtract"
  | multiply => "Multiply"
  | divide => "Divide"
  | isEq => "IsEq"
  | display => "Display"
  | print => "Print"
  | format => "Format"
  | raise => "Raise"
  | isLambda => "IsLambda"
  | quit => "Quit"

/-- The list of all operations leaves none out. -/
theorem mem_all (op : Builtin) : op ∈ all := by
  cases op <;> decide

/-- A name stands for the operation that has it, and for no other one. -/
theorem ofName?_eq_some_iff {n : String} {op : Builtin} : ofName? n = some op ↔ op.name = n := by
  constructor
  · intro h
    simpa using List.find?_some h
  · rintro rfl
    cases op <;> decide

/-- Operations of the same name are the same. -/
theorem name_injective {f g : Builtin} (h : f.name = g.name) : f = g :=
  Option.some.inj ((ofName?_eq_some_iff.2 h).symm.trans (ofName?_eq_some_iff.2 rfl))

/-- No two operations have the same name. -/
theorem nodup_names : names.Nodup := by
  decide

theorem ofName?_eq_none_iff {n : String} : ofName? n = none ↔ n ∉ names := by
  simp [ofName?, names]

end Builtin

end AtomLisp
