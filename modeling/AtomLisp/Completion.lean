import AtomLisp.Store
import AtomLisp.Token.Lexer

/-!
# Completing names

What the word before a place in a line may become, and where that word starts. Candidates are all
names that can be looked up from a scope.
-/

namespace AtomLisp

/-- The byte at which the name to be completed starts, and the names it may become. -/
structure Completion where
  start : Nat := 0
  names : List String := []
deriving DecidableEq, Repr

/-- The atom of a line that ends at byte `position`, with the byte at which it starts. -/
def atomEndingAt? (line : String) (position : Nat) : Option (Nat × String) :=
  match (lexemes line).find? fun l => l.start ≤ position && l.stop = position with
  | some { token := .atom text, start, .. } => some (start, text)
  | _ => none

namespace Store

/-- The names that can be looked up from scope `s` and begin with `stem`, in increasing order and
each once. -/
def namesFrom (st : Store) (s : ScopeId) (stem : String) : List String :=
  let names := (st.keys s).filter fun key => stem.toList.isPrefixOf key.toList
  (names.mergeSort fun a b => decide (a ≤ b)).eraseDups

/-- What the name that ends at byte `position` of the line may become in scope `s`. There is
nothing to offer where no atom ends, or once the scope is gone. -/
def complete (st : Store) (s : ScopeId) (line : String) (position : Nat) : Completion :=
  if st.isLive s then
    match atomEndingAt? line position with
    | some (start, stem) => { start, names := st.namesFrom s stem }
    | none => {}
  else {}

end Store

end AtomLisp
