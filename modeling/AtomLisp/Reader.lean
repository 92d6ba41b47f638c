import AtomLisp.Token.Lexer
import AtomLisp.Value

/-!
# Reading

Reading turns tokens into values and never fails. Lists still open when the tokens end are closed
there; a closing parenthesis without an opening one ends the reading, and what follows it is
dropped.

The lists that enclose the current place are kept on a stack, innermost first, each with its
elements so far, the newest first.
-/

namespace AtomLisp

namespace Reader

/-- Close the list with the given elements, and all the lists around it. -/
def closeAll : (outer : List (List Value)) → (items : List Value) → List Value
  | [], items => items.reverse
  | enclosing :: outer, items => closeAll outer (.list items.reverse :: enclosing)

/-- Read on inside the list with the given elements and the given lists around it. -/
def parseFrom : (outer : List (List Value)) → (items : List Value) → List Token → List Value
  | outer, items, [] => closeAll outer items
  | outer, items, .lparen :: ts => parseFrom (items :: outer) [] ts
  | [], items, .rparen :: _ => items.reverse
  | enclosing :: outer, items, .rparen :: ts =>
    parseFrom outer (.list items.reverse :: enclosing) ts
  | outer, items, .atom text :: ts => parseFrom outer (.atom text :: items) ts

end Reader

/-- The values written by the tokens. -/
def parse (ts : List Token) : List Value :=
  Reader.parseFrom [] [] ts

/-- The values written in a text. -/
def read (text : String) : List Value :=
  parse (tokens text)

end AtomLisp
