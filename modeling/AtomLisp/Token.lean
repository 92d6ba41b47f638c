/-!
# Tokens

Source text is made of parentheses and atoms, nothing else: the language has no strings, escapes or
comments. A `Lexeme` is a token with the bytes of the text that it was read from, and
`Token.nesting` is what a token adds to the number of open parentheses.
-/

namespace AtomLisp

/-- The smallest meaningful piece of source text. -/
inductive Token where
  | lparen
  | rparen
  | atom (text : String)
deriving DecidableEq, Repr

namespace Token

/-- The characters a token is written with. -/
def text : Token → String
  | lparen => "("
  | rparen => ")"
  | atom text => text

/-- The token that a character makes on its own: only parentheses do. -/
def ofChar? (c : Char) : Option Token :=
  if c = '(' then some lparen else if c = ')' then some rparen else none

/-- An opening parenthesis goes one level down, a closing one comes one level up. -/
def nesting : Token → Int
  | lparen => 1
  | rparen => -1
  | atom _ => 0

end Token

/-- The number of opening parentheses less the number of closing ones. -/
def nesting : List Token → Int
  | [] => 0
  | t :: ts => t.nesting + nesting ts

/-- A token and its place in the text: the bytes from `start` up to but not including `stop`. -/
structure Lexeme where
  token : Token
  start : Nat
  stop : Nat
deriving DecidableEq, Repr

@[simp] theorem nesting_nil : nesting [] = 0 := rfl

@[simp] theorem nesting_cons (t : Token) (ts : List Token) :
    nesting (t :: ts) = t.nesting + nesting ts := rfl

@[simp] theorem nesting_append (ts us : List Token) :
    nesting (ts ++ us) = nesting ts + nesting us := by
  induction ts with
  | nil => rw [List.nil_append, nesting_nil, Int.zero_add]
  | cons t ts ih => rw [List.cons_append, nesting_cons, nesting_cons, ih, Int.add_assoc]

end AtomLisp
