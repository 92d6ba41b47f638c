import AtomLisp.Text.Blank
import AtomLisp.Token

/-!
# Splitting text into tokens

A parenthesis is a token by itself; every other unbroken run of characters that are not blank is an
atom. Splitting never fails. A `Lexer` collects the tokens of several texts, with the nesting level
so far.

The scan is a left fold over the characters, so the scan of two texts one after the other is the
scan of the second begun where the first one stopped.
-/

namespace AtomLisp

/-- How far a text has been read: the bytes passed, the characters of the atom being read (the
newest first) and the lexemes already complete (the newest first). -/
structure Scan where
  offset : Nat := 0
  word : List Char := []
  complete : List Lexeme := []

namespace Scan

/-- Complete the atom being read, if there is one. -/
def finish (scan : Scan) : Scan :=
  match scan.word with
  | [] => scan
  | word =>
    let text := String.ofList word.reverse
    { scan with
      word := []
      complete := ⟨.atom text, scan.offset - text.utf8ByteSize, scan.offset⟩ :: scan.complete }

/-- Read one more character. A parenthesis completes the atom before it and is complete itself, a
blank completes the atom before it, and any other character belongs to an atom. -/
def next (scan : Scan) (c : Char) : Scan :=
  let stop := scan.offset + c.utf8Size
  match Token.ofChar? c with
  | some paren =>
    { offset := stop, word := [],
      complete := ⟨paren, scan.offset, stop⟩ :: scan.finish.complete }
  | none =>
    if Text.isBlank c then { scan.finish with offset := stop }
    else { scan with offset := stop, word := c :: scan.word }

end Scan

/-- The tokens of a text in order, each with its place. -/
def lexemes (text : String) : List Lexeme :=
  (text.toList.foldl Scan.next {}).finish.complete.reverse

/-- The tokens of a text in order. -/
def tokens (text : String) : List Token :=
  (lexemes text).map Lexeme.token

/-- Tokens collected from several texts. `pending` holds those not yet taken; `depth` is the
nesting of all texts given so far, taken or not. -/
structure Lexer where
  pending : List Lexeme := []
  depth : Int := 0

namespace Lexer

/-- Add the tokens of one more text. Places count from the start of that text. -/
def feed (lexer : Lexer) (text : String) : Lexer where
  pending := lexer.pending ++ lexemes text
  depth := lexer.depth + nesting (tokens text)

/-- Hand out the pending tokens. The nesting level stays as it is. -/
def take (lexer : Lexer) : List Lexeme × Lexer :=
  (lexer.pending, { lexer with pending := [] })

/-- Not more parentheses were opened than closed. -/
def isBalanced (lexer : Lexer) : Bool :=
  lexer.depth ≤ 0

end Lexer

/-- Not more parentheses are opened in the text than closed. -/
def isBalanced (text : String) : Bool :=
  (Lexer.feed {} text).isBalanced

/-- A text is balanced if no more of its parentheses are opened than closed. -/
theorem isBalanced_iff (text : String) :
    isBalanced text = true ↔ nesting (tokens text) ≤ 0 := by
  simp [isBalanced, Lexer.isBalanced, Lexer.feed]

end AtomLisp
