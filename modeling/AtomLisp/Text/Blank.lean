/-!
# Blank characters

Atoms are separated by blanks, and blanks before a number are skipped. A blank is a character with
the Unicode property `White_Space`, which `Text.isBlank` tests.
-/

namespace AtomLisp.Text

/-- The code points with the property `White_Space`, as closed ranges in increasing order. -/
def blankRanges : List (Nat × Nat) :=
  [(0x9, 0xD), (0x20, 0x20), (0x85, 0x85), (0xA0, 0xA0), (0x1680, 0x1680), (0x2000, 0x200A),
    (0x2028, 0x2029), (0x202F, 0x202F), (0x205F, 0x205F), (0x3000, 0x3000)]

/-- A blank is a character whose code point lies in one of the ranges of `blankRanges`. -/
def isBlank (c : Char) : Bool :=
  blankRanges.any fun (first, last) => first ≤ c.toNat && c.toNat ≤ last

/-- A parenthesis is not a blank, so a blank never takes one away. -/
theorem isBlank_lparen : isBlank '(' = false := by decide

/-- A closing parenthesis is not a blank either. -/
theorem isBlank_rparen : isBlank ')' = false := by decide

end AtomLisp.Text
