import AtomLisp.Fault
import AtomLisp.Text.Blank

/-!
# Integers

The integers of the language are those of 64 bits with a sign, and a result out of this range is
refused (`Integer.checked`). They have no form of their own: an atom is read as an integer wherever
one is needed (`Value.toInteger`), by the digits that its text starts with.
-/

namespace AtomLisp

namespace Integer

/-- From the least to the greatest integer of 64 bits. -/
def InRange (i : Int) : Prop :=
  -9223372036854775808 ≤ i ∧ i ≤ 9223372036854775807

instance (i : Int) : Decidable (InRange i) :=
  inferInstanceAs (Decidable (_ ∧ _))

/-- The integer itself if it lies in the range. -/
def checked (i : Int) : Option Int :=
  if InRange i then some i else none

/-- The value of a decimal digit. -/
def digit? (c : Char) : Option Int :=
  if c.isDigit then some (c.toNat - '0'.toNat) else none

/-- Take in the digits at the start of `cs`, one at a time, checking the range at every step. The
value moves away from zero, downwards if `negative`, so the least integer is within reach. -/
def ofDigits? (negative : Bool) (value : Int) : List Char → Option Int
  | [] => some value
  | c :: cs =>
    match digit? c with
    | none => some value
    | some d => do
      let shifted ← checked (value * 10)
      let value ← checked (if negative then shifted - d else shifted + d)
      ofDigits? negative value cs

/-- The integer a text starts with: blanks are skipped, one sign may come first, then decimal
digits are read as long as there are any. No digit at all counts as zero; `none` means that the
number is out of range. -/
def ofText? (text : String) : Option Int :=
  match text.toList.dropWhile Text.isBlank with
  | '-' :: cs => ofDigits? true 0 cs
  | '+' :: cs => ofDigits? false 0 cs
  | cs => ofDigits? false 0 cs

/-- A result passes the check as it is, or not at all. -/
theorem checked_eq_some_iff {i j : Int} : checked i = some j ↔ InRange i ∧ i = j := by
  unfold checked
  split <;> simp_all

end Integer

/-- The integer an atom stands for. -/
def Value.toInteger : Value → Except Fault Int
  | .atom text =>
    match Integer.ofText? text with
    | some i => .ok i
    | none => .error .overflow
  | x => .error (.notNumber x)

end AtomLisp
