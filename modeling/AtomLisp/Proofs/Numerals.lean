import AtomLisp.Proofs.Preservation
import Mathlib.Data.List.TakeWhile

/-!
# Numerals

An atom is read as an integer from its front: blanks, one sign, and the decimal digits after it. The
number that is read there is checked against the range at every digit. This comes to the same as one
check of the whole number, since more digits only lead further away from zero
(`Integer.ofDigits?_append`).

`Integer.Numeral` is a text in the parts by which it is read. An atom stands for the integer of its
numeral, if that is in the range (`Value.toInteger_atom`); the decimal text of an integer is read as
that integer (`Value.toInteger_ofInt`), and such texts are equal if and only if the integers are.
-/

namespace AtomLisp

namespace Integer

/-- What may stand before the digits. -/
inductive Sign where
  | none
  | plus
  | minus
deriving DecidableEq, Repr

namespace Sign

def chars : Sign → List Char
  | none => []
  | plus => ['+']
  | minus => ['-']

/-- Do the digits count down from zero? -/
def isNegative : Sign → Bool
  | minus => true
  | _ => false

end Sign

/-- A natural number, or its negative. -/
def signed (negative : Bool) (n : Nat) : Int :=
  if negative then -n else n

/-- A text in the parts by which it is read as an integer: blanks, a sign, digits, and a rest that
is not looked at. Each part takes in all that it can. -/
structure Numeral (text : String) where
  blanks : List Char
  sign : Sign
  digits : List Char
  rest : List Char
  text_eq : text.toList = blanks ++ (sign.chars ++ (digits ++ rest))
  isBlank : ∀ c ∈ blanks, Text.isBlank c = true
  isDigit : ∀ c ∈ digits, c.isDigit = true
  blanks_maximal : ∀ c, (sign.chars ++ (digits ++ rest)).head? = some c → Text.isBlank c = false
  sign_maximal : sign = .none → ∀ c, (digits ++ rest).head? = some c → c ≠ '+' ∧ c ≠ '-'
  digits_maximal : ∀ c, rest.head? = some c → c.isDigit = false

/-- The integer that the sign and the digits stand for. No digits stand for zero. -/
def Numeral.value {text : String} (numeral : Numeral text) : Int :=
  signed numeral.sign.isNegative (Nat.ofDigitChars 10 numeral.digits 0)

/-! ### The range -/

/-- A number of smaller size is in the range if one of the same sign is. -/
theorem inRange_signed_of_le {negative : Bool} {m n : Nat} (h : InRange (signed negative n))
    (hle : m ≤ n) : InRange (signed negative m) := by
  unfold InRange signed at *
  cases negative <;> simp_all <;> omega

theorem checked_of_inRange {i : Int} (h : InRange i) : checked i = some i :=
  if_pos h

theorem checked_of_not_inRange {i : Int} (h : ¬ InRange i) : checked i = none :=
  if_neg h

/-! ### Checking at every digit -/

theorem le_ofDigitChars (digits : List Char) (n : Nat) : n ≤ Nat.ofDigitChars 10 digits n := by
  rw [Nat.ofDigitChars_eq_ofDigitChars_zero]
  exact Nat.le_add_right_of_le (Nat.le_mul_of_pos_left n (Nat.pow_pos (by decide)))

/-- A decimal digit stands for its distance from zero. -/
theorem digit?_of_isDigit {c : Char} (h : c.isDigit = true) :
    digit? c = some ((c.toNat - '0'.toNat : Nat) : Int) := by
  have hle : '0'.toNat ≤ c.toNat := (Char.isDigit_iff_toNat.1 h).1
  rw [digit?, if_pos h, Int.ofNat_sub hle]

theorem digit?_of_not_isDigit {c : Char} (h : c.isDigit = false) : digit? c = none := by
  rw [digit?, h]
  rfl

/-- Where no digit follows, reading ends with the value so far. -/
theorem ofDigits?_of_head? (negative : Bool) (value : Int) {rest : List Char}
    (hrest : ∀ c, rest.head? = some c → c.isDigit = false) :
    ofDigits? negative value rest = some value := by
  cases rest with
  | nil => rfl
  | cons c rest => rw [ofDigits?, digit?_of_not_isDigit (hrest c rfl)]

/-- One more digit takes the value away from zero, if it stays in the range. -/
theorem ofDigits?_cons {negative : Bool} {n : Nat} {c : Char} (hc : c.isDigit = true)
    (cs : List Char) :
    ofDigits? negative (signed negative n) (c :: cs) =
      if InRange (signed negative (10 * n + (c.toNat - '0'.toNat))) then
        ofDigits? negative (signed negative (10 * n + (c.toNat - '0'.toNat))) cs
      else none := by
  have hshift : signed negative n * 10 = signed negative (10 * n) := by
    cases negative <;> (simp [signed]; omega)
  have hstep : ∀ d : Nat, (if negative then signed negative (10 * n) - d
      else signed negative (10 * n) + d) = signed negative (10 * n + d) := by
    intro d
    cases negative with
    | false => exact (Int.natCast_add _ d).symm
    | true => simp [signed]; omega
  rw [ofDigits?, digit?_of_isDigit hc]
  by_cases hrange : InRange (signed negative (10 * n + (c.toNat - '0'.toNat)))
  · have hmul : InRange (signed negative (10 * n)) :=
      inRange_signed_of_le hrange (Nat.le_add_right _ _)
    simp only [hshift, checked_of_inRange hmul, Option.bind_eq_bind, Option.bind_some, hstep,
      checked_of_inRange hrange, if_pos hrange]
  · rw [if_neg hrange]
    by_cases hmul : InRange (signed negative (10 * n))
    · simp only [hshift, checked_of_inRange hmul, Option.bind_eq_bind, Option.bind_some, hstep,
        checked_of_not_inRange hrange, Option.bind_none]
    · simp only [hshift, checked_of_not_inRange hmul, Option.bind_eq_bind, Option.bind_none]

/-- To check the range at every digit comes to the same as to check it once, for the whole
number. -/
theorem ofDigits?_append (negative : Bool) {n : Nat} (hn : InRange (signed negative n))
    {digits rest : List Char} (hdigits : ∀ c ∈ digits, c.isDigit = true)
    (hrest : ∀ c, rest.head? = some c → c.isDigit = false) :
    ofDigits? negative (signed negative n) (digits ++ rest) =
      checked (signed negative (Nat.ofDigitChars 10 digits n)) := by
  induction digits generalizing n with
  | nil =>
    rw [List.nil_append, Nat.ofDigitChars_nil, ofDigits?_of_head? _ _ hrest, checked_of_inRange hn]
  | cons c digits ih =>
    obtain ⟨hc, hdigits⟩ := List.forall_mem_cons.1 hdigits
    rw [List.cons_append, ofDigits?_cons hc, Nat.ofDigitChars_cons]
    by_cases hrange : InRange (signed negative (10 * n + (c.toNat - '0'.toNat)))
    · rw [if_pos hrange, ih hrange hdigits]
    · -- out of the range once, out of the range for good
      rw [if_neg hrange, checked_of_not_inRange]
      exact fun h => hrange (inRange_signed_of_le h (le_ofDigitChars digits _))

/-! ### Numerals -/

/-- Characters are those at the front that a test accepts, and the rest. -/
theorem exists_span (p : Char → Bool) (cs : List Char) : ∃ front rest, cs = front ++ rest ∧
    (∀ c ∈ front, p c = true) ∧ ∀ c, rest.head? = some c → p c = false := by
  refine ⟨cs.takeWhile p, cs.dropWhile p, List.takeWhile_append_dropWhile.symm,
    fun c hc => List.mem_takeWhile_imp hc, fun c hc => ?_⟩
  have hhead := List.head?_dropWhile_not p cs
  rw [hc] at hhead
  exact hhead

/-- What is dropped from the front ends where the test first fails. -/
theorem dropWhile_append_of_head? {p : Char → Bool} {front rest : List Char}
    (hfront : ∀ c ∈ front, p c = true) (hrest : ∀ c, rest.head? = some c → p c = false) :
    (front ++ rest).dropWhile p = rest := by
  rw [List.dropWhile_append_of_pos hfront]
  cases rest with
  | nil => rfl
  | cons c rest => rw [List.dropWhile_cons, hrest c rfl]; rfl

/-- Every text has these parts. -/
theorem nonempty_numeral (text : String) : Nonempty (Numeral text) := by
  obtain ⟨blanks, cs, htext, hblanks, hcs⟩ := exists_span Text.isBlank text.toList
  have hsigned : ∀ (sign : Sign) (tail : List Char), cs = sign.chars ++ tail →
      (sign = .none → ∀ c, tail.head? = some c → c ≠ '+' ∧ c ≠ '-') →
        Nonempty (Numeral text) := by
    intro sign tail hsign hmaximal
    obtain ⟨digits, rest, rfl, hdigits, hrest⟩ := exists_span Char.isDigit tail
    rw [hsign] at htext hcs
    exact ⟨⟨blanks, sign, digits, rest, htext, hblanks, hdigits, hcs, hmaximal, hrest⟩⟩
  match cs, hsigned with
  | [], hsigned => exact hsigned .none [] rfl fun _ c hc => by cases hc
  | c :: tail, hsigned =>
    by_cases hplus : c = '+'
    · exact hsigned .plus tail (by rw [hplus]; rfl) fun h => by cases h
    · by_cases hminus : c = '-'
      · exact hsigned .minus tail (by rw [hminus]; rfl) fun h => by cases h
      · refine hsigned .none (c :: tail) rfl fun _ c' hc' => ?_
        obtain rfl := Option.some.inj hc'
        exact ⟨hplus, hminus⟩

/-- What is read from a text is the value of its numeral, if it is in the range. -/
theorem ofText?_eq_checked {text : String} (numeral : Numeral text) :
    ofText? text = checked numeral.value := by
  have hzero : ∀ negative, ofDigits? negative 0 (numeral.digits ++ numeral.rest) =
      checked (signed negative (Nat.ofDigitChars 10 numeral.digits 0)) := by
    intro negative
    have hsigned : signed negative 0 = 0 := by cases negative <;> rfl
    have hrange : InRange (signed negative 0) := by rw [hsigned]; decide
    have h := ofDigits?_append negative hrange numeral.isDigit numeral.digits_maximal
    rwa [hsigned] at h
  rw [ofText?, numeral.text_eq,
    dropWhile_append_of_head? numeral.isBlank numeral.blanks_maximal, Numeral.value]
  cases hsign : numeral.sign with
  | minus => exact hzero true
  | plus => exact hzero false
  | none =>
    have hmaximal := numeral.sign_maximal hsign
    rw [Sign.chars, List.nil_append]
    generalize numeral.digits ++ numeral.rest = tail at hzero hmaximal ⊢
    split
    · next cs => exact absurd rfl (hmaximal '-' rfl).2
    · next cs => exact absurd rfl (hmaximal '+' rfl).1
    · exact hzero false

end Integer

open Integer

namespace Value

/-- An atom stands for the value of its numeral, unless that is out of the range. -/
theorem toInteger_atom {text : String} (numeral : Numeral text) :
    (atom text).toInteger =
      if InRange numeral.value then .ok numeral.value else .error .overflow := by
  rw [toInteger, ofText?_eq_checked numeral]
  by_cases h : InRange numeral.value
  · rw [checked_of_inRange h, if_pos h]
  · rw [checked_of_not_inRange h, if_neg h]

/-- The integers that values stand for are in the range. -/
theorem inRange_of_toInteger {x : Value} {i : Int} (h : x.toInteger = .ok i) : InRange i := by
  cases x with
  | atom text =>
    obtain ⟨numeral⟩ := nonempty_numeral text
    rw [toInteger_atom numeral] at h
    split at h
    · next hrange =>
      obtain rfl := Except.ok.inj h
      exact hrange
    · cases h
  | _ => cases h

end Value

/-! ### Decimal texts -/

namespace Integer

theorem isBlank_of_isDigit {c : Char} (h : c.isDigit = true) : Text.isBlank c = false := by
  obtain ⟨hlow, hhigh⟩ : 48 ≤ c.toNat ∧ c.toNat ≤ 57 := Char.isDigit_iff_toNat.1 h
  rw [← Bool.not_eq_true]
  simp only [Text.isBlank, Text.blankRanges, List.any_cons, List.any_nil, Bool.or_false,
    Bool.or_eq_true, Bool.and_eq_true, decide_eq_true_eq]
  omega

/-- A sign is not a blank, so no blank after it is skipped. -/
theorem isBlank_of_mem_chars {sign : Sign} {c : Char} (h : c ∈ sign.chars) :
    Text.isBlank c = false := by
  cases sign with
  | none => cases h
  | plus => obtain rfl := List.mem_singleton.1 h; decide
  | minus => obtain rfl := List.mem_singleton.1 h; decide

theorem isDigit_of_mem_toDigits {n : Nat} {c : Char} (h : c ∈ Nat.toDigits 10 n) :
    c.isDigit = true :=
  Nat.isDigit_of_mem_toDigits (by decide) (by decide) h

/-- The digits of a natural number, after a sign or not, are a numeral. -/
def Numeral.ofNat (sign : Sign) (n : Nat) {text : String}
    (htext : text.toList = sign.chars ++ Nat.toDigits 10 n) : Numeral text where
  blanks := []
  sign := sign
  digits := Nat.toDigits 10 n
  rest := []
  text_eq := by rw [htext, List.append_nil, List.nil_append]
  isBlank c hc := absurd hc List.not_mem_nil
  isDigit c hc := isDigit_of_mem_toDigits hc
  blanks_maximal c hc := by
    rw [List.append_nil] at hc
    obtain hsign | hdigit := List.mem_append.1 (List.mem_of_head? hc)
    · exact isBlank_of_mem_chars hsign
    · exact isBlank_of_isDigit (isDigit_of_mem_toDigits hdigit)
  sign_maximal _ c hc := by
    rw [List.append_nil] at hc
    have hdigit : c.isDigit = true := isDigit_of_mem_toDigits (List.mem_of_head? hc)
    constructor <;> rintro rfl <;> exact absurd hdigit (by decide)
  digits_maximal c hc := by cases hc

/-- A numeral of decimal digits has the value of the number, with its sign. -/
theorem Numeral.value_ofNat (sign : Sign) (n : Nat) {text : String}
    (htext : text.toList = sign.chars ++ Nat.toDigits 10 n) :
    (Numeral.ofNat sign n htext).value = signed sign.isNegative n :=
  congrArg (signed _) Nat.ofDigitChars_ten_toDigits

/-- The decimal text of an integer is a numeral for it. -/
theorem exists_numeral_toString (i : Int) :
    ∃ numeral : Numeral (toString i), numeral.value = i := by
  cases i with
  | ofNat n =>
    have htext : (toString (Int.ofNat n)).toList = Sign.none.chars ++ Nat.toDigits 10 n :=
      Nat.toList_repr
    exact ⟨.ofNat .none n htext, Numeral.value_ofNat .none n htext⟩
  | negSucc n =>
    have htext : (toString (Int.negSucc n)).toList =
        Sign.minus.chars ++ Nat.toDigits 10 (n + 1) := by
      show ("-" ++ Nat.repr (n + 1)).toList = _
      rw [String.toList_append, Nat.toList_repr]
      rfl
    exact ⟨.ofNat .minus (n + 1) htext, Numeral.value_ofNat .minus (n + 1) htext⟩

end Integer

namespace Value

/-- The atom made from an integer stands for that integer. -/
theorem toInteger_ofInt {i : Int} (h : InRange i) : (ofInt i).toInteger = .ok i := by
  obtain ⟨numeral, hvalue⟩ := exists_numeral_toString i
  rw [ofInt, toInteger_atom numeral, hvalue, if_pos h]

/-- Atoms made from integers are equal if the integers are, and only then. -/
theorem ofInt_beq_ofInt {i j : Int} (hi : InRange i) (hj : InRange j) :
    (ofInt i == ofInt j) = decide (i = j) := by
  have htexts : (ofInt i == ofInt j) = (toString i == toString j) := by
    simp only [ofInt, BEq.beq, same]
  rw [htexts]
  by_cases hij : i = j
  · rw [hij, decide_eq_true rfl, beq_self_eq_true]
  · rw [decide_eq_false hij, beq_eq_false_iff_ne]
    intro htext
    have hread : (ofInt i).toInteger = (ofInt j).toInteger := by rw [ofInt, htext, ofInt]
    rw [toInteger_ofInt hi, toInteger_ofInt hj] at hread
    exact hij (Except.ok.inj hread)

end Value

end AtomLisp
