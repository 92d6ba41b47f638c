import AtomLisp.Token
import Mathlib.Data.List.Infix

/-!
# Parentheses that close nothing

Tokens need not be well nested. They are cut off before the first closing parenthesis that has
nothing to close, and parentheses that are still open are closed at their end.

`beforeStray` is the longest part without a stray parenthesis (`prefix_beforeStray_iff`), and
`completed` closes what is open in it. Inside one more list, the tokens go on after a stray
parenthesis (`completed_succ`), and a closing parenthesis at the end changes nothing
(`completed_append_rparen`).

The depth is the number of parentheses that are open before the tokens. It is an integer, so that
every token changes it by its `nesting`, and a parenthesis closes nothing where it falls below zero.
-/

namespace AtomLisp

/-- If `depth` parentheses are open before the tokens, every closing one among them closes one that
was opened before it: no part at the beginning closes more than is open. -/
def NoStray (depth : Int) (ts : List Token) : Prop :=
  ∀ us, us <+: ts → 0 ≤ depth + nesting us

/-- Every closing parenthesis closes one that was opened before it, and all are closed. -/
structure Matched (ts : List Token) : Prop where
  noStray : NoStray 0 ts
  closed : nesting ts = 0

/-- The tokens before the first closing parenthesis that closes nothing: all of them if there is
none. -/
def beforeStray (depth : Int) : List Token → List Token
  | [] => []
  | t :: ts => if depth + t.nesting < 0 then [] else t :: beforeStray (depth + t.nesting) ts

/-- The tokens after the first closing parenthesis that closes nothing: none if there is none. -/
def afterStray (depth : Int) : List Token → List Token
  | [] => []
  | t :: ts => if depth + t.nesting < 0 then ts else afterStray (depth + t.nesting) ts

/-- The tokens before the first closing parenthesis that closes nothing, and after them a closing
parenthesis for each one that is open there. -/
def completed (depth : Int) : List Token → List Token
  | [] => List.replicate depth.toNat .rparen
  | t :: ts => if depth + t.nesting < 0 then [] else t :: completed (depth + t.nesting) ts

/-- An atom leaves the depth as it is. -/
@[simp] theorem Token.add_nesting_atom (depth : Int) (text : String) :
    depth + (atom text).nesting = depth :=
  Int.add_zero depth

variable {depth : Int} {t : Token} {ts us : List Token}

/-! ### Tokens without a stray parenthesis -/

/-- Nothing is stray only from a depth that there can be. -/
theorem NoStray.depth_nonneg (h : NoStray depth ts) : 0 ≤ depth := by
  simpa using h [] List.nil_prefix

@[simp] theorem noStray_nil : NoStray depth [] ↔ 0 ≤ depth := by
  refine ⟨NoStray.depth_nonneg, fun h us hus => ?_⟩
  obtain rfl := List.prefix_nil.1 hus
  simpa using h

/-- The depth after the first token is the one that the others begin at. -/
@[simp] theorem noStray_cons :
    NoStray depth (t :: ts) ↔ 0 ≤ depth ∧ NoStray (depth + t.nesting) ts := by
  constructor
  · refine fun h => ⟨h.depth_nonneg, fun us hus => ?_⟩
    have hcons := h (t :: us) ((List.prefix_cons_inj t).2 hus)
    rw [nesting_cons] at hcons
    omega
  · rintro ⟨hdepth, h⟩ us hus
    cases us with
    | nil => simpa using hdepth
    | cons u us =>
      obtain ⟨rfl, hprefix⟩ := List.cons_prefix_cons.1 hus
      have hrest := h us hprefix
      rw [nesting_cons]
      omega

/-! ### The part before a stray parenthesis -/

/-- What stands before the first stray parenthesis is at the front. -/
theorem beforeStray_isPrefix (depth : Int) (ts : List Token) : beforeStray depth ts <+: ts := by
  induction ts generalizing depth with
  | nil => exact List.nil_prefix
  | cons t ts ih =>
    rw [beforeStray]
    split
    · exact List.nil_prefix
    · exact (List.prefix_cons_inj t).2 (ih _)

/-- Nothing is stray before the first stray parenthesis. -/
theorem noStray_beforeStray (hdepth : 0 ≤ depth) (ts : List Token) :
    NoStray depth (beforeStray depth ts) := by
  induction ts generalizing depth with
  | nil => exact noStray_nil.2 hdepth
  | cons t ts ih =>
    rw [beforeStray]
    split
    · exact noStray_nil.2 hdepth
    · next hlevel => exact noStray_cons.2 ⟨hdepth, ih (by omega)⟩

/-- A part at the front without a stray parenthesis ends before the first. -/
theorem NoStray.prefix_beforeStray (h : NoStray depth us) (hus : us <+: ts) :
    us <+: beforeStray depth ts := by
  induction us generalizing depth ts with
  | nil => exact List.nil_prefix
  | cons u us ih =>
    obtain ⟨-, h⟩ := noStray_cons.1 h
    have hlevel := h.depth_nonneg
    cases ts with
    | nil => exact absurd hus (by simp)
    | cons t ts =>
      obtain ⟨rfl, hprefix⟩ := List.cons_prefix_cons.1 hus
      rw [beforeStray, if_neg (by omega)]
      exact (List.prefix_cons_inj u).2 (ih h hprefix)

/-- Of the parts at the beginning that have no stray parenthesis, `beforeStray` is the longest. -/
theorem prefix_beforeStray_iff (hdepth : 0 ≤ depth) :
    us <+: beforeStray depth ts ↔ us <+: ts ∧ NoStray depth us := by
  refine ⟨fun h => ⟨h.trans (beforeStray_isPrefix depth ts), fun vs hvs => ?_⟩, fun h => ?_⟩
  · exact noStray_beforeStray hdepth ts vs (hvs.trans h)
  · exact h.2.prefix_beforeStray h.1

/-- Nothing is stray if all tokens stand before the first stray parenthesis. -/
theorem noStray_iff : NoStray depth ts ↔ 0 ≤ depth ∧ beforeStray depth ts = ts := by
  refine ⟨fun h => ⟨h.depth_nonneg, ?_⟩,
    fun ⟨hdepth, heq⟩ => heq ▸ noStray_beforeStray hdepth ts⟩
  have hall : ts <+: beforeStray depth ts := h.prefix_beforeStray List.prefix_rfl
  exact (beforeStray_isPrefix depth ts).eq_of_length_le hall.length_le

instance (depth : Int) (ts : List Token) : Decidable (NoStray depth ts) :=
  decidable_of_iff _ noStray_iff.symm

/-- Parentheses match if none is stray and as many are closed as opened. -/
theorem matched_iff : Matched ts ↔ NoStray 0 ts ∧ nesting ts = 0 :=
  ⟨fun h => ⟨h.noStray, h.closed⟩, fun ⟨hstray, hclosed⟩ => ⟨hstray, hclosed⟩⟩

instance (ts : List Token) : Decidable (Matched ts) :=
  decidable_of_iff _ matched_iff.symm

/-! ### Closing what is open -/

/-- Only a closing parenthesis at depth zero closes nothing. -/
theorem eq_rparen_of_stray (hdepth : 0 ≤ depth) (hstray : depth + t.nesting < 0) :
    depth = 0 ∧ t = .rparen := by
  cases t <;> simp only [Token.nesting] at hstray
  · omega
  · exact ⟨by omega, rfl⟩
  · omega

/-- What is completed ends in as many closing parentheses as are open. -/
theorem completed_eq (hdepth : 0 ≤ depth) (ts : List Token) :
    completed depth ts = beforeStray depth ts ++
      List.replicate (depth + nesting (beforeStray depth ts)).toNat .rparen := by
  induction ts generalizing depth with
  | nil => simp [completed, beforeStray]
  | cons t ts ih =>
    rw [completed, beforeStray]
    split
    · next hstray =>
      obtain ⟨rfl, -⟩ := eq_rparen_of_stray hdepth hstray
      rfl
    · next hlevel =>
      rw [ih (by omega), nesting_cons, Int.add_assoc]
      rfl

/-- Tokens without a stray parenthesis stay as they are, and their level is where the completion of
what follows them begins. -/
theorem NoStray.completed_append (h : NoStray depth ts) (us : List Token) :
    completed depth (ts ++ us) = ts ++ completed (depth + nesting ts) us := by
  induction ts generalizing depth with
  | nil => simp
  | cons t ts ih =>
    obtain ⟨-, h⟩ := noStray_cons.1 h
    have hlevel := h.depth_nonneg
    rw [List.cons_append, completed, if_neg (by omega), ih h, nesting_cons, Int.add_assoc]
    rfl

/-- Inside one more list, the first stray parenthesis closes this list, and the tokens after it are
completed on their own. -/
theorem completed_succ (hdepth : 0 ≤ depth) (ts : List Token) :
    completed (depth + 1) ts =
      completed depth ts ++ .rparen :: completed 0 (afterStray depth ts) := by
  induction ts generalizing depth with
  | nil =>
    have hreplicate : (depth + 1).toNat = depth.toNat + 1 := by omega
    simp [completed, afterStray, hreplicate, List.replicate_succ']
  | cons t ts ih =>
    have hlevel : depth + 1 + t.nesting = depth + t.nesting + 1 := by omega
    rw [completed, completed, afterStray, hlevel]
    by_cases hstray : depth + t.nesting < 0
    · obtain ⟨rfl, rfl⟩ := eq_rparen_of_stray hdepth hstray
      rfl
    · rw [if_neg (by omega), if_neg hstray, if_neg hstray, ih (by omega)]
      rfl

/-- A closing parenthesis at the end changes nothing: it closes what would be closed there anyway,
or it is stray, or it comes after a stray one. -/
theorem completed_append_rparen (hdepth : 0 ≤ depth) (ts : List Token) :
    completed depth (ts ++ [.rparen]) = completed depth ts := by
  induction ts generalizing depth with
  | nil =>
    obtain ⟨n, rfl⟩ := Int.eq_ofNat_of_zero_le hdepth
    cases n with
    | zero => rfl
    | succ n =>
      have hlevel : ((n + 1 : Nat) : Int) + Token.rparen.nesting = n := by
        simp only [Token.nesting]
        omega
      rw [List.nil_append, completed, completed, hlevel, if_neg (by omega)]
      rfl
  | cons t ts ih =>
    rw [List.cons_append, completed, completed]
    split
    · rfl
    · next hlevel => rw [ih (by omega)]

end AtomLisp
