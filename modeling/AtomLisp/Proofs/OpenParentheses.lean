import AtomLisp.Proofs.Parentheses
import AtomLisp.Proofs.SourceLines

/-!
# Parentheses that are still open

A text is balanced if it has no more opening parentheses than closing ones. This is not to say that
each opening parenthesis is closed: a closing parenthesis that closes nothing counts against one
that is opened after it. The nesting level is what waits to be closed less what is stray
(`waiting_eq_nesting_add_strays`), and each opening parenthesis is closed if and only if none is
open at the end (`allClosed_iff`). `balanced_up_to_strays` draws the conclusion for texts and for
sources.

`waiting` passes over a closing parenthesis that closes nothing, where the nesting level falls below
zero. Up to the first such parenthesis the two agree.
-/

namespace AtomLisp

/-- Each opening parenthesis is followed by the closing one that belongs to it, with nothing but
atoms and whole lists between the two. -/
def AllClosed (ts : List Token) : Prop :=
  ∀ before after, ts = before ++ .lparen :: after →
    ∃ inner rest, after = inner ++ .rparen :: rest ∧ Matched inner

/-- The number of parentheses that are open after the tokens, if `n` are open before them. A closing
parenthesis that closes nothing leaves it at zero. -/
def waiting : Nat → List Token → Nat
  | n, [] => n
  | n, .lparen :: ts => waiting (n + 1) ts
  | n, .rparen :: ts => waiting (n - 1) ts
  | n, .atom _ :: ts => waiting n ts

/-- The number of closing parentheses among the tokens that close nothing, if `n` are open before
them. -/
def strays : Nat → List Token → Nat
  | _, [] => 0
  | n, .lparen :: ts => strays (n + 1) ts
  | 0, .rparen :: ts => strays 0 ts + 1
  | n + 1, .rparen :: ts => strays n ts
  | n, .atom _ :: ts => strays n ts

variable {ts us inner : List Token} {n : Nat} {depth : Int}

/-! ### Counting what is open -/

/-- What waits after more tokens is counted from what waits before them. -/
theorem waiting_append (n : Nat) (ts us : List Token) :
    waiting n (ts ++ us) = waiting (waiting n ts) us := by
  induction ts generalizing n with
  | nil => rfl
  | cons t ts ih => cases t <;> exact ih _

/-- The nesting level of the tokens is what waits to be closed less what closes nothing. -/
theorem waiting_eq_nesting_add_strays (n : Nat) (ts : List Token) :
    (waiting n ts : Int) = n + nesting ts + strays n ts := by
  induction ts generalizing n with
  | nil => simp [waiting, strays]
  | cons t ts ih =>
    cases t with
    | lparen =>
      rw [waiting, strays, ih, nesting_cons, Token.nesting]
      omega
    | rparen =>
      cases n with
      | zero =>
        rw [waiting, strays, Nat.zero_sub, ih, nesting_cons, Token.nesting]
        omega
      | succ n =>
        rw [waiting, strays, Nat.add_sub_cancel, ih, nesting_cons, Token.nesting]
        omega
    | atom text => rw [waiting, strays, ih, nesting_cons, Token.nesting, Int.zero_add]

/-- Nothing is stray if every closing parenthesis has something to close. -/
theorem strays_eq_zero_iff : strays n ts = 0 ↔ NoStray n ts := by
  induction ts generalizing n with
  | nil => simp [strays]
  | cons t ts ih =>
    rw [noStray_cons]
    cases t with
    | lparen =>
      rw [strays, ih, Token.nesting]
      exact (and_iff_right (Int.natCast_nonneg n)).symm
    | rparen =>
      cases n with
      | zero =>
        refine iff_of_false (Nat.succ_ne_zero _) fun h => ?_
        have hlevel := h.2.depth_nonneg
        rw [Token.nesting] at hlevel
        omega
      | succ n =>
        have hlevel : ((n + 1 : Nat) : Int) + Token.rparen.nesting = n := by
          rw [Token.nesting]
          omega
        rw [strays, ih, hlevel, and_iff_right (Int.natCast_nonneg _)]
    | atom text =>
      rw [strays, ih, Token.add_nesting_atom]
      exact (and_iff_right_of_imp fun h => h.depth_nonneg).symm

/-- More parentheses that are open before the tokens do not make one of theirs stray. -/
theorem NoStray.mono (h : NoStray depth ts) {deeper : Int} (hle : depth ≤ deeper) :
    NoStray deeper ts := fun us hus => (h us hus).trans (by omega)

/-- Matched tokens leave nothing waiting but what was so before. -/
theorem Matched.waiting_eq (h : Matched ts) (n : Nat) : waiting n ts = n := by
  have hstrays := strays_eq_zero_iff.2 (h.noStray.mono (Int.natCast_nonneg n))
  have hwaiting := waiting_eq_nesting_add_strays n ts
  rw [h.closed, hstrays] at hwaiting
  omega

/-! ### The parenthesis that closes -/

/-- Unless none is stray, the tokens before the first stray parenthesis leave nothing open, and
those after it follow it. -/
theorem eq_beforeStray_append (hdepth : 0 ≤ depth) (hstray : ¬ NoStray depth ts) :
    ts = beforeStray depth ts ++ .rparen :: afterStray depth ts ∧
      depth + nesting (beforeStray depth ts) = 0 := by
  induction ts generalizing depth with
  | nil => exact absurd (noStray_nil.2 hdepth) hstray
  | cons t ts ih =>
    rw [beforeStray, afterStray]
    by_cases hlevel : depth + t.nesting < 0
    · obtain ⟨rfl, rfl⟩ := eq_rparen_of_stray hdepth hlevel
      exact ⟨rfl, rfl⟩
    · rw [if_neg hlevel, if_neg hlevel]
      obtain ⟨hts, hclosed⟩ :=
        ih (Int.not_lt.1 hlevel) fun h => hstray (noStray_cons.2 ⟨hdepth, h⟩)
      refine ⟨congrArg (t :: ·) hts, ?_⟩
      rw [nesting_cons, ← Int.add_assoc, hclosed]

/-- After a parenthesis that is closed in the end comes the one that closes it. -/
theorem exists_matched_of_waiting_le (h : waiting (n + 1) ts ≤ n) :
    ∃ inner rest, ts = inner ++ .rparen :: rest ∧ Matched inner := by
  have hstray : ¬ NoStray 0 ts := fun hno => by
    have hnesting := hno ts List.prefix_rfl
    have hwaiting := waiting_eq_nesting_add_strays (n + 1) ts
    omega
  obtain ⟨hts, hclosed⟩ := eq_beforeStray_append Int.le_rfl hstray
  rw [Int.zero_add] at hclosed
  exact ⟨_, _, hts, noStray_beforeStray Int.le_rfl ts, hclosed⟩

/-- A parenthesis that is opened before matched tokens is still open after them. -/
theorem Matched.not_append_lparen (hinner : Matched inner) (before : List Token) :
    ¬ Matched (before ++ .lparen :: inner) := by
  intro h
  have hbefore := h.noStray before (List.prefix_append _ _)
  have hclosed := h.closed
  rw [nesting_append, nesting_cons, hinner.closed, Token.nesting] at hclosed
  omega

/-- No parenthesis closes two: of the tokens before it, only one opening parenthesis belongs to
it. -/
theorem Matched.before_unique {before before' inner' : List Token} (hinner : Matched inner)
    (hinner' : Matched inner')
    (heq : before ++ .lparen :: inner = before' ++ .lparen :: inner') : before = before' := by
  rcases List.append_eq_append_iff.1 heq with ⟨between, rfl, hrest⟩ | ⟨between, rfl, hrest⟩
  · cases between with
    | nil => exact (List.append_nil before).symm
    | cons t between =>
      obtain ⟨-, rfl⟩ := List.cons.inj hrest
      exact absurd hinner (hinner'.not_append_lparen between)
  · cases between with
    | nil => exact List.append_nil before'
    | cons t between =>
      obtain ⟨-, rfl⟩ := List.cons.inj hrest
      exact absurd hinner' (hinner.not_append_lparen between)

/-! ### Each parenthesis closed -/

/-- What is closed in the end is so in every last part. -/
theorem AllClosed.of_append (h : AllClosed (ts ++ us)) : AllClosed us :=
  fun before after hus => h (ts ++ before) after (by rw [hus, List.append_assoc])

/-- If all that is opened is closed, no more waits than before. -/
theorem AllClosed.waiting_le (h : AllClosed ts) (n : Nat) : waiting n ts ≤ n := by
  -- a list is left out as a whole, so what is left of the tokens decides the induction
  induction hlength : ts.length using Nat.strongRecOn generalizing ts n with
  | _ length ih =>
    subst hlength
    match ts with
    | [] => exact Nat.le_refl n
    | .lparen :: after =>
      obtain ⟨inner, rest, rfl, hinner⟩ := h [] after rfl
      have hsplit : .lparen :: (inner ++ .rparen :: rest) =
          (.lparen :: (inner ++ [.rparen])) ++ rest := by simp
      have hrest : AllClosed rest := (hsplit ▸ h).of_append
      rw [waiting, waiting_append, hinner.waiting_eq, waiting, Nat.add_sub_cancel]
      exact ih rest.length (by simp only [List.length_cons, List.length_append]; omega) hrest n rfl
    | .rparen :: ts =>
      have hts : AllClosed ts := AllClosed.of_append (show AllClosed ([.rparen] ++ ts) from h)
      exact (ih ts.length (Nat.lt_succ_self _) hts (n - 1) rfl).trans (Nat.sub_le n 1)
    | .atom text :: ts =>
      have hts : AllClosed ts := AllClosed.of_append (show AllClosed ([.atom text] ++ ts) from h)
      exact ih ts.length (Nat.lt_succ_self _) hts n rfl

/-- Each opening parenthesis is closed if and only if none is open at the end. -/
theorem allClosed_iff : AllClosed ts ↔ waiting 0 ts = 0 := by
  refine ⟨fun h => Nat.le_zero.1 (h.waiting_le 0), ?_⟩
  rintro hclosed before after rfl
  rw [waiting_append, waiting] at hclosed
  exact exists_matched_of_waiting_le (hclosed.le.trans (Nat.zero_le _))

instance (ts : List Token) : Decidable (AllClosed ts) :=
  decidable_of_iff _ allClosed_iff.symm

/-! ### Balanced texts and sources -/

/-- Balance sets what waits against what is stray. -/
theorem isBalanced_iff_waiting_le_strays (text : String) :
    isBalanced text = true ↔ waiting 0 (tokens text) ≤ strays 0 (tokens text) := by
  have hwaiting := waiting_eq_nesting_add_strays 0 (tokens text)
  rw [isBalanced_iff]
  omega

/-- A source that the loop runs is balanced. -/
theorem isBalanced_of_mem_readAll {lines rest : List String} {text shown : String}
    (h : Reading.source text shown rest ∈ readAll lines) : isBalanced text = true := by
  induction hlength : lines.length using Nat.strongRecOn generalizing lines with
  | _ length ih =>
    subst hlength
    rcases readBalanced_cases lines with ⟨group, left, -, hsource, hread⟩ | ⟨-, hread⟩
    · rw [readAll_of_source hread] at h
      rcases List.mem_cons.1 h with heq | hleft
      · obtain ⟨rfl, -, -⟩ := Reading.source.inj heq
        exact (isBalanced_sourceText group).2 hsource.balance_nonpos
      · exact ih left.length (length_lt_of_readBalanced hread) hleft rfl
    · rw [readAll_of_ended hread] at h
      cases List.mem_singleton.1 h

/-- **A text is balanced up to stray parentheses.** It is balanced if and only if at most as many
parentheses are open at its end as closing ones closed nothing. So it is balanced if each opening
parenthesis has a closing one of its own, and the other way round as long as none is stray; the two
differ just where some parentheses are open at the end and at least as many were stray. Whatever
lines are read, this is also what is known of each source: the parentheses that it leaves open are
made up for by stray ones, and without these it leaves none open. -/
theorem balanced_up_to_strays (text : String) (lines : List String) :
    (isBalanced text = true ↔ waiting 0 (tokens text) ≤ strays 0 (tokens text)) ∧
    (AllClosed (tokens text) ↔ waiting 0 (tokens text) = 0) ∧
    (∀ before inner before' inner', Matched inner → Matched inner' →
      before ++ .lparen :: inner = before' ++ .lparen :: inner' → before = before') ∧
    (AllClosed (tokens text) → isBalanced text = true) ∧
    ((isBalanced text = true ↔ AllClosed (tokens text)) ↔
      waiting 0 (tokens text) = 0 ∨ strays 0 (tokens text) < waiting 0 (tokens text)) ∧
    (NoStray 0 (tokens text) → (isBalanced text = true ↔ AllClosed (tokens text))) ∧
    ∀ source shown rest, Reading.source source shown rest ∈ readAll lines →
      waiting 0 (tokens source) ≤ strays 0 (tokens source) ∧
      (NoStray 0 (tokens source) → AllClosed (tokens source)) := by
  have hbalanced := isBalanced_iff_waiting_le_strays
  refine ⟨hbalanced text, allClosed_iff, fun _ _ _ _ => Matched.before_unique, fun h => ?_, ?_,
    fun h => ?_, ?_⟩
  · rw [hbalanced, allClosed_iff.1 h]
    exact Nat.zero_le _
  · rw [hbalanced, allClosed_iff]
    omega
  · rw [hbalanced, allClosed_iff, strays_eq_zero_iff.2 h, Nat.le_zero]
  · intro source shown rest hsource
    have hle := (hbalanced source).1 (isBalanced_of_mem_readAll hsource)
    refine ⟨hle, fun h => allClosed_iff.2 (Nat.le_zero.1 ?_)⟩
    rwa [strays_eq_zero_iff.2 h] at hle

/-- A text that opens a parenthesis after a stray one is balanced, and is read as a whole source,
although the parenthesis is open at its end. -/
theorem balanced_with_open_parenthesis :
    isBalanced ")(" = true ∧ ¬ AllClosed (tokens ")(") ∧
      readBalanced [")(", ")"] = .source ")(\n" ">> " [")"] ∧ ¬ AllClosed (tokens ")(\n") := by
  decide

end AtomLisp
