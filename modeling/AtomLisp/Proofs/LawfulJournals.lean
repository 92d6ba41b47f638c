import AtomLisp.Proofs.Journals
import AtomLisp.Proofs.SourceNames
import Mathlib.Data.List.Induction

/-!
# Lawful journals

What programs do to a store follows a law: closures are made from source text and are numbered in
order, and whatever is bound is known by the first name that it has been bound to. A closure that
has no name yet cannot be bound twice, since it is in one place only: it is a value that has just
been computed, and the next thing that is done with it is to bind it or to drop it. This is what
evaluation has to show at each step.

The closures without a name that are at hand at the same time, as arguments, have been made one
after the other, so their numbers lie in intervals one after the other, and no step binds a closure
from an earlier interval (`Journal.Held`, `Journal.Handed`). Binding such values is lawful
(`Journal.Lawful.bindAll`), and all closures in the store of a lawful journal are settled, that is,
known by their first names (`Journal.Lawful.everyBinding`).
-/

namespace AtomLisp

open Value (TreeOf)

/-! ### Replaying and first names -/

namespace Journal

/-- The number of closures that have been made. -/
def closures (log : Journal) : Nat :=
  log.replay.closures

variable (log more : Journal) (i : Nat)

/-- To replay more deeds is to go on from where the earlier ones have led. -/
theorem replay_append : (log ++ more).replay = more.foldl Deed.apply log.replay :=
  List.foldl_append

/-- The last deed is done to the store that the others have led to. -/
theorem replay_append_singleton (deed : Deed) :
    (log ++ [deed]).replay = deed.apply log.replay :=
  replay_append log [deed]

/-- The first name of a closure is found among the earlier deeds, or else later. -/
theorem firstName?_append :
    (log ++ more).firstName? i = (log.firstName? i).or (more.firstName? i) :=
  List.findSome?_append

theorem closures_le_apply (st : Store) (deed : Deed) :
    st.closures ≤ (deed.apply st).closures := by
  cases deed with
  | make head body => exact Nat.le_succ _
  | _ => exact Nat.le_refl _

theorem closures_le_append : log.closures ≤ (log ++ more).closures := by
  rw [closures, closures, replay_append]
  generalize log.replay = st
  induction more generalizing st with
  | nil => exact Nat.le_refl _
  | cons deed more ih => exact Nat.le_trans (closures_le_apply st deed) (ih _)

variable {log i} {name : String}

/-- Only a closure without a name gets its first name from another deed. -/
theorem firstName?_append_singleton (deed : Deed) :
    (log ++ [deed] : Journal).firstName? i = (log.firstName? i).or (deed.nameFor? i) := by
  rw [firstName?_append]
  exact congrArg _ List.findSome?_singleton

/-- A deed that does not bind the closure does not change its first name. -/
theorem firstName?_append_of_eq_none {deed : Deed} (h : deed.nameFor? i = none) :
    (log ++ [deed] : Journal).firstName? i = log.firstName? i := by
  rw [firstName?_append_singleton, h, Option.or_none]

/-- The first name stays the first. -/
theorem firstName?_append_of_eq_some (h : log.firstName? i = some name) :
    (log ++ more).firstName? i = some name := by
  rw [firstName?_append, h, Option.some_or]

/-- The closure has been made, and it is known by the first name that it has been bound to. -/
structure Settled (log : Journal) (head : ClosureHead) (body : List Value) : Prop where
  made : .make { head with name := none } body ∈ log
  named : ∃ name, head.name = some name ∧ log.firstName? head.id = some name

/-- What is settled stays settled. -/
theorem Settled.append {head : ClosureHead} {body : List Value} (h : log.Settled head body)
    (more : Journal) : (log ++ more : Journal).Settled head body := by
  obtain ⟨name, hname, hfirst⟩ := h.named
  exact ⟨List.mem_append_left _ h.made, name, hname, firstName?_append_of_eq_some more hfirst⟩

end Journal

/-- The value is bound in some scope, or it is found within a value that is bound. -/
def Store.Contains (st : Store) (v : Value) : Prop :=
  ∃ s name b, st.binding? s name = some b ∧ Value.Occurs v b.held

/-! ### The law -/

/-- The deed may be done next. A closure is made from source text, with the next number and without
a name; what is bound is settled once it is bound. -/
def Deed.Follows (log : Journal) : Deed → Prop
  | make head body => head.name = none ∧ head.id = log.closures ∧
      (∀ name ∈ head.params, Text.IsAtom name) ∧ ∀ x ∈ body, TreeOf Text.IsAtom x
  | bind s name v => v.EveryProcedure (log ++ [.bind s name v] : Journal).Settled
  | _ => True

namespace Journal

/-- Every deed has followed what was done before it. -/
def Lawful (log : Journal) : Prop :=
  ∀ before deed after, log = before ++ deed :: after → Deed.Follows before deed

namespace Lawful

variable {log : Journal} {head : ClosureHead} {body : List Value}

theorem nil : Lawful [] :=
  fun _ _ _ heq => absurd heq.symm (by simp)

/-- A journal that is lawful stays so with one more deed that may follow it. -/
theorem snoc (h : log.Lawful) {deed : Deed} (hdeed : deed.Follows log) :
    Lawful (log ++ [deed]) := by
  intro before last after heq
  rcases List.eq_nil_or_concat after with rfl | ⟨front, final, rfl⟩
  · obtain ⟨rfl, hlast⟩ := List.append_inj' heq rfl
    obtain rfl := List.singleton_inj.1 hlast
    exact hdeed
  · rw [List.concat_eq_append, ← List.cons_append, ← List.append_assoc] at heq
    exact h before last front (List.append_inj_left' heq rfl)

/-- A lawful journal has been lawful at every time before. -/
theorem of_append {more : Journal} (h : Lawful (log ++ more)) : log.Lawful := by
  rintro before deed after rfl
  exact h before deed (after ++ more) (List.append_assoc ..)

/-- A journal is lawful from its first deed to its last. -/
@[elab_as_elim]
theorem induction {motive : ∀ log : Journal, log.Lawful → Prop} (nil : motive [] nil)
    (snoc : ∀ (log : Journal) (deed : Deed) (hlog : log.Lawful) (hdeed : deed.Follows log),
      motive log hlog → motive (log ++ [deed]) (hlog.snoc hdeed)) :
    ∀ (log : Journal) (h : log.Lawful), motive log h := by
  intro log
  induction log using List.reverseRecOn with
  | nil => exact fun _ => nil
  | append_singleton log deed ih =>
    intro h
    have hlog : Lawful log := of_append h
    exact snoc log deed hlog (h log deed [] rfl) (ih hlog)

/-- What is known of a closure that has been made. -/
theorem of_make (h : log.Lawful) (hmade : .make head body ∈ log) :
    head.name = none ∧ head.id < log.closures ∧ (∀ name ∈ head.params, Text.IsAtom name) ∧
      ∀ x ∈ body, TreeOf Text.IsAtom x := by
  obtain ⟨before, after, rfl⟩ := List.append_of_mem hmade
  obtain ⟨hname, hid, hsourced⟩ := h before _ after rfl
  refine ⟨hname, ?_, hsourced⟩
  have hmake : Journal.closures (before ++ [.make head body]) = Journal.closures before + 1 := by
    rw [closures, replay_append_singleton]
    rfl
  have hle : Journal.closures (before ++ [.make head body]) ≤
      Journal.closures (before ++ .make head body :: after) := by
    rw [List.append_cons before _ after]
    exact closures_le_append _ after
  omega

/-- A closure that has not been made yet has not been bound. -/
theorem firstName?_eq_none (h : log.Lawful) {i : Nat} (hi : log.closures ≤ i) :
    log.firstName? i = none := by
  induction log, h using Lawful.induction with
  | nil => rfl
  | snoc log deed hlog hdeed ih =>
    have hle := Nat.le_trans (closures_le_append log [deed]) hi
    refine (firstName?_append_of_eq_none ?_).trans (ih hle)
    cases deed with
    | bind s name v =>
      cases v with
      | closure head body =>
        obtain ⟨hmade, -⟩ := hdeed head body .refl
        have hbefore : .make { head with name := none } body ∈ log := by
          simpa using hmade
        have hlt := (hlog.of_make hbefore).2.1
        exact Deed.nameFor?_bind_of_ne (Nat.ne_of_lt (Nat.lt_of_lt_of_le hlt hle))
      | _ => rfl
    | _ => rfl

/-- All closures that scopes bind are settled. -/
theorem everyBinding (h : log.Lawful) :
    log.replay.EveryBinding fun _ v => v.EveryProcedure log.Settled := by
  induction log, h using Lawful.induction with
  | nil => exact .empty
  | snoc log deed hlog hdeed ih =>
    have hkept : log.replay.EveryBinding fun _ v =>
        v.EveryProcedure (log ++ [deed] : Journal).Settled :=
      fun s name b hb => (ih s name b hb).mono fun _ _ hsettled => hsettled.append [deed]
    rw [replay_append_singleton]
    cases deed with
    | root => exact hkept.addScope none
    | enter parent => exact hkept.addScope (some parent)
    | make head body => exact hkept.countClosure
    | bind s name v =>
      refine hkept.bind s ?_
      rw [Binding.held_hold]
      exact hdeed
    | release s => exact hkept.release s

/-- A closure that the store holds is known by its first name. -/
theorem settled_of_contains (h : log.Lawful)
    (hcontains : log.replay.Contains (.closure head body)) : log.Settled head body := by
  obtain ⟨s, name, b, hb, hocc⟩ := hcontains
  exact h.everyBinding s name b hb head body hocc

end Lawful

/-! ### Values that may be bound -/

section Held

variable {log : Journal} {floor ceiling : Nat} {v : Value}

/-- The value may be bound next. Either all closures within it are settled, or it is a closure
itself that has not been bound yet, and its number is from the given interval. -/
inductive Held (log : Journal) (floor ceiling : Nat) : Value → Prop where
  | settled {v : Value} : v.EveryProcedure log.Settled → Held log floor ceiling v
  | fresh {head : ClosureHead} {body : List Value} : .make head body ∈ log →
      log.firstName? head.id = none → floor ≤ head.id → head.id < ceiling →
      Held log floor ceiling (.closure head body)

/-- The values may be bound one after the other. Those that have not been bound yet are from
intervals one after the other, so no two of them are the same. -/
inductive Handed (log : Journal) : Nat → List Value → Prop where
  | nil (floor : Nat) : Handed log floor []
  | cons {floor mid : Nat} {v : Value} {vs : List Value} : floor ≤ mid →
      log.Held floor mid v → Handed log mid vs → Handed log floor (v :: vs)

/-- A value that is held between two numbers is held between wider ones. -/
theorem Held.widen (h : log.Held floor ceiling v) {floor' ceiling' : Nat}
    (hfloor : floor' ≤ floor) (hceiling : ceiling ≤ ceiling') : log.Held floor' ceiling' v := by
  cases h with
  | settled hsettled => exact .settled hsettled
  | fresh hmade hfirst hle hlt =>
    exact .fresh hmade hfirst (Nat.le_trans hfloor hle) (Nat.lt_of_lt_of_le hlt hceiling)

/-- The value may still be bound if nothing from the interval has been bound in the meantime. -/
theorem Held.append (h : log.Held floor ceiling v) {more : Journal}
    (hkept : ∀ i, floor ≤ i → i < ceiling → (log ++ more).firstName? i = log.firstName? i) :
    (log ++ more).Held floor ceiling v := by
  cases h with
  | settled hsettled => exact .settled (hsettled.mono fun _ _ hself => hself.append more)
  | fresh hmade hfirst hle hlt =>
    exact .fresh (List.mem_append_left _ hmade) ((hkept _ hle hlt).trans hfirst) hle hlt

/-- Values stay at hand as long as the closures without a name among them get none. -/
theorem Handed.append {vs : List Value} (h : log.Handed floor vs) {more : Journal}
    (hkept : ∀ i, floor ≤ i → (log ++ more).firstName? i = log.firstName? i) :
    (log ++ more).Handed floor vs := by
  induction h with
  | nil floor => exact .nil floor
  | cons hle hv _ ih =>
    exact .cons hle (hv.append fun i hi _ => hkept i hi)
      (ih fun i hi => hkept i (Nat.le_trans hle hi))

/-- A settled closure keeps its name. -/
theorem named_eq_self (h : v.EveryProcedure log.Settled) (name : String) : v.named name = v := by
  cases v with
  | closure head body =>
    obtain ⟨first, hfirst, -⟩ := (h head body .refl).named
    obtain ⟨_, params, scope, id⟩ := head
    obtain rfl : _ = some first := hfirst
    rfl
  | _ => rfl

namespace Lawful

variable (h : log.Lawful) (s : ScopeId) (name : String)
include h

/-- Binding a value that is held is lawful. It changes the first name of no closure but those in the
interval. -/
theorem bind (hv : log.Held floor ceiling v) :
    Lawful (log ++ [.bind s name (v.named name)]) ∧
      ∀ i, i < floor ∨ ceiling ≤ i →
        (log ++ [.bind s name (v.named name)] : Journal).firstName? i = log.firstName? i := by
  cases hv with
  | settled hsettled =>
    rw [named_eq_self hsettled]
    refine ⟨h.snoc (hsettled.mono fun _ _ hself => hself.append _), fun i _ => ?_⟩
    cases hi : log.firstName? i with
    | some first => exact firstName?_append_of_eq_some _ hi
    | none =>
      -- A settled closure has been bound before, so it is not the one with number `i`.
      refine (firstName?_append_of_eq_none ?_).trans hi
      cases v with
      | closure head body =>
        obtain ⟨first, -, hfirst⟩ := (hsettled head body .refl).named
        refine Deed.nameFor?_bind_of_ne fun hid => ?_
        rw [hid, hi] at hfirst
        cases hfirst
      | _ => rfl
  | @fresh head body hmade hfirst hle hlt =>
    obtain ⟨hname, -, -, hbody⟩ := h.of_make hmade
    obtain ⟨_, params, scope, id⟩ := head
    obtain rfl : _ = none := hname
    refine ⟨h.snoc ?_, fun i hi => ?_⟩
    · refine Value.everyProcedure_closure.2 ⟨?_, fun x hx => (hbody x hx).everyProcedure⟩
      refine ⟨List.mem_append_left _ hmade, name, rfl, ?_⟩
      rw [firstName?_append_singleton, hfirst, Option.none_or]
      exact Deed.nameFor?_bind_self
    · have hne : id ≠ i := by
        rintro rfl
        rcases hi with hi | hi
        · exact Nat.not_lt_of_le hle hi
        · exact Nat.not_lt_of_le hi hlt
      exact firstName?_append_of_eq_none (Deed.nameFor?_bind_of_ne hne)

/-- So is binding several values that have been handed over. -/
theorem bindAll (params : List String) {args : List Value} (hargs : log.Handed floor args) :
    Lawful (log ++ (params.zip args).map fun (name, v) => .bind s name (v.named name)) ∧
      ∀ i < floor, (log ++ (params.zip args).map fun (name, v) =>
        Deed.bind s name (v.named name) : Journal).firstName? i = log.firstName? i := by
  induction args generalizing log floor params with
  | nil => simpa using h
  | cons v args ih =>
    cases params with
    | nil => simpa using h
    | cons name params =>
      cases hargs with
      | cons hle hv hrest =>
        obtain ⟨hlawful, hkept⟩ := h.bind s name hv
        obtain ⟨hlawful', hkept'⟩ :=
          ih hlawful params (hrest.append fun i hi => hkept i (.inr hi))
        rw [List.zip_cons_cons, List.map_cons, List.append_cons]
        refine ⟨hlawful', fun i hi => ?_⟩
        rw [hkept' i (Nat.lt_of_lt_of_le hi hle), hkept i (.inl hi)]

end Lawful

end Held

end Journal

end AtomLisp
