import AtomLisp.Proofs.LawfulJournals

/-!
# Chronicles

Evaluation writes lawful journals. What carries the proof from step to step is which closures
without a name are at hand: an expression that is evaluated yields none that has been made before,
so the values of operands come from one interval of numbers after the other, and evaluating an
operand binds no closure from the intervals before it.

`Journal.Continues` says that a computation goes on with a journal lawfully, with the rule
`Journal.Continues.bind` for steps in order. Evaluation and programs do so (`Journal.goesOn_eval`,
`Journal.continues_run`); hence every session that programs leave has a lawful journal
(`Session.FromPrograms.exists_chronicle`).
-/

namespace AtomLisp

open Value (TreeOf)
open Eval

namespace Journal

variable {α β : Type}

/-- The journal is lawful, and it is that of the store of the session. -/
structure LeadsTo (log : Journal) (session : Session) : Prop where
  lawful : log.Lawful
  store_eq : session.store = log.replay

section LeadsTo

variable {log : Journal} {session : Session} (h : log.LeadsTo session)
include h

/-- The journal has recorded as many closures as have been made. -/
theorem LeadsTo.closures_eq : session.store.closures = log.closures :=
  congrArg Store.closures h.store_eq

/-- A closure that the store holds has been settled in the journal. -/
theorem LeadsTo.settled_of_contains {head : ClosureHead} {body : List Value}
    (hcontains : session.store.Contains (.closure head body)) : log.Settled head body := by
  rw [h.store_eq] at hcontains
  exact h.lawful.settled_of_contains hcontains

end LeadsTo

/-- The computation goes on with the journal lawfully, and it binds no closure that has a number
below `floor` and has not been bound before. `Q` is true of its value and of the journal then. -/
structure Continues (log : Journal) (session : Session) (floor : Nat) (Q : Journal → α → Prop)
    (j : Journaled α) : Prop where
  leads : LeadsTo (log ++ j.deeds session) (j.act.after session)
  kept (i : Nat) (h : i < floor) :
    (log ++ j.deeds session : Journal).firstName? i = log.firstName? i
  value (a : α) (h : j.act.outcome session = .ok a) : Q (log ++ j.deeds session) a

/-- The value may be bound next, and if it has not been bound yet, its number is not below
`floor`. -/
def Returns (floor : Nat) (log : Journal) (v : Value) : Prop :=
  log.Held floor log.closures v

namespace Continues

variable {log : Journal} {session : Session} {floor : Nat} {Q : Journal → α → Prop}
  {R : Journal → β → Prop}

/-- Less may be said of the result, and the floor may be lower. -/
theorem weaken {Q' : Journal → α → Prop} {j : Journaled α}
    (h : log.Continues session floor Q j) {floor' : Nat} (hle : floor' ≤ floor)
    (hQ : ∀ log' a, Q log' a → Q' log' a) :
    log.Continues session floor' Q' j :=
  ⟨h.leads, fun i hi => h.kept i (Nat.lt_of_lt_of_le hi hle), fun a ha => hQ _ a (h.value a ha)⟩

/-- What is returned from above a floor is returned from above a lower one. -/
theorem lower {j : Journaled Value} (h : log.Continues session floor (Returns floor) j)
    {floor' : Nat} (hle : floor' ≤ floor) : log.Continues session floor' (Returns floor') j :=
  h.weaken hle fun _ _ hv => hv.widen hle (Nat.le_refl _)

section Steps

variable (hlog : log.LeadsTo session)
include hlog

/-- What does nothing to the store is not written down. -/
theorem quiet {act : Eval α} (hstore : (act.after session).store = session.store)
    (hvalue : ∀ a, act.outcome session = .ok a → Q log a) :
    log.Continues session floor Q (Journaled.quiet act) := by
  have hdeeds : (log ++ (Journaled.quiet act).deeds session : Journal) = log :=
    List.append_nil log
  refine ⟨?_, fun i _ => ?_, fun a ha => ?_⟩
  · rw [hdeeds]
    exact ⟨hlog.lawful, hstore.trans hlog.store_eq⟩
  · rw [hdeeds]
  · rw [hdeeds]
    exact hvalue a ha

theorem pure {a : α} (h : Q log a) : log.Continues session floor Q (Pure.pure a) := by
  have hvalue : ∀ b, (Pure.pure a : Eval α).outcome session = .ok b → Q log b := by
    intro b hb
    obtain rfl := Except.ok.inj hb
    exact h
  exact quiet hlog rfl hvalue

theorem raise (reason : Fault) :
    log.Continues session floor Q (Journaled.quiet (Eval.raise reason)) :=
  quiet hlog rfl fun _ ha => nomatch ha

theorem ofExcept {checked : Except Fault α} (h : ∀ a, checked = .ok a → Q log a) :
    log.Continues session floor Q (Journaled.quiet (Eval.ofExcept checked)) := by
  cases checked with
  | ok a => exact pure hlog (h a rfl)
  | error reason => exact raise hlog reason

theorem emit (event : Event) :
    log.Continues session floor (fun _ _ => True) (Journaled.quiet (Eval.emit event)) :=
  quiet hlog rfl fun _ _ => trivial

theorem call (op : Builtin) (args : List Value) :
    log.Continues session floor (Returns floor) (Journaled.quiet (op.call args)) := by
  have hcall : Maintains (fun st => st = session.store) (fun v => v.EveryProcedure log.Settled)
    (op.call args) := Maintains.judgment.call Value.everyProcedure_atom op args
  obtain ⟨hstore, hvalue⟩ := hcall session rfl
  exact quiet hlog hstore fun v hv => .settled (hvalue v hv)

/-- What a name stands for is settled. -/
theorem lookup (s : ScopeId) (name : String) :
    log.Continues session floor (Returns floor) (Journaled.quiet (Eval.lookup s name)) := by
  refine quiet hlog rfl fun v hv => .settled ?_
  obtain rfl := Except.ok.inj hv
  rw [hlog.store_eq]
  exact Store.everyProcedure_lookup fun t _ b hb => hlog.lawful.everyBinding t name b hb

/-- A closure that is made has the next number. -/
theorem makeClosure {params : List String} (hparams : ∀ name ∈ params, Text.IsAtom name)
    {body : List Value} (hbody : ∀ x ∈ body, TreeOf Text.IsAtom x) (s : ScopeId) :
    log.Continues session log.closures (Returns log.closures)
      (Journaled.makeClosure params body s) := by
  let head : ClosureHead := { name := none, params, scope := s, id := session.store.closures }
  have hid : head.id = log.closures := hlog.closures_eq
  have hfirst : ∀ i, (log ++ [.make head body] : Journal).firstName? i = log.firstName? i :=
    fun i => firstName?_append_of_eq_none rfl
  have hclosures : Journal.closures (log ++ [.make head body]) = log.closures + 1 := by
    rw [closures, replay_append_singleton]
    rfl
  refine ⟨⟨hlog.lawful.snoc ⟨rfl, hid, hparams, hbody⟩, ?_⟩, fun i _ => hfirst i,
    fun v hv => ?_⟩
  · show session.store.countClosure = Journal.replay (log ++ [.make head body])
    rw [replay_append_singleton, hlog.store_eq]
    rfl
  · obtain rfl := Except.ok.inj hv
    refine .fresh (List.mem_append_right _ List.mem_cons_self) ?_ (Nat.le_of_eq hid.symm) ?_
    · exact (hfirst _).trans (hlog.lawful.firstName?_eq_none (Nat.le_of_eq hid.symm))
    · show head.id < Journal.closures (log ++ [.make head body])
      rw [hclosures, hid]
      exact Nat.lt_succ_self _

/-- Once it is bound, a value is settled. -/
theorem define {v : Value} {ceiling : Nat} (hv : log.Held floor ceiling v) (s : ScopeId)
    (name : String) :
    log.Continues session floor (Returns floor) (Journaled.define s name v) := by
  obtain ⟨hlawful, hkept⟩ := hlog.lawful.bind s name hv
  refine ⟨⟨hlawful, ?_⟩, fun i hi => hkept i (.inl hi), fun u hu => .settled ?_⟩
  · show session.store.define s name v =
      Journal.replay (log ++ [.bind s name (v.named name)])
    rw [replay_append_singleton, hlog.store_eq]
    rfl
  · obtain rfl := Except.ok.inj hu
    exact hlawful log _ [] rfl

/-- To open a scope binds the arguments, which nothing else has bound before. -/
theorem extend {args : List Value} (hargs : log.Handed floor args) (s : ScopeId)
    (params : List String) :
    log.Continues session floor (fun _ _ => True) (Journaled.extend s (params.zip args)) := by
  have hfirst : ∀ i, (log ++ [.enter s] : Journal).firstName? i = log.firstName? i :=
    fun i => firstName?_append_of_eq_none rfl
  have henter : Lawful (log ++ [.enter s]) := hlog.lawful.snoc trivial
  obtain ⟨hlawful, hkept⟩ :=
    henter.bindAll session.store.nextScope params (hargs.append fun i _ => hfirst i)
  rw [← List.append_cons] at hlawful hkept
  refine ⟨⟨hlawful, ?_⟩, fun i hi => (hkept i hi).trans (hfirst i), fun _ _ => trivial⟩
  show session.store.extend s (params.zip args) = Journal.replay (log ++ .enter s :: _)
  rw [List.append_cons, replay_append, replay_append_singleton, List.foldl_map, hlog.store_eq]
  rfl

end Steps

/-! ### Steps in order -/

/-- The second step goes on with the journal of the first, which names no closure below the
floor. -/
theorem bind {j : Journaled α} {next : α → Journaled β} (hj : log.Continues session floor Q j)
    (hnext : ∀ (more : Journal) t a, LeadsTo (log ++ more) t →
      (∀ i < floor, (log ++ more).firstName? i = log.firstName? i) → Q (log ++ more) a →
      (log ++ more).Continues t floor R (next a)) :
    log.Continues session floor R (j >>= next) := by
  have hact : (j >>= next).act = j.act >>= fun a => (next a).act := rfl
  cases hrun : j.act session with
  | ok a t =>
    have houtcome : j.act.outcome session = .ok a := by rw [outcome, hrun]
    have hafter : j.act.after session = t := by rw [after, hrun]
    have hleads := hj.leads
    rw [hafter] at hleads
    have hrest := hnext _ t a hleads hj.kept (hj.value a houtcome)
    have hdeeds : (j >>= next).deeds session = j.deeds session ++ (next a).deeds t :=
      Journaled.deeds_bind_of_ok hrun
    refine ⟨?_, fun i hi => ?_, fun b hb => ?_⟩
    · rw [hdeeds, hact, after_bind_of_ok houtcome, hafter, ← List.append_assoc]
      exact hrest.leads
    · rw [hdeeds, ← List.append_assoc]
      exact (hrest.kept i hi).trans (hj.kept i hi)
    · rw [hact, outcome_bind_of_ok houtcome, hafter] at hb
      rw [hdeeds, ← List.append_assoc]
      exact hrest.value b hb
  | error stop t =>
    have houtcome : j.act.outcome session = .error stop := by rw [outcome, hrun]
    have hdeeds : (j >>= next).deeds session = j.deeds session :=
      Journaled.deeds_bind_of_error hrun
    refine ⟨?_, fun i hi => ?_, fun b hb => ?_⟩
    · rw [hdeeds, hact, after_bind_of_error houtcome]
      exact hj.leads
    · rw [hdeeds]
      exact hj.kept i hi
    · rw [hact, outcome_bind_of_error houtcome] at hb
      cases hb

theorem within {j : Journaled α} (h : log.Continues session floor Q j) (form : Value) :
    log.Continues session floor Q (Journaled.within form j) := by
  refine ⟨?_, h.kept, fun a ha => h.value a (outcome_of_within ha)⟩
  show LeadsTo (log ++ j.deeds session) ((Eval.within form j.act).after session)
  rw [after_within]
  exact h.leads

end Continues

/-! ### Evaluation -/

/-- A closure that may be bound has been made. -/
theorem Held.made {log : Journal} (hlog : log.Lawful) {floor ceiling : Nat} {head : ClosureHead}
    {body : List Value} (h : log.Held floor ceiling (.closure head body)) :
    .make { head with name := none } body ∈ log := by
  cases h with
  | settled hsettled => exact (hsettled head body .refl).made
  | fresh hmade =>
    obtain ⟨hname, -⟩ := hlog.of_make hmade
    obtain ⟨_, params, scope, id⟩ := head
    obtain rfl : _ = none := hname
    exact hmade

/-- Evaluating source text goes on lawfully after every lawful journal. What it returns has been
made in the meantime if it has not been bound. -/
def GoesOn (ev : Evaluator Journaled) : Prop :=
  ∀ (log : Journal) session, log.LeadsTo session → ∀ x, TreeOf Text.IsAtom x → ∀ s,
    log.Continues session log.closures (Returns log.closures) (ev x s)

namespace GoesOn

variable {ev : Evaluator Journaled} (hev : GoesOn ev) {log : Journal} {session : Session}
include hev

/-- Of several values, only the last one is returned. -/
theorem foldlM (hlog : log.LeadsTo session) {exprs : List Value}
    (hexprs : ∀ x ∈ exprs, TreeOf Text.IsAtom x) (s : ScopeId) {floor : Nat}
    (hfloor : floor ≤ log.closures) {v : Value} (hv : log.Held floor log.closures v) :
    log.Continues session floor (Returns floor) (exprs.foldlM (fun _ x => ev x s) v) := by
  induction exprs generalizing log session v with
  | nil => exact .pure hlog hv
  | cons x exprs ih =>
    obtain ⟨hx, hrest⟩ := List.forall_mem_cons.1 hexprs
    rw [List.foldlM_cons]
    refine .bind ((hev log session hlog x hx s).lower hfloor) fun more t u hleads _ hu => ?_
    exact ih hleads hrest (Nat.le_trans hfloor (closures_le_append log more)) hu

/-- Expressions one after the other go on lawfully, and the last one returns the value. -/
theorem sequence (hlog : log.LeadsTo session) {exprs : List Value}
    (hexprs : ∀ x ∈ exprs, TreeOf Text.IsAtom x) (s : ScopeId) :
    log.Continues session log.closures (Returns log.closures) (ev.sequence exprs s) :=
  hev.foldlM hlog hexprs s (Nat.le_refl _) (.settled Value.everyProcedure_nil)

/-- The values of operands are handed over: each is from the time of its own evaluation, and no
later evaluation binds it. -/
theorem operands (hlog : log.LeadsTo session) {exprs : List Value}
    (hexprs : ∀ x ∈ exprs, TreeOf Text.IsAtom x) (s : ScopeId) :
    log.Continues session log.closures (fun log' vs => log'.Handed log.closures vs)
      (exprs.mapM fun x => ev x s) := by
  induction exprs generalizing log session with
  | nil => exact .pure hlog (.nil _)
  | cons x exprs ih =>
    obtain ⟨hx, hrest⟩ := List.forall_mem_cons.1 hexprs
    rw [List.mapM_cons]
    refine .bind (hev log session hlog x hx s) fun more t v hleads _ hv => ?_
    have hle : log.closures ≤ Journal.closures (log ++ more) := closures_le_append log more
    refine Continues.weaken ?_ hle fun _ _ h => h
    refine .bind (ih hleads hrest) fun more' t' vs hleads' hkept' hvs => .pure hleads' ?_
    -- The value was made before the other operands, and these bind nothing that old.
    exact .cons hle (hv.append fun i _ hi => hkept' i hi) hvs

/-- A closure is applied to arguments that are handed over. -/
theorem apply (hlog : log.LeadsTo session) {floor : Nat} (hfloor : floor ≤ log.closures)
    {procedure : Value} (hprocedure : ∀ head body, procedure = .closure head body →
      .make { head with name := none } body ∈ log) {args : List Value}
    (hargs : log.Handed floor args) :
    log.Continues session floor (Returns floor) (ev.apply procedure args) := by
  cases procedure with
  | atom text => exact .raise hlog _
  | list items => exact .raise hlog _
  | builtin op => exact .call hlog op args
  | closure head body =>
    obtain ⟨-, -, -, hbody⟩ := hlog.lawful.of_make (hprocedure head body rfl)
    rw [Evaluator.apply, Evaluator.applyClosure]
    split
    · refine .bind (.quiet (Q := fun log' _ => log'.Handed floor args) hlog rfl fun _ _ => hargs)
        fun more t _ hleads _ hargs' => ?_
      refine .bind (.extend hleads hargs' head.scope head.params) fun more' t' s hleads' _ _ => ?_
      have hle := Nat.le_trans (closures_le_append log more) (closures_le_append _ more')
      exact (hev.sequence hleads' hbody s).lower (Nat.le_trans hfloor hle)
    · exact .raise hlog _

/-- An application evaluates its items from the left and then binds what they yield. -/
theorem application (hlog : log.LeadsTo session) {items : List Value}
    (hitems : ∀ x ∈ items, TreeOf Text.IsAtom x) (s : ScopeId) :
    log.Continues session log.closures (Returns log.closures) (ev.application items s) := by
  cases items with
  | nil => exact .raise hlog _
  | cons operator exprs =>
    obtain ⟨hoperator, hexprs⟩ := List.forall_mem_cons.1 hitems
    refine .bind (hev log session hlog operator hoperator s)
      fun more t procedure hleads _ hheld => ?_
    have hle : log.closures ≤ Journal.closures (log ++ more) := closures_le_append log more
    have hrest := (hev.operands hleads hexprs s).weaken hle fun _ _ h => h
    refine .bind hrest fun more' t' args hleads' _ hargs => ?_
    -- The operands may have bound the procedure, but that it was made has been written down.
    refine Continues.lower (hev.apply hleads' (closures_le_append _ more') ?_ hargs) hle
    rintro head body rfl
    exact List.mem_append_left _ (hheld.made hleads.lawful)

/-- Each kind of form goes on lawfully if its parts do. -/
theorem form (hlog : log.LeadsTo session) {form : Form}
    (hparts : ∀ x ∈ form.parts, TreeOf Text.IsAtom x)
    (hnames : ∀ name ∈ form.names, Text.IsAtom name) (s : ScopeId) :
    log.Continues session log.closures (Returns log.closures) (ev.form s form) := by
  cases form with
  | lambda params body => exact .makeClosure hlog hnames hparts s
  | defineProcedure name params body =>
    obtain ⟨-, hparams⟩ := List.forall_mem_cons.1 hnames
    exact .bind (.makeClosure hlog hparams hparts s) fun more t v hleads _ hv =>
      .define hleads hv s name
  | defineValue name expr =>
    exact .bind (hev log session hlog expr (hparts expr List.mem_cons_self) s)
      fun more t v hleads _ hv => .define hleads hv s name
  | branch predicate consequent alternative =>
    refine .bind (hev log session hlog predicate (hparts predicate List.mem_cons_self) s)
      fun more t v hleads _ _ => ?_
    refine .bind (.ofExcept (Q := fun _ _ => True) hleads fun _ _ => trivial)
      fun more' t' b hleads' _ _ => ?_
    have hle := Nat.le_trans (closures_le_append log more) (closures_le_append _ more')
    cases b with
    | true =>
      have hconsequent := hparts consequent (by simp [Form.parts])
      exact (hev _ t' hleads' consequent hconsequent s).lower hle
    | false =>
      cases alternative with
      | none => exact .pure hleads' (.settled Value.everyProcedure_nil)
      | some expr =>
        have hexpr := hparts expr (by simp [Form.parts])
        exact (hev _ t' hleads' expr hexpr s).lower hle
  | quote datum =>
    exact .pure hlog (.settled (hparts datum List.mem_cons_self).everyProcedure)
  | expand expr => exact hev log session hlog expr (hparts expr List.mem_cons_self) s
  | sequence exprs => exact hev.sequence hlog hparts s
  | application items => exact (hev.application hlog hparts s).within _

theorem evalStep : GoesOn (evalStep ev) := by
  intro log session hlog x hx s
  cases hx with
  | atom _ => exact .lookup hlog s _
  | @list items hitems =>
    have hlist : TreeOf Text.IsAtom (.list items) := .list hitems
    refine .bind (.ofExcept (Q := fun _ form => Form.ofItems items = .ok form) hlog
      fun form hform => hform) fun more t form hleads _ hform => ?_
    have hparts := Form.forall_parts Value.hereditary_treeOf_isAtom hlist hform
    have hnames : ∀ name ∈ form.names, Text.IsAtom name :=
      fun name hname => hlist.of_mentions (Form.mentions_of_mem_names hform hname)
    exact (hev.form hleads hparts hnames s).lower (closures_le_append log more)

end GoesOn

/-- Evaluation goes on lawfully, to every depth. -/
theorem goesOn_eval (depth : Nat) : GoesOn (Journaled.eval depth) := by
  induction depth with
  | zero => exact fun log session hlog x _ s => .quiet hlog rfl fun _ hv => nomatch hv
  | succ depth ih => exact ih.evalStep

/-- So does a program, whatever its text is. -/
theorem continues_run {log : Journal} {session : Session} (hlog : log.LeadsTo session)
    (depth : Nat) (source : String) (s : ScopeId) :
    log.Continues session log.closures (Returns log.closures) (Journaled.run depth source s) := by
  -- A program is a sequence for the evaluator that announces each form.
  have hstep : GoesOn fun form s => Journaled.quiet (Eval.emit (.topLevelForm form.short)) >>=
      fun _ => Journaled.eval depth form s := by
    intro log session hlog form hform s
    refine .bind (.emit hlog _) fun more t _ hleads _ _ => ?_
    exact (goesOn_eval depth _ t hleads form hform s).lower (closures_le_append log more)
  exact hstep.sequence hlog (treeOf_of_mem_read source) s

end Journal

/-! ### Programs -/

namespace Session

/-- A session that has come of opening root scopes, running programs in scopes, and releasing
scopes, with the journal of all that. A program may fail; what it has done until then is in the
journal. -/
inductive Chronicle : Journal → Session → Prop where
  | start : Chronicle [] {}
  | root {log : Journal} {session : Session} : Chronicle log session →
      Chronicle (log ++ [.root]) (Eval.newRoot.after session)
  | run {log : Journal} {session : Session} (depth : Nat) (source : String) (s : ScopeId) :
      Chronicle log session → Chronicle (log ++ (Journaled.run depth source s).deeds session)
        ((AtomLisp.run depth source s).after session)
  | release {log : Journal} {session : Session} (s : ScopeId) : Chronicle log session →
      Chronicle (log ++ [.release s]) { session with store := session.store.release s }

open Journal

/-- Programs leave a lawful journal. -/
theorem Chronicle.leadsTo {log : Journal} {session : Session} (h : session.Chronicle log) :
    log.LeadsTo session := by
  induction h with
  | start => exact ⟨.nil, rfl⟩
  | @root log session _ ih =>
    refine ⟨ih.lawful.snoc trivial, ?_⟩
    rw [replay_append_singleton, ← ih.store_eq]
    rfl
  | @run log session depth source s _ ih =>
    have hleads := (continues_run ih depth source s).leads
    rwa [Journaled.act_run] at hleads
  | @release log session s _ ih =>
    refine ⟨ih.lawful.snoc trivial, ?_⟩
    rw [replay_append_singleton, ← ih.store_eq]
    rfl

/-- To load the library is to run its texts. -/
theorem Chronicle.exists_load {log : Journal} {session : Session} (h : Chronicle log session)
    (depth : Nat) (s : ScopeId) :
    ∃ log', Chronicle log' ((Library.load depth s).after session) := by
  have hprocedures := h.run depth Library.procedures s
  rw [Library.load]
  cases houtcome : (AtomLisp.run depth Library.procedures s).outcome session with
  | ok v =>
    have hchecks := hprocedures.run depth Library.checks s
    rw [after_bind_of_ok houtcome]
    generalize (AtomLisp.run depth Library.procedures s).after session = later at hchecks
    cases hrun : (AtomLisp.run depth Library.checks s).outcome later with
    | ok u =>
      rw [after_bind_of_ok hrun, after_pure]
      exact ⟨_, hchecks⟩
    | error stop =>
      rw [after_bind_of_error hrun]
      exact ⟨_, hchecks⟩
  | error stop =>
    rw [after_bind_of_error houtcome]
    exact ⟨_, hprocedures⟩

/-- There is a journal for everything that programs do. -/
theorem FromPrograms.exists_chronicle {session : Session} (h : session.FromPrograms) :
    ∃ log, Chronicle log session := by
  induction h with
  | refl => exact ⟨[], .start⟩
  | tail _ hstep ih =>
    obtain ⟨log, hlog⟩ := ih
    cases hstep with
    | root => exact ⟨_, hlog.root⟩
    | load depth s =>
      exact hlog.exists_load depth s
    | run depth source s => exact ⟨_, hlog.run depth source s⟩
    | release s => exact ⟨_, hlog.release s⟩

end Session

end AtomLisp
