import AtomLisp.Proofs.Chronicles

/-!
# A procedure has one name

To bind a closure without a name is to make a copy of it that has one, so it might come about that
copies of one closure have different names. It does not: at every time, all that is known of a
closure by name is the name that it was bound to first, and this can be read off the journal of the
programs that have been run. `procedures_keep_first_name` is about closures that are bound and about
those that programs return.
-/

namespace AtomLisp

/-- The name of a closure, if it has one. -/
def Value.name? : Value → Option String
  | closure head _ => head.name
  | _ => none

namespace Journal

variable {log : Journal}

/-- A closure that is bound has the name of its first binding, which may be this one. -/
theorem Lawful.name_of_bind (h : log.Lawful) {before after : Journal} {s : ScopeId} {name : String}
    {head : ClosureHead} {body : List Value}
    (heq : log = before ++ .bind s name (.closure head body) :: after) :
    head.name = some ((before.firstName? head.id).getD name) := by
  obtain ⟨first, hname, hfirst⟩ := (h before _ after heq head body .refl).named
  rw [firstName?_append_singleton, Deed.nameFor?_bind_self, Option.or_some] at hfirst
  rw [hname, ← hfirst]

/-- A closure at hand has the name that it was bound to first, or none as long as it has not been
bound. -/
theorem Held.everyProcedure_name (hlog : log.Lawful) {floor ceiling : Nat} {v : Value}
    (h : log.Held floor ceiling v) :
    v.EveryProcedure fun head _ => head.name = log.firstName? head.id := by
  cases h with
  | settled hsettled =>
    refine hsettled.mono fun head body hself => ?_
    obtain ⟨name, hname, hfirst⟩ := hself.named
    rw [hname, hfirst]
  | fresh hmade hfirst _ _ =>
    obtain ⟨hname, -, -, hbody⟩ := hlog.of_make hmade
    refine Value.everyProcedure_closure.2 ⟨?_, fun x hx => (hbody x hx).everyProcedure⟩
    rw [hname, hfirst]

end Journal

/-- The value, if it is a closure, has the first name that the journal tells. -/
def Value.HasFirstName (log : Journal) (v : Value) : Prop :=
  ∀ head body, v = .closure head body → head.name = log.firstName? head.id

/-- Every closure that is bound has its first name. -/
theorem Journal.LeadsTo.hasFirstName {log : Journal} {session : Session} (h : log.LeadsTo session)
    {f : Value} (hf : session.store.Contains f) : f.HasFirstName log := by
  rintro head body rfl
  obtain ⟨name, hname, hfirst⟩ := (h.settled_of_contains hf).named
  exact hname.trans hfirst.symm

/-- Equal closures have the same name if both have the first one. -/
theorem Value.HasFirstName.name?_eq {log : Journal} {f g : Value} (hf : f.HasFirstName log)
    (hg : g.HasFirstName log) (hclosure : f.isClosure = true) (hsame : (f == g) = true) :
    f.name? = g.name? := by
  cases f with
  | closure head body =>
    cases g with
    | closure head' body' =>
      have hid : head.id = head'.id := beq_iff_eq.1 hsame
      rw [name?, name?, hf head body rfl, hg head' body' rfl, hid]
    | _ => cases hsame
  | _ => cases hclosure

open Journal

/-- **A procedure has one name.** Let some programs have been run in root scopes and in the scopes
inside them, with the library or without it, where programs may have failed. There is a journal of
all that they have done to the store, and replaying it yields the store. Whenever a closure was
bound, by a definition or as an argument, it had the name of its first binding from then on. So
every closure that is bound in any scope has a name, which is the one that it was bound to first,
and equal closures have the same name. If another program is run, the journal goes on, no first name
changes, and a closure that is returned has the name that it was bound to first, or has none and has
never been bound. So it has the same name as any closure that is bound and equal to it. -/
theorem procedures_keep_first_name {session : Session} (h : session.FromPrograms) :
    (∃ log, session.Chronicle log) ∧ ∀ log, session.Chronicle log →
      session.store = log.replay ∧
      (∀ (before after : Journal) s name head body,
        log = before ++ .bind s name (.closure head body) :: after →
        head.name = some ((before.firstName? head.id).getD name)) ∧
      (∀ head body, session.store.Contains (.closure head body) →
        ∃ name, head.name = some name ∧ log.firstName? head.id = some name) ∧
      (∀ f g, session.store.Contains f → session.store.Contains g → f.isClosure = true →
        (f == g) = true → f.name? = g.name?) ∧
      ∀ depth source s,
        let log' : Journal := log ++ (Journaled.run depth source s).deeds session
        let later := (run depth source s).after session
        later.Chronicle log' ∧
        (∀ i name, log.firstName? i = some name → log'.firstName? i = some name) ∧
        ∀ v, (run depth source s).outcome session = .ok v →
          (∀ head body, Value.Occurs (.closure head body) v →
            head.name = log'.firstName? head.id) ∧
          ∀ f g, Value.Occurs f v → later.store.Contains g → f.isClosure = true →
            (f == g) = true → f.name? = g.name? := by
  refine ⟨h.exists_chronicle, fun log hlog => ?_⟩
  have hleads := hlog.leadsTo
  refine ⟨hleads.store_eq,
    fun before after s name head body heq => hleads.lawful.name_of_bind heq,
    fun head body hf => ?_, fun f g hf hg => ?_, fun depth source s => ?_⟩
  · exact (hleads.settled_of_contains hf).named
  · exact (hleads.hasFirstName hf).name?_eq (hleads.hasFirstName hg)
  · have hlater := hlog.run depth source s
    refine ⟨hlater, fun i name => firstName?_append_of_eq_some _, fun v hv => ?_⟩
    rw [← Journaled.act_run] at hv
    have hnames := ((continues_run hleads depth source s).value v hv).everyProcedure_name
      hlater.leadsTo.lawful
    refine ⟨hnames, fun f g hf hg => ?_⟩
    have hfirst : f.HasFirstName _ := fun head body heq => hnames head body (heq ▸ hf)
    exact hfirst.name?_eq (hlater.leadsTo.hasFirstName hg)

/-- The binding that has named a procedure is replaced, and the other binding of it keeps the
name. -/
theorem first_name_of_replaced_binding :
    ∃ (session : Session) (head : ClosureHead) (body : List Value), session.FromPrograms ∧
      session.store.binding? 0 "f" = some (.value (.atom "1")) ∧
      session.store.binding? 0 "g" = some (.weak head body) ∧ head.name = some "f" ∧
      ∀ log, session.Chronicle log → log.firstName? head.id = some "f" := by
  have hroot : Session.FromPrograms (Eval.newRoot.after {}) := .single (.root {})
  have hsession := hroot.tail (.run _ 4 "(define f (lambda (x) x)) (define g f) (define f 1)" 0)
  have hread : read "(define f (lambda (x) x)) (define g f) (define f 1)" =
      [.list [.atom "define", .atom "f", .list [.atom "lambda", .list [.atom "x"], .atom "x"]],
        .list [.atom "define", .atom "g", .atom "f"],
        .list [.atom "define", .atom "f", .atom "1"]] := rfl
  have hf : ((run 4 "(define f (lambda (x) x)) (define g f) (define f 1)" 0).after
      (Eval.newRoot.after {})).store.binding? 0 "f" = some (.value (.atom "1")) := by
    rw [run, hread]
    with_unfolding_all rfl
  have hg : ((run 4 "(define f (lambda (x) x)) (define g f) (define f 1)" 0).after
      (Eval.newRoot.after {})).store.binding? 0 "g" =
        some (.weak { name := some "f", params := ["x"], scope := 0, id := 0 } [.atom "x"]) := by
    rw [run, hread]
    with_unfolding_all rfl
  refine ⟨_, _, _, hsession, hf, hg, rfl, fun log hlog => ?_⟩
  obtain ⟨-, -, hbound, -⟩ := (procedures_keep_first_name hsession).2 log hlog
  obtain ⟨name, hname, hfirst⟩ := hbound _ _ ⟨0, "g", _, hg, .refl⟩
  obtain rfl := Option.some.inj hname
  exact hfirst

end AtomLisp
