import AtomLisp.Proofs.Clauses
import AtomLisp.Proofs.Equality
import AtomLisp.Proofs.Hosts

/-!
# The identity of closures

A closure is equal to the copies of itself only, whatever names these have and wherever they have
been bound. To say which closures are copies of one another, the closures are recorded as they are
made: one for each evaluation of a form that makes one, in the order of these evaluations. If a host
makes a closure itself, that counts as an evaluation.

That every closure which occurs stems from a recorded one is a regime (`Host.account_iff_oversees`).
Under it, two closures are equal just when they stem from the same evaluation
(`Host.Account.same_iff`), and a form that makes a closure makes one that is not equal to any other
(`Host.Account.evaluate`); `closure_identity` says this of everything that a host does.
-/

namespace AtomLisp

/-! ### The record of closures -/

/-- The parameters and the body of the closure that a form makes. -/
def Form.closure? : Form → Option (List String × List Value)
  | .lambda params body => some (params, body)
  | .defineProcedure _ params body => some (params, body)
  | _ => none

/-- The expression is a form that makes a closure from these parameters and this body. -/
def Value.MakesClosure (x : Value) (params : List String) (body : List Value) : Prop :=
  ∃ items form, x = .list items ∧ Form.ofItems items = .ok form ∧
    form.closure? = some (params, body)

/-- The closures that have been made, each in the place of its number. -/
@[ext]
structure Record where
  made : List Value := []
  numbered (i : Nat) (v : Value) (h : made[i]? = some v) :
    ∃ params scope body, v = .closure { name := none, params, scope, id := i } body

namespace Record

instance : Preorder Record where
  le record record' := record.made <+: record'.made
  le_refl _ := List.prefix_rfl
  le_trans _ _ _ := List.IsPrefix.trans

/-- The record with one more closure. -/
def add (record : Record) (params : List String) (scope : ScopeId) (body : List Value) :
    Record where
  made := record.made ++
    [.closure { name := none, params, scope, id := record.made.length } body]
  numbered i v h := by
    by_cases hi : i < record.made.length
    · rw [List.getElem?_append_left hi] at h
      exact record.numbered i v h
    · have hlt := (List.getElem?_eq_some_iff.1 h).1
      rw [List.length_append, List.length_singleton] at hlt
      obtain rfl : i = record.made.length := by omega
      rw [List.getElem?_concat_length] at h
      exact ⟨params, scope, body, (Option.some.inj h).symm⟩

end Record

/-- The value is a copy of the `i`-th closure that was made, under some name or none. -/
def Value.StemsFrom (record : Record) (i : Nat) (v : Value) : Prop :=
  ∃ head body name,
    record.made[i]? = some (.closure head body) ∧ v = .closure { head with name } body

/-- The record is that of the closures made so far, and every closure that occurs stems from one of
them. -/
structure Host.Account (record : Record) (host : Host) : Prop where
  length_eq : record.made.length = host.session.store.closures
  stems (f : Value) (hocc : host.Occurs f) (hf : f.isClosure = true) : ∃ i, f.StemsFrom record i

/-- A closure that may occur is a copy of the recorded one that has its number. Nothing is ruled out
otherwise. -/
def Regime.identity : Regime Record where
  procedure record head body :=
    record.made[head.id]? = some (.closure { head with name := none } body)
  counts record n := record.made.length = n
  expression _ := True
  fault _ := True
  procedure_mono := by
    rintro _ _ head body ⟨more, hmore⟩ h
    rw [← hmore, List.getElem?_append_left (List.getElem?_eq_some_iff.1 h).1]
    exact h
  procedure_named _ h := h
  expression_body _ _ _ := trivial
  make := by
    rintro record n params scope body rfl _
    refine ⟨record.add params scope body, List.prefix_append _ _, ?_, ?_⟩
    · simp [Record.add]
    · simp [Record.add]
  expression_evaluated _ _ _ _ := trivial
  fault_ofItems _ _ := trivial
  fault_of_kind _ := trivial

/-! ### Copies -/

section Copies

variable {record : Record} {i : Nat} {head : ClosureHead} {body : List Value}

/-- A copy has the number of the closure that it stems from, and differs from it only in its
name. -/
theorem Value.stemsFrom_closure_iff : (Value.closure head body).StemsFrom record i ↔
    head.id = i ∧ record.made[i]? = some (.closure { head with name := none } body) := by
  constructor
  · rintro ⟨head', body', name, hmade, hcopy⟩
    obtain ⟨rfl, rfl⟩ := Value.closure.inj hcopy
    obtain ⟨params, scope, body, hnumbered⟩ := record.numbered i _ hmade
    obtain ⟨rfl, rfl⟩ := Value.closure.inj hnumbered
    exact ⟨rfl, hmade⟩
  · rintro ⟨-, hmade⟩
    exact ⟨_, body, head.name, hmade, rfl⟩

end Copies

namespace Host

variable {record : Record} {host : Host}

/-- To keep the record of all closures is to stay within a regime. -/
theorem account_iff_oversees : host.Account record ↔ Regime.identity.Oversees record host := by
  constructor
  · intro h
    have hprocedure : ∀ head body, host.Occurs (.closure head body) →
        Regime.identity.procedure record head body := by
      intro head body hocc
      obtain ⟨i, hstems⟩ := h.stems _ hocc rfl
      obtain ⟨rfl, hmade⟩ := Value.stemsFrom_closure_iff.1 hstems
      exact hmade
    refine ⟨⟨h.length_eq, fun s name b hb head body hocc => ?_⟩,
      fun v hv head body hocc => ?_⟩
    · exact hprocedure head body (.inr ⟨s, name, b, hb, hocc⟩)
    · exact hprocedure head body (.inl ⟨v, hv, hocc⟩)
  · intro h
    refine ⟨h.governs.counts, fun f hocc hf => ?_⟩
    cases f with
    | closure head body =>
      exact ⟨head.id, Value.stemsFrom_closure_iff.2 ⟨rfl, h.occurs hocc⟩⟩
    | _ => cases hf

namespace Account

/-- Whatever a host does, its record goes on. -/
theorem later (h : host.Account record) {later : Host} (hlater : Later host later) :
    ∃ record', record ≤ record' ∧ later.Account record' := by
  obtain ⟨record', hle, hoversees⟩ :=
    (account_iff_oversees.1 h).later (fun _ => trivial) hlater
  exact ⟨record', hle, account_iff_oversees.2 hoversees⟩

/-- A closure that occurs stems from one evaluation only. -/
theorem existsUnique_stems (h : host.Account record) {f : Value} (hocc : host.Occurs f)
    (hf : f.isClosure = true) : ∃! i, f.StemsFrom record i := by
  obtain ⟨i, hi⟩ := h.stems f hocc hf
  refine ⟨i, hi, fun j hj => ?_⟩
  cases f with
  | closure head body =>
    exact (Value.stemsFrom_closure_iff.1 hj).1.symm.trans (Value.stemsFrom_closure_iff.1 hi).1
  | _ => cases hf

/-- Two closures are equal just when they stem from the same evaluation. -/
theorem same_iff (h : host.Account record) {f g : Value} (hf : host.Occurs f)
    (hg : host.Occurs g) (hfc : f.isClosure = true) (hgc : g.isClosure = true) :
    Value.same f g = true ↔ ∃ i, f.StemsFrom record i ∧ g.StemsFrom record i := by
  cases f with
  | closure head body =>
    cases g with
    | closure head' body' =>
      obtain ⟨i, hi⟩ := h.stems _ hf rfl
      obtain ⟨j, hj⟩ := h.stems _ hg rfl
      have hid := (Value.stemsFrom_closure_iff.1 hi).1
      have hid' := (Value.stemsFrom_closure_iff.1 hj).1
      rw [Value.same, beq_iff_eq]
      constructor
      · intro heq
        obtain rfl : i = j := by omega
        exact ⟨i, hi, hj⟩
      · rintro ⟨k, hk, hk'⟩
        exact (Value.stemsFrom_closure_iff.1 hk).1.trans (Value.stemsFrom_closure_iff.1 hk').1.symm
    | _ => cases hgc
  | _ => cases hfc

/-- Equal closures can differ in their name only. -/
theorem eq_up_to_name (h : host.Account record) {f g : Value} (hf : host.Occurs f)
    (hg : host.Occurs g) (hfc : f.isClosure = true) (hgc : g.isClosure = true)
    (hsame : Value.same f g = true) :
    ∃ head body name, f = .closure head body ∧ g = .closure { head with name } body := by
  obtain ⟨i, hi, hj⟩ := (h.same_iff hf hg hfc hgc).1 hsame
  obtain ⟨head, body, name, hmade, rfl⟩ := hi
  obtain ⟨head', body', name', hmade', rfl⟩ := hj
  obtain ⟨rfl, rfl⟩ := Value.closure.inj (Option.some.inj (hmade.symm.trans hmade'))
  exact ⟨{ head with name }, body, name', rfl, rfl⟩

/-! ### Forms that make closures -/

/-- Evaluating a form that makes a closure has a closure with the next number as its value. -/
theorem outcome_of_makesClosure {x : Value} {params : List String} {body : List Value}
    (hx : x.MakesClosure params body) (depth : Nat) (scope : ScopeId) (session : Session) :
    (∃ name, (eval (depth + 1) x scope).outcome session =
      .ok (.closure { name, params, scope, id := session.store.closures } body)) ∧
    ((eval (depth + 1) x scope).after session).store.closures = session.store.closures + 1 := by
  obtain ⟨items, form, rfl, hform, hclosure⟩ := hx
  rw [eval_list_of_form hform]
  cases form with
  | lambda params' body' =>
    obtain ⟨rfl, rfl⟩ := Prod.mk.inj (Option.some.inj hclosure)
    exact ⟨⟨none, rfl⟩, rfl⟩
  | defineProcedure name params' body' =>
    obtain ⟨rfl, rfl⟩ := Prod.mk.inj (Option.some.inj hclosure)
    exact ⟨⟨some name, rfl⟩, rfl⟩
  | _ => cases hclosure

/-- A form that makes a closure adds one to the record. What it has as its value stems from this
evaluation, and is equal to nothing that was there before. -/
theorem evaluate (h : host.Account record) {x : Value} {params : List String} {body : List Value}
    (hx : x.MakesClosure params body) (hholds : host.Holds x) (depth : Nat) (scope : ScopeId) :
    ∃ f, (eval (depth + 1) x scope).outcome host.session = .ok f ∧ f.isClosure = true ∧
      (host.perform (eval (depth + 1) x scope)).Account (record.add params scope body) ∧
      f.StemsFrom (record.add params scope body) record.made.length ∧
      ∀ g, host.Occurs g → Value.same f g = false := by
  obtain ⟨⟨name, houtcome⟩, hclosures⟩ :=
    outcome_of_makesClosure hx depth scope host.session
  rw [← h.length_eq] at houtcome hclosures
  have hoversees := account_iff_oversees.1 h
  have hobeys : Regime.identity.Obeys record Regime.identity.Admits (eval (depth + 1) x scope) :=
    Regime.obeys_eval _ (depth + 1) record x scope ⟨trivial, hoversees.holds hholds⟩
  obtain ⟨record', ⟨more, hmore⟩, hoversees'⟩ := hoversees.perform hobeys
  have hlength : record'.made.length = record.made.length + 1 :=
    hoversees'.governs.counts.trans hclosures
  -- the value has been handed out, so the record has it under its number, which is the new one
  have hmem : .closure { name, params, scope, id := record.made.length } body ∈
      (host.perform (eval (depth + 1) x scope)).values := by
    rw [perform, Eval.handedOut, houtcome]
    exact List.mem_cons_self
  have hmade : record'.made[record.made.length]? =
      some (.closure { name := none, params, scope, id := record.made.length } body) :=
    hoversees'.occurs (.inl ⟨_, hmem, .refl⟩)
  have hrecord : record' = record.add params scope body := by
    rw [← hmore, List.length_append, Nat.add_left_cancel_iff, List.length_eq_one_iff] at hlength
    obtain ⟨c, rfl⟩ := hlength
    rw [← hmore, List.getElem?_concat_length] at hmade
    obtain rfl := Option.some.inj hmade
    exact Record.ext hmore.symm
  rw [hrecord] at hoversees' hmade
  refine ⟨_, houtcome, rfl, account_iff_oversees.2 hoversees', ?_, fun g hg => ?_⟩
  · exact Value.stemsFrom_closure_iff.2 ⟨rfl, hmade⟩
  · cases g with
    | closure head' body' =>
      obtain ⟨i, hi⟩ := h.stems _ hg rfl
      obtain ⟨hid, hmade'⟩ := Value.stemsFrom_closure_iff.1 hi
      have hlt := (List.getElem?_eq_some_iff.1 hmade').1
      rw [Value.same, beq_eq_false_iff_ne]
      show record.made.length ≠ head'.id
      omega
    | _ => rfl

end Account

/-- Two evaluations never make equal closures, be it from one form in one scope. -/
theorem evaluate_twice (hhost : host.Account record) {x y : Value} {params params' : List String}
    {body body' : List Value} (hx : x.MakesClosure params body) (hxholds : host.Holds x)
    (hy : y.MakesClosure params' body') {depth depth' : Nat} {scope scope' : ScopeId}
    {later : Host} (hlater : Later (host.perform (eval (depth + 1) x scope)) later)
    (hyholds : later.Holds y) {f g : Value}
    (hf : (eval (depth + 1) x scope).outcome host.session = .ok f)
    (hg : (eval (depth' + 1) y scope').outcome later.session = .ok g) :
    Value.same g f = false := by
  obtain ⟨f', hf', -, haccount, -⟩ := hhost.evaluate hx hxholds depth scope
  obtain ⟨record', -, haccount'⟩ := haccount.later hlater
  obtain ⟨g', hg', -, -, -, hfresh⟩ := haccount'.evaluate hy hyholds depth' scope'
  obtain rfl := Except.ok.inj (hg.symm.trans hg')
  -- the first closure has been handed out, and so it is still there
  have hmem : f ∈ (host.perform (eval (depth + 1) x scope)).values := by
    rw [perform, Eval.handedOut, hf]
    exact List.mem_cons_self
  exact hfresh f (.inl ⟨f, hlater.mem_values hmem, .refl⟩)

/-- Every state that a host gets to has a record of its closures. -/
theorem Reachable.exists_account (h : host.Reachable) : ∃ record, host.Account record := by
  let empty : Record := { numbered := fun i v hv => by cases hv }
  have hstart : Regime.identity.Oversees empty {} := by
    refine ⟨⟨rfl, ?_⟩, fun v hv => absurd hv List.not_mem_nil⟩
    exact Store.EveryBinding.empty (K := fun _ v => Regime.identity.Admits empty v)
  obtain ⟨record, -, haccount⟩ := (account_iff_oversees.2 hstart).later h
  exact ⟨record, haccount⟩

end Host

/-- **Equality and the identity of closures.** Equality, which the operation `eq?` yields, is an
equivalence, and equal lists are those of the same length with equal elements.

In every state that a host gets to, there is a record of the evaluations that have made closures,
which goes on whatever the host does. Every closure that occurs, in a list or in the body of another
one too, stems from exactly one of them; two are equal just when they stem from the same one, and
then differ in their name at most. A form that makes a closure adds one evaluation to the record,
with its own parameters and body and the scope that it is evaluated in. Its value stems from this
evaluation and is equal to nothing that has been there before. So two evaluations, of one form in
one scope too, have unequal values.

A value that is passed on by definitions, lookups, arguments and results, any number of times and
between any scopes, is equal to the one it was. -/
theorem closure_identity {host : Host} (h : host.Reachable) :
    ((Equivalence fun x y : Value => (x == y) = true) ∧
      (∀ xs ys, (Value.list xs == .list ys) = true ↔ xs.length = ys.length ∧
        ∀ (i : Nat) (hx : i < xs.length) (hy : i < ys.length), (xs[i] == ys[i]) = true) ∧
      ∀ x y session, (Builtin.isEq.call [x, y]).outcome session = .ok (.ofBool (x == y))) ∧
    (∃ record, host.Account record ∧
      (∀ later, Host.Later host later →
        ∃ record', record ≤ record' ∧ later.Account record') ∧
      (∀ f g, host.Occurs f → host.Occurs g → f.isClosure = true → g.isClosure = true →
        (∃! i, f.StemsFrom record i) ∧
        ((f == g) = true ↔ ∃ i, f.StemsFrom record i ∧ g.StemsFrom record i) ∧
        ((f == g) = true → ∃ head body name,
          f = .closure head body ∧ g = .closure { head with name } body)) ∧
      ∀ x params body depth scope, x.MakesClosure params body → host.Holds x →
        ∃ f, (eval (depth + 1) x scope).outcome host.session = .ok f ∧ f.isClosure = true ∧
          (host.perform (eval (depth + 1) x scope)).Account (record.add params scope body) ∧
          f.StemsFrom (record.add params scope body) record.made.length ∧
          ∀ g, host.Occurs g → (f == g) = false) ∧
    (∀ x y params params' body body' depth depth' scope scope' later f g,
      x.MakesClosure params body → host.Holds x →
      (eval (depth + 1) x scope).outcome host.session = .ok f →
      Host.Later (host.perform (eval (depth + 1) x scope)) later →
      y.MakesClosure params' body' → later.Holds y →
      (eval (depth' + 1) y scope').outcome later.session = .ok g → (g == f) = false) ∧
    ∀ v u, Relation.ReflTransGen Passes v u → (v == u) = true := by
  obtain ⟨record, haccount⟩ := h.exists_account
  refine ⟨⟨Value.equivalence_same, fun xs ys => Value.same_list_iff, fun x y session => rfl⟩,
    ⟨record, haccount, fun later hlater => haccount.later hlater, ?_, ?_⟩, ?_, ?_⟩
  · intro f g hf hg hfc hgc
    exact ⟨haccount.existsUnique_stems hf hfc, haccount.same_iff hf hg hfc hgc,
      haccount.eq_up_to_name hf hg hfc hgc⟩
  · intro x params body depth scope hx hholds
    exact haccount.evaluate hx hholds depth scope
  · intro x y params params' body body' depth depth' scope scope' later f g hx hxholds hf hlater hy
      hyholds hg
    exact Host.evaluate_twice haccount hx hxholds hy hlater hyholds hf hg
  · intro v u hpasses
    induction hpasses with
    | refl => exact same_self v
    | tail _ hstep ih => exact Value.same_trans ih hstep.same

/-- One `lambda` form, evaluated twice in one root scope, makes two closures that are not equal. -/
theorem closure_identity_of_repeated_lambda :
    ∃ (host : Host) (x f g : Value), host.Reachable ∧ x.MakesClosure [] [.atom "1"] ∧
      (eval 1 x 0).outcome host.session = .ok f ∧
      (eval 1 x 0).outcome ((eval 1 x 0).after host.session) = .ok g ∧ (g == f) = false := by
  let host : Host := { session := Eval.newRoot.after {} }
  let x : Value := .list [.atom "lambda", .list [], .atom "1"]
  have hreachable : host.Reachable := .single (.root {})
  have hx : x.MakesClosure [] [.atom "1"] := ⟨_, .lambda [] [.atom "1"], rfl, rfl, rfl⟩
  have hholds : ∀ host : Host, host.Holds x := fun host => by simp [x, Host.Holds]
  obtain ⟨-, -, htwice, -⟩ := closure_identity hreachable
  refine ⟨host, x, _, _, hreachable, hx, rfl, rfl, ?_⟩
  exact htwice x x [] [] _ _ 0 0 0 0 _ _ _ hx (hholds host) rfl .refl hx (hholds _) rfl

end AtomLisp
