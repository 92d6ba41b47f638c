import AtomLisp.Proofs.FormParts

/-!
# The names that an expression refers to

Evaluating an expression looks up no names other than its atoms, with one exception: clauses that
run out look up `#f`. The expansion of clauses writes two more atoms, but these head the lists that
it writes, where they are keywords and are not looked up.

So clauses stand for an expression over the names among which their atoms are (`Value.Over.ofCond`),
and the parts of a form are over the same names as the form (`Value.Over.parts`).
-/

namespace AtomLisp

namespace Value

variable {names : String → Prop}

/-- All atoms in the expression are among the names. The bodies of closures are left aside. -/
def AtomsIn (names : String → Prop) (x : Value) : Prop :=
  ∀ name, x.Mentions name → names name

/-- The atoms in a list are those in its elements. -/
@[simp] theorem atomsIn_list {items : List Value} :
    (list items).AtomsIn names ↔ ∀ x ∈ items, x.AtomsIn names := by
  constructor
  · intro h x hx name hm
    exact h name (.list hx hm)
  · rintro h name (_ | ⟨hx, hm⟩)
    exact h _ hx name hm

/-- An expression whose evaluation looks up some of the given names only: all its atoms are among
them, or it is what clauses with such atoms stand for. -/
inductive Over (names : String → Prop) : Value → Prop where
  | ofAtoms {x : Value} : x.AtomsIn names → Over names x
  | sequence {exprs : List Value} : (∀ x ∈ exprs, x.AtomsIn names) →
      Over names (Form.sequenceExpr exprs)
  | branch {predicate alternative : Value} {actions : List Value} : predicate.AtomsIn names →
      (∀ x ∈ actions, x.AtomsIn names) → Over names alternative →
      Over names (.list [.atom Keyword.branch.text, predicate, Form.sequenceExpr actions,
        alternative])

namespace Over

theorem of_atom {name : String} (h : Over names (.atom name)) : names name := by
  cases h with
  | ofAtoms h => exact h name .atom

/-- Clauses stand for an expression over the names among which their atoms are. -/
theorem ofCond (hfalse : names "#f") {clauses : List Value} {expr : Value}
    (h : ∀ x ∈ clauses, x.AtomsIn names) (heq : Form.ofCond clauses = .ok expr) :
    Over names expr := by
  fun_induction Form.ofCond clauses generalizing expr with
  | case1 =>
    obtain rfl := Except.ok.inj heq
    refine .ofAtoms fun name hm => ?_
    obtain rfl : "#f" = name := mentions_atom.1 hm
    exact hfalse
  | case2 predicate actions clauses helse =>
    obtain rfl := Except.ok.inj heq
    exact .sequence fun x hx => atomsIn_list.1 (h _ List.mem_cons_self) x (.tail _ hx)
  | case3 predicate actions clauses helse ih =>
    obtain ⟨alternative, hrest, heq⟩ := Fault.bind_eq_ok_iff.1 heq
    obtain rfl := Except.ok.inj heq
    have hclause := atomsIn_list.1 (h _ List.mem_cons_self)
    exact .branch (hclause predicate List.mem_cons_self) (fun x hx => hclause x (.tail _ hx))
      (ih (fun x hx => h x (.tail _ hx)) hrest)
  | case4 clause clauses hclause => cases heq

/-- The parts of a form are over the names that the form is over. -/
theorem parts (hfalse : names "#f") {items : List Value} {form : Form}
    (h : Over names (.list items)) (heq : Form.ofItems items = .ok form) :
    ∀ x ∈ form.parts, Over names x := by
  generalize hlist : Value.list items = whole at h
  cases h with
  | ofAtoms hatoms =>
    subst hlist
    exact Form.forall_parts_ofItems (fun _ => .ofAtoms)
      (fun _ hoperands => .ofAtoms (atomsIn_list.2 hoperands))
      (fun _ _ hclauses hexpr => ofCond hfalse hclauses hexpr) (atomsIn_list.1 hatoms) heq
  -- the two atoms that the expansion writes are keywords here, and not parts
  | sequence hexprs =>
    obtain rfl := list.inj hlist
    obtain rfl := Except.ok.inj heq
    exact fun x hx => .ofAtoms (hexprs x hx)
  | branch hpredicate hactions halternative =>
    obtain rfl := list.inj hlist
    obtain rfl := Except.ok.inj heq
    simp only [Form.parts, Option.toList, List.mem_cons, List.not_mem_nil, or_false,
      forall_eq_or_imp, forall_eq]
    exact ⟨.ofAtoms hpredicate, .sequence hactions, halternative⟩

end Over

end Value

end AtomLisp
