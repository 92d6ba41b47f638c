import AtomLisp.Proofs.Shadowing

/-!
# The names that a scope lists, and what they stand for

A scope lists the names that it binds and then what the scope around it lists; a root adds the names
of the operations (`Store.keys_of_root`, `Store.keys_of_parent`). A lookup goes the same way and
stops at the first scope that has an answer. A binding that dangles is listed like any other one,
but a lookup passes over it.

Both follow the lineage of a scope: the scope itself, the scope around it and so on, up to a root.
`Store.Lineage.count_keys` says how often a name is listed, `Store.Lineage.lookup_cases` which
binding answers, and `listed_names_agree_with_lookups` that the list and the lookups agree.
-/

namespace AtomLisp

namespace Store

/-- The scopes from `s` up to its root: those on the way, and the root as the last one. -/
def Lineage (st : Store) (s : ScopeId) (scopes : List ScopeId) : Prop :=
  ∃ way root, st.Way s way root ∧ st.parent? root = none ∧ scopes = way ++ [root]

/-- Each of the scopes that binds the name at all has a dangling binding for it. -/
def AllDangle (st : Store) (scopes : List ScopeId) (name : String) : Prop :=
  ∀ s ∈ scopes, ∀ b, st.binding? s name = some b → st.Dangles b

variable {st : Store} {s parent : ScopeId} {scopes : List ScopeId} {name : String}

/-! ### Dangling bindings -/

/-- A scope has no answer for a name if and only if it does not bind it or the binding dangles. -/
theorem answer?_eq_none_iff :
    st.answer? s name = none ↔ ∀ b, st.binding? s name = some b → st.Dangles b := by
  rw [answer?, Option.bind_eq_none_iff]
  refine forall₂_congr fun b _ => ⟨fun hnone => ?_, resolve_of_dangles st⟩
  by_contra hkept
  rw [resolve_of_not_dangles st hkept] at hnone
  cases hnone

/-- What a scope answers is the value of a binding that does not dangle. -/
theorem exists_binding_of_answer? {v : Value} (h : st.answer? s name = some v) :
    ∃ b, st.binding? s name = some b ∧ ¬ st.Dangles b ∧ b.held = v := by
  obtain ⟨b, hb, hresolve⟩ := Option.bind_eq_some_iff.1 h
  exact ⟨b, hb, (resolve_eq_some_iff st v).1 hresolve⟩

theorem allDangle_nil : st.AllDangle [] name :=
  fun _ hs => absurd hs List.not_mem_nil

/-- A name dangles in a lineage if it does in the first scope and in the others. -/
theorem allDangle_cons_iff :
    st.AllDangle (s :: scopes) name ↔ st.answer? s name = none ∧ st.AllDangle scopes name := by
  rw [answer?_eq_none_iff]
  exact List.forall_mem_cons

/-- Where no scope binds the name, there is no binding of it that would not dangle. -/
theorem allDangle_of_not_bound (h : ∀ t ∈ scopes, ¬ st.isBound t name = true) :
    st.AllDangle scopes name :=
  fun t ht b hb => absurd ((isBound_iff st t name).2 ⟨b, hb⟩) (h t ht)

/-! ### What is listed -/

/-- A root lists its own names and those of the operations. -/
theorem keys_of_root (h : st.parent? s = none) : st.keys s = st.scopeKeys s ++ Builtin.names := by
  rw [keys, chain_of_root h, List.flatMap_singleton]

/-- Any other scope lists its own names before those that its parent lists. -/
theorem keys_of_parent (h : st.parent? s = some parent) (hlt : parent < s) :
    st.keys s = st.scopeKeys s ++ st.keys parent := by
  rw [keys, chain_of_parent h hlt, List.flatMap_cons, List.append_assoc, keys]

/-- A scope lists a name once if it binds it. -/
theorem count_scopeKeys (st : Store) (s : ScopeId) (name : String) :
    (st.scopeKeys s).count name = if st.isBound s name = true then 1 else 0 := by
  rw [(nodup_scopeKeys st s).count]
  simp only [mem_scopeKeys_iff]

namespace Lineage

variable (hst : ∀ s parent, st.parent? s = some parent → parent < s)
include hst

/-- Where parents are older, every scope has a lineage. -/
theorem exists_of_parent_lt (s : ScopeId) : ∃ scopes, st.Lineage s scopes := by
  obtain ⟨-, root, hlast, hroot⟩ := chain_isChain st hst s
  obtain ⟨way, hchain⟩ := List.getLast?_eq_some_iff.1 hlast
  exact ⟨way ++ [root], way, root, way_of_chain hst hchain, hroot, rfl⟩

/-- A name is listed once for each scope that binds it, and once more if it is that of an
operation. -/
theorem count_keys (h : st.Lineage s scopes) (name : String) :
    (st.keys s).count name = scopes.countP (fun t => st.isBound t name) +
      if name ∈ Builtin.names then 1 else 0 := by
  obtain ⟨way, root, hway, hroot, rfl⟩ := h
  induction hway with
  | here root =>
    rw [keys_of_root hroot, List.count_append, count_scopeKeys, Builtin.nodup_names.count,
      List.nil_append, List.countP_singleton]
  | @up s parent root way hparent _ ih =>
    rw [keys_of_parent hparent (hst s parent hparent), List.count_append, count_scopeKeys, ih hroot,
      List.cons_append, List.countP_cons]
    omega

/-- The first binding of the lineage that does not dangle answers. If there is none, the name stands
for what it stands for unbound. -/
theorem lookup_cases (h : st.Lineage s scopes) (name : String) :
    (∃ front t rest b, scopes = front ++ t :: rest ∧ st.AllDangle front name ∧
      st.binding? t name = some b ∧ ¬ st.Dangles b ∧ st.lookup s name = b.held) ∨
    (st.AllDangle scopes name ∧ st.lookup s name = unbound name) := by
  obtain ⟨way, root, hway, hroot, rfl⟩ := h
  induction hway with
  | here root =>
    rw [lookup_of_root hroot, List.nil_append]
    cases hanswer : st.answer? root name with
    | none => exact .inr ⟨allDangle_cons_iff.2 ⟨hanswer, allDangle_nil⟩, rfl⟩
    | some v =>
      obtain ⟨b, hb, hkept, rfl⟩ := exists_binding_of_answer? hanswer
      exact .inl ⟨[], root, [], b, rfl, allDangle_nil, hb, hkept, rfl⟩
  | @up s parent root way hparent _ ih =>
    rw [lookup_of_parent hparent (hst s parent hparent), List.cons_append]
    cases hanswer : st.answer? s name with
    | some v =>
      obtain ⟨b, hb, hkept, rfl⟩ := exists_binding_of_answer? hanswer
      exact .inl ⟨[], s, way ++ [root], b, rfl, allDangle_nil, hb, hkept, rfl⟩
    | none =>
      -- the scope is passed over, so what answers for its parent answers here
      rcases ih hroot with
        ⟨front, t, rest, b, hsplit, hfront, hb, hkept, hlookup⟩ | ⟨hrest, hlookup⟩
      · have hfront' := allDangle_cons_iff.2 ⟨hanswer, hfront⟩
        refine .inl ⟨s :: front, t, rest, b, ?_, hfront', hb, hkept, hlookup⟩
        rw [hsplit, List.cons_append]
      · exact .inr ⟨allDangle_cons_iff.2 ⟨hanswer, hrest⟩, hlookup⟩

/-- A name that only dangles is looked up as if it were not bound. -/
theorem lookup_of_allDangle (h : st.Lineage s scopes) (hall : st.AllDangle scopes name) :
    st.lookup s name = unbound name := by
  rcases h.lookup_cases hst name with
    ⟨front, t, rest, b, rfl, -, hb, hkept, -⟩ | ⟨-, hlookup⟩
  · exact absurd (hall t (List.mem_append_right front List.mem_cons_self) b hb) hkept
  · exact hlookup

end Lineage

end Store

open Store

/-- **The list and the lookups of a scope agree.** Let parents be older than their children. Then
each scope has a lineage, which ends in a root. A name is listed once for each scope of the lineage
that binds it, be the binding dangling or not, and once more if it is the name of an operation. A
name that is not listed stands for itself. A name that is listed stands for the value of the first
binding in the lineage that does not dangle; if all of them dangle, for the operation of that name;
and only if there is no such operation either, for itself. -/
theorem listed_names_agree_with_lookups {st : Store}
    (hst : ∀ s parent, st.parent? s = some parent → parent < s) (s : ScopeId) :
    (∃ scopes, st.Lineage s scopes) ∧
    ∀ scopes name, st.Lineage s scopes →
      (st.keys s).count name = scopes.countP (fun t => st.isBound t name) +
        (if name ∈ Builtin.names then 1 else 0) ∧
      (name ∉ st.keys s → st.lookup s name = .atom name) ∧
      (name ∈ st.keys s →
        (∃ front t rest b, scopes = front ++ t :: rest ∧ st.AllDangle front name ∧
          st.binding? t name = some b ∧ ¬ st.Dangles b ∧ st.lookup s name = b.held) ∨
        (st.AllDangle scopes name ∧
          ∃ op : Builtin, op.name = name ∧ st.lookup s name = .builtin op) ∨
        (st.AllDangle scopes name ∧ name ∉ Builtin.names ∧
          st.lookup s name = .atom name)) := by
  refine ⟨Lineage.exists_of_parent_lt hst s, fun scopes name hlineage => ?_⟩
  have hcount := hlineage.count_keys hst name
  refine ⟨hcount, fun hunlisted => ?_, fun _ => ?_⟩
  · rw [List.count_eq_zero.2 hunlisted] at hcount
    have hunbound : scopes.countP (fun t => st.isBound t name) = 0 := by omega
    have hname : name ∉ Builtin.names := fun hmem => by
      rw [if_pos hmem] at hcount
      omega
    have hall := allDangle_of_not_bound (List.countP_eq_zero.1 hunbound)
    rw [hlineage.lookup_of_allDangle hst hall, unbound_of_notMem_names hname]
  · refine (hlineage.lookup_cases hst name).imp_right fun ⟨hall, hlookup⟩ => ?_
    cases hop : Builtin.ofName? name with
    | some op =>
      have hname := Builtin.ofName?_eq_some_iff.1 hop
      exact .inl ⟨hall, op, hname, hlookup.trans (unbound_of_name_eq hname)⟩
    | none =>
      have hname := Builtin.ofName?_eq_none_iff.1 hop
      exact .inr ⟨hall, hname, hlookup.trans (unbound_of_notMem_names hname)⟩

/-- A root binds the name of an operation to an atom, and a scope inside it has a dangling binding
of this name. The name is listed three times, and stands for the atom. -/
theorem listing_of_dangling_binding :
    ∃ st : Store, (∀ s parent, st.parent? s = some parent → parent < s) ∧
      st.Lineage 1 [1, 0] ∧
      (st.keys 1).count "quit" = 3 ∧ st.lookup 1 "quit" = .atom "2" ∧
      "z" ∉ st.keys 1 ∧ st.lookup 1 "z" = .atom "z" := by
  let gone : Binding := .weak { name := none, params := [], scope := 2, id := 0 } []
  let family : Store := ((Store.addScope {} none).addScope (some 0)).addScope (some 0)
  let st : Store := ((family.define 0 "quit" (.atom "2")).bind 1 "quit" gone).release 2
  have hparent : ∀ s, st.parent? s = family.parent? s := fun s => by
    simp only [st, parent?_release, parent?_bind, parent?_define]
  have hst : ∀ s parent, st.parent? s = some parent → parent < s := by
    intro s parent h
    rw [hparent] at h
    match s with
    | 0 => cases h
    | 1 => cases h; exact Nat.zero_lt_one
    | 2 => cases h; exact Nat.zero_lt_two
    | s + 3 =>
      rw [parent?_of_nextScope_le _ _ (Nat.le_add_left 3 s)] at h
      cases h
  have hlineage : st.Lineage 1 [1, 0] := ⟨[1], 0, .up (hparent 1) (.here 0), hparent 0, rfl⟩
  obtain ⟨-, hagree⟩ := listed_names_agree_with_lookups hst 1
  obtain ⟨hcount, -, hlookup⟩ := hagree _ "quit" hlineage
  obtain ⟨hcountFree, hlookupFree, -⟩ := hagree _ "z" hlineage
  have hthree : (st.keys 1).count "quit" = 3 := hcount.trans (by decide)
  have hfree : "z" ∉ st.keys 1 := List.count_eq_zero.1 (hcountFree.trans (by decide))
  have hkept : ¬ st.AllDangle [1, 0] "quit" := fun hall =>
    hall 0 (by decide) (.value (.atom "2")) rfl
  refine ⟨st, hst, hlineage, hthree, ?_, hfree, hlookupFree hfree⟩
  have hlisted : "quit" ∈ st.keys 1 := List.count_pos_iff.1 (by rw [hthree]; exact Nat.succ_pos 2)
  rcases hlookup hlisted with ⟨front, t, rest, b, hscopes, -, hb, hdangles, hanswer⟩ | h | h
  · have ht : t ∈ [1, 0] := hscopes ▸ List.mem_append_right front List.mem_cons_self
    rcases List.mem_pair.1 ht with rfl | rfl
    · obtain rfl : gone = b := Option.some.inj hb
      exact absurd rfl hdangles
    · obtain rfl : Binding.value (.atom "2") = b := Option.some.inj hb
      exact hanswer
  · exact absurd h.1 hkept
  · exact absurd h.1 hkept

end AtomLisp
