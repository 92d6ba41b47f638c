import AtomLisp.Proofs.Frame
import AtomLisp.Proofs.Reading
import AtomLisp.Proofs.TokensOfText

/-!
# What a program leaves in its scope

A program changes the scope it is run in by its definitions only. The scope keeps its place and its
life (`run_sameTree`), and a program that consists of definitions binds no names but those that they
define (`run_bindsOnly`). So loading the library binds only its nine names.
-/

namespace AtomLisp

namespace Store

/-- Every scope of the first store has the same parent in the second one, and is live there if it
was. -/
structure SameTree (st st' : Store) : Prop where
  nextScope_le : st.nextScope ≤ st'.nextScope
  parent_eq (s : ScopeId) (hs : s < st.nextScope) : st'.parent? s = st.parent? s
  isLive_eq (s : ScopeId) (hs : s < st.nextScope) : st'.isLive s = st.isLive s

/-- Scope `s` of the first store binds in the second one what it bound, except for some names. -/
structure BindsOnly (s : ScopeId) (names : List String) (st st' : Store) : Prop where
  nextScope_le : st.nextScope ≤ st'.nextScope
  binding_eq (hs : s < st.nextScope) (name : String) (hname : name ∉ names) :
    st'.binding? s name = st.binding? s name

namespace SameTree

theorem trans (st₁ st₂ st₃ : Store) (h₁ : SameTree st₁ st₂)
    (h₂ : SameTree st₂ st₃) : SameTree st₁ st₃ where
  nextScope_le := Nat.le_trans h₁.nextScope_le h₂.nextScope_le
  parent_eq s hs := by
    rw [h₂.parent_eq s (Nat.lt_of_lt_of_le hs h₁.nextScope_le), h₁.parent_eq s hs]
  isLive_eq s hs := by
    rw [h₂.isLive_eq s (Nat.lt_of_lt_of_le hs h₁.nextScope_le), h₁.isLive_eq s hs]

theorem of_untouched (st st' : Store) (h : Untouched st st') : SameTree st st' :=
  ⟨h.nextScope_le, fun _ hs => h.parent?_eq hs, fun _ hs => h.isLive_eq hs⟩

theorem refl (st : Store) : SameTree st st :=
  of_untouched st st (.refl st)

theorem define (s : ScopeId) (st : Store) (name : String) (v : Value) :
    SameTree st (st.define s name v) :=
  ⟨Nat.le_of_eq (nextScope_define ..).symm, fun _ _ => parent?_define ..,
    fun _ _ => isLive_define ..⟩

end SameTree

namespace BindsOnly

variable {s : ScopeId} {names : List String}

theorem trans (st₁ st₂ st₃ : Store) (h₁ : BindsOnly s names st₁ st₂)
    (h₂ : BindsOnly s names st₂ st₃) : BindsOnly s names st₁ st₃ where
  nextScope_le := Nat.le_trans h₁.nextScope_le h₂.nextScope_le
  binding_eq hs name hname := by
    rw [h₂.binding_eq (Nat.lt_of_lt_of_le hs h₁.nextScope_le) name hname,
      h₁.binding_eq hs name hname]

theorem of_untouched (st st' : Store) (h : Untouched st st') : BindsOnly s names st st' :=
  ⟨h.nextScope_le, fun hs name _ => h.binding?_eq hs name⟩

theorem refl (st : Store) : BindsOnly s names st st :=
  of_untouched st st (.refl st)

theorem define {name : String} (hname : name ∈ names) (st : Store) (v : Value) :
    BindsOnly s names st (st.define s name v) where
  nextScope_le := Nat.le_of_eq (nextScope_define ..).symm
  binding_eq _ key hkey := by
    have hne : key ≠ name := fun heq => hkey (heq ▸ hname)
    rw [binding?_define, if_neg fun h => hne h.2.2]

end BindsOnly

end Store

open Store Eval

/-! ### The tree of scopes -/

/-- Running a program keeps the tree of scopes. -/
theorem run_sameTree (depth : Nat) (source : String) (s : ScopeId) :
    (run depth source s).Keeps SameTree :=
  runForms_keeps SameTree.refl SameTree.trans fun x _ =>
    eval_keeps SameTree.trans SameTree.of_untouched (SameTree.define s) depth x

theorem load_sameTree (depth : Nat) (s : ScopeId) : (Library.load depth s).Keeps SameTree :=
  Keeps.bind SameTree.trans (run_sameTree depth Library.procedures s) fun _ =>
    Keeps.bind SameTree.trans (run_sameTree depth Library.checks s) fun _ =>
      Keeps.pure SameTree.refl ()

/-! ### Programs of definitions -/

namespace Value

/-- The tokens of several trees are those of each of them. -/
theorem atom_mem_flattenAll {text : String} {xs : List Value} :
    .atom text ∈ flattenAll xs ↔ ∃ x ∈ xs, .atom text ∈ flatten x := by
  induction xs with
  | nil => simp [flattenAll]
  | cons x xs ih => simp [flattenAll, ih]

/-- An atom is mentioned if it is among the tokens that the expression is written with. -/
theorem atom_mem_flatten {text : String} {x : Value} :
    .atom text ∈ x.flatten ↔ x.Mentions text := by
  induction x with
  | atom other => simp [flatten, eq_comm]
  | list items ih =>
    rw [flatten, mentions_list, List.mem_cons, List.mem_append, atom_mem_flattenAll]
    constructor
    · rintro (h | ⟨x, hx, h⟩ | h)
      · cases h
      · exact ⟨x, hx, (ih x hx).1 h⟩
      · simp at h
    · rintro ⟨x, hx, h⟩
      exact .inr (.inl ⟨x, hx, (ih x hx).2 h⟩)
  | builtin op => exact ⟨fun h => by simp [flatten] at h, fun h => by cases h⟩
  | closure head body => exact ⟨fun h => by simp [flatten] at h, fun h => by cases h⟩

instance (text : String) (x : Value) : Decidable (x.Mentions text) :=
  decidable_of_iff _ atom_mem_flatten

/-- The name that a definition binds, unless binding it may bind another one: the expression for
the value must not mention `define`. -/
def definedName? : Value → Option String
  | .list items =>
    match Form.ofItems items with
    | .ok (.defineProcedure name _ _) => some name
    | .ok (.defineValue name expr) => if expr.Mentions Keyword.define.text then none else some name
    | _ => none
  | _ => none

end Value

/-- A definition binds only the name that it defines, even if it stops before it is done. -/
theorem eval_bindsOnly (depth : Nat) {x : Value} {s : ScopeId} {name : String}
    {names : List String} (hx : x.definedName? = some name) (hname : name ∈ names) :
    (eval depth x s).Keeps (BindsOnly s names) := by
  cases depth with
  | zero => exact Keeps.tooDeep BindsOnly.refl
  | succ depth =>
    unfold Value.definedName? at hx
    split at hx
    · next items =>
      split at hx
      · next key params body heq =>
        obtain rfl := Option.some.inj hx
        rw [eval_list_of_form heq]
        have hclosure : (Eval.makeClosure params body s).Keeps (BindsOnly s names) :=
          Keeps.makeClosure (fun st => .of_untouched _ _ (.countClosure st)) params body s
        exact Keeps.bind BindsOnly.trans hclosure fun v =>
          Keeps.define fun st => BindsOnly.define hname st v
      · next key expr heq =>
        split at hx
        · cases hx
        · next hdefine =>
          obtain rfl := Option.some.inj hx
          rw [eval_list_of_form heq]
          have hexpr : (eval depth expr s).Keeps (BindsOnly s names) :=
            (eval_untouched depth s hdefine).mono BindsOnly.of_untouched
          exact Keeps.bind BindsOnly.trans hexpr fun v =>
            Keeps.define fun st => BindsOnly.define hname st v
      · cases hx
    · cases hx

/-- The expression is a definition of one of these names. -/
def Value.definesOneOf (names : List String) (x : Value) : Bool :=
  x.definedName?.any names.contains

/-- A program of definitions binds only the names that these define, even if it stops early. -/
theorem run_bindsOnly (depth : Nat) {source : String} (s : ScopeId) {names : List String}
    (h : (read source).all (Value.definesOneOf names) = true) :
    (run depth source s).Keeps (BindsOnly s names) := by
  refine runForms_keeps BindsOnly.refl BindsOnly.trans fun x hx => ?_
  obtain ⟨name, hdefined, hname⟩ := (Option.any_eq_true ..).1 (List.all_eq_true.1 h x hx)
  exact eval_bindsOnly depth hdefined (List.contains_iff_mem.1 hname)

/-! ### The library -/

namespace Library

/-- The names that the library defines. -/
def names : List String :=
  ["exit", "true?", "false?", "not", "cons", "car", "cdr", "cadr", "run-tests"]

/-- A text is read one character at a time, without regard to the places of its tokens. What is read
from a text that is written out can be decided in this way: a literal is known to be the text of its
characters, and taking these back out of the text would be a long computation. -/
theorem read_of_chars {P : List Value → Bool} {source : String}
    (h : ∃ cs, source = String.ofList cs ∧ P (parse (tokensAfter [] cs)) = true) :
    P (read source) = true := by
  obtain ⟨cs, rfl, h⟩ := h
  rwa [read, tokens_eq_tokensAfter, String.toList_ofList]

set_option maxRecDepth 8000 in
/-- The first part of the library consists of definitions of its names. -/
theorem procedures_defines : (read procedures).all (Value.definesOneOf names) = true :=
  read_of_chars (P := (·.all (Value.definesOneOf names))) ⟨_, rfl, by decide +kernel⟩

set_option maxRecDepth 8000 in
theorem checks_defines : (read checks).all (Value.definesOneOf names) = true :=
  read_of_chars (P := (·.all (Value.definesOneOf names))) ⟨_, rfl, by decide +kernel⟩

/-- Loading the library binds its names only, however far it gets. -/
theorem load_bindsOnly (depth : Nat) (s : ScopeId) :
    (load depth s).Keeps (BindsOnly s names) :=
  Keeps.bind BindsOnly.trans (run_bindsOnly depth s procedures_defines) fun _ =>
    Keeps.bind BindsOnly.trans (run_bindsOnly depth s checks_defines) fun _ =>
      Keeps.pure BindsOnly.refl ()

end Library

end AtomLisp
