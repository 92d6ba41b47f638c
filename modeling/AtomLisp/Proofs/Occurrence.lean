import AtomLisp.Proofs.FormParts
import AtomLisp.Proofs.Reading
import AtomLisp.Proofs.StoreOperations

/-!
# Closures within values

A value can hold closures: it may be one, hold one in a list, or hold one in the body of another
closure. `Value.EveryProcedure` is a property of all of them, of their heads and bodies, and
`Value.EveryClosure` of their heads alone.

Such a property is one of lists and their elements (`Value.hereditary_everyProcedure`). A lookup
yields no other closures than those that are bound (`Store.everyProcedure_lookup`), and what is read
from a text holds no closure (`read_everyProcedure`).
-/

namespace AtomLisp

namespace Value

/-- The value `x` is the other one, or is found within it: in a list, or in the body of a
closure. -/
inductive Occurs (x : Value) : Value → Prop where
  | refl : Occurs x x
  | item {items : List Value} {y : Value} : y ∈ items → Occurs x y → Occurs x (.list items)
  | bodyForm {head : ClosureHead} {body : List Value} {y : Value} : y ∈ body → Occurs x y →
      Occurs x (.closure head body)

/-- All closures within the value have heads and bodies with the property `K`. -/
def EveryProcedure (K : ClosureHead → List Value → Prop) (v : Value) : Prop :=
  ∀ head body, Occurs (.closure head body) v → K head body

section EveryProcedure

variable {K K' : ClosureHead → List Value → Prop}

/-- What is true of every closure may be weakened. -/
theorem EveryProcedure.mono {v : Value} (h : v.EveryProcedure K)
    (hle : ∀ head body, K head body → K' head body) : v.EveryProcedure K' :=
  fun head body hocc => hle head body (h head body hocc)

@[simp] theorem everyProcedure_atom (text : String) : (atom text).EveryProcedure K := by
  rintro head body ⟨⟩

@[simp] theorem everyProcedure_builtin (op : Builtin) : (builtin op).EveryProcedure K := by
  rintro head body ⟨⟩

/-- The closures within a list are those within its elements. -/
@[simp] theorem everyProcedure_list {items : List Value} :
    (list items).EveryProcedure K ↔ ∀ x ∈ items, x.EveryProcedure K := by
  constructor
  · intro h x hx head body hocc
    exact h head body (.item hx hocc)
  · rintro h head body (_ | ⟨hx, hocc⟩)
    exact h _ hx head body hocc

/-- The closures within a closure are itself and those within its body. -/
@[simp] theorem everyProcedure_closure {head : ClosureHead} {body : List Value} :
    (closure head body).EveryProcedure K ↔
      K head body ∧ ∀ x ∈ body, x.EveryProcedure K := by
  constructor
  · intro h
    exact ⟨h head body .refl, fun x hx head' body' hocc => h head' body' (.bodyForm hx hocc)⟩
  · rintro ⟨hself, hbody⟩ head' body' (_ | _ | ⟨hx, hocc⟩)
    · exact hself
    · exact hbody _ hx head' body' hocc

@[simp] theorem everyProcedure_nil : nil.EveryProcedure K := by
  simp [nil]

/-- Binding a value under a name keeps every property that does not look at names. -/
theorem EveryProcedure.named {v : Value} (h : v.EveryProcedure K) (name : String)
    (hname : ∀ (head : ClosureHead) body name, K head body → K { head with name } body) :
    (v.named name).EveryProcedure K := by
  cases v with
  | closure head body =>
    rw [everyProcedure_closure] at h
    rw [Value.named, everyProcedure_closure]
    exact ⟨hname head body _ h.1, h.2⟩
  | _ => exact h

/-- A list has the property just when its elements have it. -/
theorem hereditary_everyProcedure : Hereditary (EveryProcedure K) where
  list_iff _ := everyProcedure_list
  branch := everyProcedure_atom _
  begin := everyProcedure_atom _
  ofBool := everyProcedure_atom _

/-- There is no closure in a tree. -/
theorem TreeOf.everyProcedure {P : String → Prop} {x : Value} (h : TreeOf P x) :
    x.EveryProcedure K := by
  induction h with
  | atom _ => exact everyProcedure_atom _
  | list _ ih => exact everyProcedure_list.2 ih

end EveryProcedure

/-- All closures within the value have heads with the property `H`. -/
def EveryClosure (H : ClosureHead → Prop) (v : Value) : Prop :=
  ∀ head body, Occurs (.closure head body) v → H head

variable {H H' : ClosureHead → Prop}

theorem EveryClosure.mono {v : Value} (h : v.EveryClosure H) (hle : ∀ head, H head → H' head) :
    v.EveryClosure H' :=
  EveryProcedure.mono h fun head _ => hle head

@[simp] theorem everyClosure_atom (text : String) : (atom text).EveryClosure H :=
  everyProcedure_atom text

@[simp] theorem everyClosure_list {items : List Value} :
    (list items).EveryClosure H ↔ ∀ x ∈ items, x.EveryClosure H :=
  everyProcedure_list

/-- The heads within a closure are its own and those within its body. -/
@[simp] theorem everyClosure_closure {head : ClosureHead} {body : List Value} :
    (closure head body).EveryClosure H ↔ H head ∧ ∀ x ∈ body, x.EveryClosure H :=
  everyProcedure_closure

end Value

/-- Every closure within the value has been made in this store, over a scope of it. -/
def Store.Has (st : Store) (v : Value) : Prop :=
  v.EveryClosure fun head => head.scope < st.nextScope ∧ head.id < st.closures

/-- What a name stands for holds no other closures than the scopes of the chain bind it to. -/
theorem Store.everyProcedure_lookup {K : ClosureHead → List Value → Prop} {st : Store}
    {s : ScopeId} {name : String}
    (h : ∀ t ∈ st.chain s, ∀ b, st.binding? t name = some b → b.held.EveryProcedure K) :
    (st.lookup s name).EveryProcedure K := by
  rw [lookup]
  cases hfind : st.find? s name with
  | none =>
    rw [Option.getD_none, unbound]
    cases Builtin.ofName? name with
    | some op => exact Value.everyProcedure_builtin op
    | none => exact Value.everyProcedure_atom name
  | some v =>
    obtain ⟨t, ht, b, hb, rfl⟩ := exists_binding_of_find? st s name v hfind
    exact h t ht b hb

/-- What is read from a text holds no closure, so every property of closures is true of it. -/
theorem read_everyProcedure (K : ClosureHead → List Value → Prop) (source : String) :
    ∀ x ∈ read source, x.EveryProcedure K :=
  forall_mem_parse (fun text _ => Value.everyProcedure_atom text)
    fun _ => Value.everyProcedure_list.2

end AtomLisp
