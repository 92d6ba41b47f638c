import AtomLisp.Error
import AtomLisp.Value.Inspect
import AtomLisp.Proofs.Occurrence
import Mathlib.Order.Monotone.Basic

/-!
# Renaming scopes and closures

The numbers of scopes and closures are no more than names for them. A renaming replaces the numbers
within a value and leaves all that a program can see of it as it is: its texts
(`Value.render_rename`, `Value.inspect_rename`), which values are equal (`Value.same_rename`), and
what an error says (`Fault.message_rename`). New numbers are one-to-one and in the same order. A
value whose numbers are kept is kept (`Value.rename_eq_self`).
-/

namespace AtomLisp

/-- New numbers for scopes and for closures. Different ones get different numbers, and an older
scope keeps a lower number than a younger one. -/
structure Renaming where
  scope : ScopeId → ScopeId
  closure : Nat → Nat
  scope_strictMono : StrictMono scope
  closure_injective : Function.Injective closure

namespace Renaming

/-- The renaming that keeps all numbers. -/
protected def id : Renaming where
  scope s := s
  closure i := i
  scope_strictMono := strictMono_id
  closure_injective := Function.injective_id

@[simp] theorem id_scope (s : ScopeId) : Renaming.id.scope s = s := rfl

@[simp] theorem id_closure (i : Nat) : Renaming.id.closure i = i := rfl

/-- Different scopes get different numbers. -/
theorem scope_injective (ρ : Renaming) : Function.Injective ρ.scope :=
  ρ.scope_strictMono.injective

end Renaming

variable (ρ : Renaming)

/-- The head of a closure under the new numbers. -/
def ClosureHead.rename (head : ClosureHead) : ClosureHead :=
  { head with scope := ρ.scope head.scope, id := ρ.closure head.id }

@[simp] theorem ClosureHead.rename_id (head : ClosureHead) : head.rename .id = head := rfl

@[simp] theorem ClosureHead.short_rename (head : ClosureHead) :
    (head.rename ρ).short = head.short := rfl

namespace Value

mutual

/-- The value under the new numbers, those within lists and bodies included. -/
def rename : Value → Value
  | .atom text => .atom text
  | .list items => .list (renameAll items)
  | .builtin op => .builtin op
  | .closure head body => .closure (head.rename ρ) (renameAll body)

/-- Several values under the new numbers. -/
def renameAll : List Value → List Value
  | [] => []
  | x :: xs => rename x :: renameAll xs

end

theorem renameAll_eq_map (xs : List Value) : renameAll ρ xs = xs.map (rename ρ) := by
  induction xs with
  | nil => rfl
  | cons x xs ih => rw [renameAll, ih, List.map_cons]

@[simp] theorem rename_atom (text : String) : (atom text).rename ρ = atom text := by
  rw [rename]

@[simp] theorem rename_list (items : List Value) :
    (list items).rename ρ = list (items.map (rename ρ)) := by
  rw [rename, renameAll_eq_map]

@[simp] theorem rename_builtin (op : Builtin) : (builtin op).rename ρ = builtin op := by
  rw [rename]

/-- A closure is renamed in its head and in its body. -/
@[simp] theorem rename_closure (head : ClosureHead) (body : List Value) :
    (closure head body).rename ρ = closure (head.rename ρ) (body.map (rename ρ)) := by
  rw [rename, renameAll_eq_map]

@[simp] theorem rename_nil : nil.rename ρ = nil := by
  simp [nil]

@[simp] theorem rename_ofBool (b : Bool) : (ofBool b).rename ρ = ofBool b :=
  rename_atom ρ _

/-- A value whose scopes and closures keep their numbers is kept. -/
theorem rename_eq_self {v : Value}
    (h : v.EveryClosure fun head => head.rename ρ = head) : v.rename ρ = v := by
  induction v with
  | atom text => exact rename_atom ρ text
  | builtin op => exact rename_builtin ρ op
  | list items ih =>
    rw [everyClosure_list] at h
    rw [rename_list, List.map_congr_left fun x hx => ih x hx (h x hx), List.map_id']
  | closure head body ih =>
    rw [everyClosure_closure] at h
    rw [rename_closure, h.1, List.map_congr_left fun x hx => ih x hx (h.2 x hx), List.map_id']

@[simp] theorem rename_id (v : Value) : v.rename .id = v :=
  rename_eq_self .id fun head _ _ => head.rename_id

@[simp] theorem map_rename_id (xs : List Value) : xs.map (rename .id) = xs := by
  rw [List.map_congr_left fun x _ => rename_id x, List.map_id']

/-! ### What a program can see of a value -/

theorem renderTail_map_rename {xs : List Value}
    (h : ∀ x ∈ xs, (x.rename ρ).render = x.render) :
    renderTail (xs.map (rename ρ)) = renderTail xs := by
  induction xs with
  | nil => rfl
  | cons x xs ih =>
    rw [List.map_cons, renderTail, renderTail, h x List.mem_cons_self,
      ih fun y hy => h y (List.mem_cons_of_mem _ hy)]

theorem renderItems_map_rename {xs : List Value}
    (h : ∀ x ∈ xs, (x.rename ρ).render = x.render) :
    renderItems (xs.map (rename ρ)) = renderItems xs := by
  cases xs with
  | nil => rfl
  | cons x xs =>
    rw [List.map_cons, renderItems, renderItems, h x List.mem_cons_self,
      renderTail_map_rename ρ fun y hy => h y (List.mem_cons_of_mem _ hy)]

/-- The text of a value does not show numbers. -/
@[simp] theorem render_rename (v : Value) : (v.rename ρ).render = v.render := by
  induction v with
  | atom text => rw [rename_atom]
  | builtin op => rw [rename_builtin]
  | list items ih => rw [rename_list, render, render, renderItems_map_rename ρ ih]
  | closure head body ih =>
    rw [rename_closure, render, render, renderTail_map_rename ρ ih]
    rfl

@[simp] theorem renderAll_map_rename (xs : List Value) :
    renderAll (xs.map (rename ρ)) = renderAll xs := by
  rw [renderAll, renderAll, List.map_map]
  exact congrArg String.join (List.map_congr_left fun x _ => render_rename ρ x)

@[simp] theorem short_rename (v : Value) : (v.rename ρ).short = v.short := by
  have hrender := render_rename ρ v
  cases v with
  | closure head body => rw [rename_closure, short, short, head.short_rename]
  | atom text => rw [rename_atom]
  | builtin op => rw [rename_builtin]
  | list items =>
    rw [rename_list] at hrender ⊢
    rw [short_list, short_list, hrender]

theorem inspectAll_map_rename {xs : List Value}
    (h : ∀ x ∈ xs, (x.rename ρ).inspect = x.inspect) :
    inspectAll (xs.map (rename ρ)) = inspectAll xs := by
  induction xs with
  | nil => rfl
  | cons x xs ih =>
    rw [List.map_cons, inspectAll, inspectAll, h x List.mem_cons_self,
      ih fun y hy => h y (List.mem_cons_of_mem _ hy)]

@[simp] theorem inspect_rename (v : Value) : (v.rename ρ).inspect = v.inspect := by
  induction v with
  | atom text => rw [rename_atom]
  | builtin op => rw [rename_builtin]
  | list items ih => rw [rename_list, inspect_list, inspect_list, inspectAll_map_rename ρ ih]
  | closure head body ih =>
    rw [rename_closure, inspect_closure, inspect_closure, inspectAll_map_rename ρ ih]
    rfl

@[simp] theorem isClosure_rename (v : Value) : (v.rename ρ).isClosure = v.isClosure := by
  cases v <;> simp [isClosure]

@[simp] theorem isAtomOf_rename (v : Value) (text : String) :
    (v.rename ρ).isAtomOf text = v.isAtomOf text := by
  cases v <;> simp [isAtomOf]

/-- To name a value and to renumber it can be done in either order. -/
theorem rename_named (v : Value) (name : String) :
    (v.named name).rename ρ = (v.rename ρ).named name := by
  cases v with
  | closure head body =>
    rw [named, rename_closure, rename_closure, named]
    rfl
  | atom text => simp [named]
  | builtin op => simp [named]
  | list items => simp [named]

/-! ### The equality that a program observes -/

theorem sameAll_map_rename {xs ys : List Value}
    (h : ∀ x ∈ xs, ∀ y, same (x.rename ρ) (y.rename ρ) = same x y) :
    sameAll (xs.map (rename ρ)) (ys.map (rename ρ)) = sameAll xs ys := by
  induction xs generalizing ys with
  | nil => cases ys <;> rfl
  | cons x xs ih =>
    cases ys with
    | nil => rfl
    | cons y ys =>
      rw [List.map_cons, List.map_cons, sameAll, sameAll, h x List.mem_cons_self y,
        ih fun z hz => h z (List.mem_cons_of_mem _ hz)]

/-- Renaming makes no different values equal and no equal values different. -/
@[simp] theorem same_rename (x y : Value) : same (x.rename ρ) (y.rename ρ) = same x y := by
  induction x generalizing y with
  | atom text => cases y <;> simp [same]
  | builtin op => cases y <;> simp [same]
  | list items ih =>
    cases y with
    | list items' => rw [rename_list, rename_list, same, same, sameAll_map_rename ρ ih]
    | _ => simp [same]
  | closure head body _ =>
    -- closures are compared by their numbers alone, which is why these must be one-to-one
    cases y with
    | closure head' body' =>
      have hid : (ρ.closure head.id == ρ.closure head'.id) = (head.id == head'.id) := by
        rw [Bool.eq_iff_iff, beq_iff_eq, beq_iff_eq, ρ.closure_injective.eq_iff]
      rw [rename_closure, rename_closure, same, same]
      exact hid
    | _ => simp [same]

theorem sameAll_map_rename_self {xs : List Value}
    (h : ∀ x ∈ xs, same x (x.rename ρ) = true) : sameAll xs (xs.map (rename ρ)) = true := by
  induction xs with
  | nil => rfl
  | cons x xs ih =>
    rw [List.map_cons, sameAll, h x List.mem_cons_self,
      ih fun y hy => h y (List.mem_cons_of_mem _ hy)]
    rfl

/-- A value is equal to itself under new numbers if these are the old ones for all closures within
it. -/
theorem same_rename_self {v : Value}
    (h : v.EveryClosure fun head => ρ.closure head.id = head.id) :
    same v (v.rename ρ) = true := by
  induction v with
  | atom text => simp [same]
  | builtin op => simp [same]
  | closure head body _ =>
    rw [everyClosure_closure] at h
    rw [rename_closure, same, ClosureHead.rename, h.1]
    exact beq_self_eq_true _
  | list items ih =>
    rw [everyClosure_list] at h
    rw [rename_list, same]
    exact sameAll_map_rename_self ρ fun x hx => ih x hx (h x hx)

end Value

/-! ### Errors under new numbers -/

namespace Fault

/-- The fault under the new numbers. -/
def rename : Fault → Fault
  | closureArity head got => closureArity (head.rename ρ) got
  | notProcedure found => notProcedure (found.rename ρ)
  | malformed form shape => malformed (form.rename ρ) shape
  | invalidParameter found => invalidParameter (found.rename ρ)
  | invalidClause found => invalidClause (found.rename ρ)
  | notNumber found => notNumber (found.rename ρ)
  | notBoolean found => notBoolean (found.rename ρ)
  | notAtom found => notAtom (found.rename ρ)
  | notList found => notList (found.rename ρ)
  | fault => fault

/-- New numbers do not change the kind of a fault. -/
@[simp] theorem kind_rename (fault : Fault) : (fault.rename ρ).kind = fault.kind := by
  cases fault <;> rfl

@[simp] theorem message_rename (fault : Fault) : (fault.rename ρ).message = fault.message := by
  cases fault <;> unfold rename message <;> simp [ClosureHead.rename, ClosureHead.short]

@[simp] theorem rename_id (fault : Fault) : fault.rename .id = fault := by
  cases fault <;> simp [rename]

end Fault

namespace Error

/-- The error under the new numbers. -/
def rename (e : Error) : Error where
  fault := e.fault.rename ρ
  context := e.context.map (Value.rename ρ)

@[simp] theorem rename_within (e : Error) (form : Value) :
    (e.within form).rename ρ = (e.rename ρ).within (form.rename ρ) := by
  simp [rename, within]

@[simp] theorem rename_id (e : Error) : e.rename .id = e := by
  simp [rename]

/-- New numbers do not show in the context of an error. -/
theorem map_render_context_rename (e : Error) :
    (e.rename ρ).context.map Value.render = e.context.map Value.render := by
  rw [rename, List.map_map]
  exact List.map_congr_left fun x _ => Value.render_rename ρ x

/-- An error is reported in the same words under the new numbers. -/
theorem text_rename (e : Error) : (e.rename ρ).text = e.text := by
  have hline : ∀ x, contextLine (x.rename ρ) = contextLine x := fun x => by
    rw [contextLine, contextLine, Value.short_rename]
  simp [text, rename, ← List.map_reverse, Function.comp_def, hline]

end Error

end AtomLisp
