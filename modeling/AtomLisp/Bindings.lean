/-!
# Bindings

Names bound to things, each name once. Bindings stand in the order in which their names were first
bound: `Bindings.insert` puts a new name at the end and changes a known one in its place.
`Bindings.get?` looks a name up, and `Bindings.keys` lists all names.
-/

namespace AtomLisp

variable {α : Type}

/-- Names with what they are bound to. No name occurs twice. -/
structure Bindings (α : Type) where
  entries : List (String × α)
  nodup : (entries.map Prod.fst).Nodup

namespace Bindings

instance : EmptyCollection (Bindings α) := ⟨⟨[], List.nodup_nil⟩⟩

/-- Bind a name within a list of bindings: in its place if it is there, else at the end. -/
def put (name : String) (a : α) : List (String × α) → List (String × α)
  | [] => [(name, a)]
  | (key, b) :: rest => if key = name then (name, a) :: rest else (key, b) :: put name a rest

/-- Binding a name adds it at the end of the names, unless it is one of them. -/
theorem map_fst_put (name : String) (a : α) (entries : List (String × α)) :
    (put name a entries).map Prod.fst =
      if name ∈ entries.map Prod.fst then entries.map Prod.fst
      else entries.map Prod.fst ++ [name] := by
  induction entries with
  | nil => rfl
  | cons entry rest ih =>
    obtain ⟨key, b⟩ := entry
    unfold put
    split <;> grind

theorem nodup_put (name : String) (a : α) {entries : List (String × α)}
    (h : (entries.map Prod.fst).Nodup) : ((put name a entries).map Prod.fst).Nodup := by
  rw [map_fst_put]
  split
  · exact h
  · grind

/-- What the name is bound to. -/
def get? (b : Bindings α) (name : String) : Option α :=
  b.entries.lookup name

/-- Bind the name, in place of what it was bound to before. -/
def insert (b : Bindings α) (name : String) (a : α) : Bindings α where
  entries := put name a b.entries
  nodup := nodup_put name a b.nodup

/-- The bound names. -/
def keys (b : Bindings α) : List String :=
  b.entries.map Prod.fst

/-- Is the name bound? -/
def contains (b : Bindings α) (name : String) : Bool :=
  (b.get? name).isSome

/-- A binding is found under its name, and what other names are bound to stays. -/
theorem lookup_put (name key : String) (a : α) (entries : List (String × α)) :
    (put name a entries).lookup key = if key = name then some a else entries.lookup key := by
  induction entries with
  | nil => grind [put]
  | cons entry rest ih =>
    obtain ⟨key', b⟩ := entry
    unfold put
    split <;> grind

@[simp] theorem get?_empty (name : String) : (∅ : Bindings α).get? name = none := rfl

/-- A binding is found under its name, and what other names are bound to stays. -/
theorem get?_insert (b : Bindings α) (name key : String) (a : α) :
    (b.insert name a).get? key = if key = name then some a else b.get? key :=
  lookup_put name key a b.entries

theorem keys_nodup (b : Bindings α) : b.keys.Nodup := b.nodup

/-- Binding a name adds it to the names and takes none away. -/
theorem mem_keys_insert (b : Bindings α) (name key : String) (a : α) :
    key ∈ (b.insert name a).keys ↔ key = name ∨ key ∈ b.keys := by
  unfold keys insert
  rw [map_fst_put]
  split <;> grind

/-- The names are those under which something is found. -/
theorem mem_keys_iff (b : Bindings α) (name : String) :
    name ∈ b.keys ↔ (b.get? name).isSome = true := by
  unfold keys get?
  induction b.entries with
  | nil => simp
  | cons entry rest ih => grind

end Bindings

end AtomLisp
