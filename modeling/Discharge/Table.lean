/-!
Finite maps from names, listed in increasing order of the names.

Every listing the library shows (contexts, tool versions, axioms, definitions,
obligations) is in code point order of the names, so the order belongs to the
type: the keys of a `Table` increase strictly.
-/

namespace Discharge

/-- Strictly increasing keys. -/
abbrev KeysIncrease {α : Type} (entries : List (String × α)) : Prop :=
  entries.Pairwise (fun a b => a.1 < b.1)

/-- A finite map from names to values. -/
structure Table (α : Type) where
  entries : List (String × α)
  increasing : KeysIncrease entries

namespace Table

variable {α : Type}

/-- The map without entries. -/
def empty : Table α := ⟨[], .nil⟩

instance : EmptyCollection (Table α) := ⟨empty⟩

instance : Inhabited (Table α) := ⟨empty⟩

theorem eq_of_entries {s t : Table α} (h : s.entries = t.entries) : s = t := by
  cases s; cases t; cases h; rfl

instance [DecidableEq α] : DecidableEq (Table α) := fun s t =>
  decidable_of_iff (s.entries = t.entries) ⟨eq_of_entries, fun h => h ▸ rfl⟩

/-- Puts an entry into its place, replacing the entry of the same key. -/
def insertEntry (k : String) (v : α) : List (String × α) → List (String × α)
  | [] => [(k, v)]
  | (k', v') :: rest =>
    if k < k' then (k, v) :: (k', v') :: rest
    else if k = k' then (k, v) :: rest
    else (k', v') :: insertEntry k v rest

theorem mem_insertEntry {k : String} {v : α} {e : String × α} :
    ∀ {l : List (String × α)}, e ∈ insertEntry k v l → e = (k, v) ∨ e ∈ l
  | [], h => .inl (by simpa [insertEntry] using h)
  | (k', v') :: rest, h => by
    simp only [insertEntry] at h
    split at h
    · rcases List.mem_cons.mp h with h | h
      · exact .inl h
      · exact .inr h
    · split at h
      · rcases List.mem_cons.mp h with h | h
        · exact .inl h
        · exact .inr (List.mem_cons_of_mem _ h)
      · rcases List.mem_cons.mp h with h | h
        · exact .inr (h ▸ List.mem_cons_self)
        · rcases mem_insertEntry h with h | h
          · exact .inl h
          · exact .inr (List.mem_cons_of_mem _ h)

theorem lt_of_not_lt_of_ne {a b : String} (h : ¬ a < b) (ne : a ≠ b) : b < a := by
  refine Decidable.byContradiction fun h' => ne ?_
  exact String.le_antisymm (String.not_lt.mp h') (String.not_lt.mp h)

theorem increasing_insertEntry (k : String) (v : α) :
    ∀ l : List (String × α), KeysIncrease l → KeysIncrease (insertEntry k v l)
  | [], _ => List.pairwise_singleton _ _
  | (k', v') :: rest, h => by
    obtain ⟨first, others⟩ := List.pairwise_cons.mp h
    simp only [insertEntry]
    split
    · rename_i lt
      refine List.pairwise_cons.mpr ⟨fun e he => ?_, h⟩
      rcases List.mem_cons.mp he with rfl | he
      · exact lt
      · exact String.lt_trans lt (first e he)
    · split
      · rename_i eq
        exact List.pairwise_cons.mpr ⟨fun e he => eq ▸ first e he, others⟩
      · rename_i notLt ne
        refine List.pairwise_cons.mpr ⟨fun e he => ?_, increasing_insertEntry k v rest others⟩
        rcases mem_insertEntry he with rfl | he
        · exact lt_of_not_lt_of_ne notLt ne
        · exact first e he

/-- Sets the value of a key. -/
def insert (t : Table α) (k : String) (v : α) : Table α :=
  ⟨insertEntry k v t.entries, increasing_insertEntry k v t.entries t.increasing⟩

/-- The value of a key. -/
def find? (t : Table α) (k : String) : Option α := t.entries.lookup k

/-- Does the map have the key? -/
def contains (t : Table α) (k : String) : Bool := (t.find? k).isSome

/-- The map with the given entries, of which a later one wins. -/
def ofList (entries : List (String × α)) : Table α :=
  entries.foldl (fun t e => t.insert e.1 e.2) empty

/-- The keys, in increasing order. -/
def keys (t : Table α) : List String := t.entries.map (·.1)

/-- The values, in the order of their keys. -/
def values (t : Table α) : List α := t.entries.map (·.2)

end Table

end Discharge
