import Mathlib.Data.List.Sort
import Discharge.Table

/-! What a table holds after an entry has been set. A table is determined by the
values of its keys, since its listing is in their order; so two tables are equal
as soon as they answer alike. -/

namespace Discharge.Table

variable {α : Type} {s t : Table α} {k k' : String} {v w : α}

/-! ## The value of a key -/

theorem lookup_insertEntry_self (k : String) (v : α) (l : List (String × α)) :
    (insertEntry k v l).lookup k = some v := by
  induction l with
  | nil => simp [insertEntry]
  | cons e rest ih =>
    obtain ⟨k', v'⟩ := e
    simp only [insertEntry]
    split
    · simp
    · split
      · simp
      · rename_i different
        simp [List.lookup_cons, beq_false_of_ne different, ih]

theorem lookup_insertEntry_of_ne (different : k' ≠ k) (v : α) (l : List (String × α)) :
    (insertEntry k v l).lookup k' = l.lookup k' := by
  have other : (k' == k) = false := beq_false_of_ne different
  induction l with
  | nil => simp [insertEntry, List.lookup_cons, other]
  | cons e rest ih =>
    obtain ⟨k₀, v₀⟩ := e
    simp only [insertEntry]
    split
    · simp [List.lookup_cons, other]
    · split
      · rename_i same
        subst same
        simp [List.lookup_cons, other]
      · simp [List.lookup_cons, ih]

@[simp]
theorem find?_insert_self (t : Table α) (k : String) (v : α) : (t.insert k v).find? k = some v :=
  lookup_insertEntry_self k v t.entries

theorem find?_insert_of_ne (t : Table α) (different : k' ≠ k) (v : α) :
    (t.insert k v).find? k' = t.find? k' :=
  lookup_insertEntry_of_ne different v t.entries

/-! ## Equality -/

theorem mem_entries_iff : (k, v) ∈ t.entries ↔ t.find? k = some v := by
  obtain ⟨entries, increasing⟩ := t
  simp only [find?]
  induction entries with
  | nil => simp
  | cons e rest ih =>
    obtain ⟨k₀, v₀⟩ := e
    obtain ⟨first, others⟩ := List.pairwise_cons.mp increasing
    by_cases same : k = k₀
    · subst same
      have absent : (k, v) ∉ rest := fun member => String.lt_irrefl k (first _ member)
      simp [absent, eq_comm]
    · simp [List.lookup_cons, same, beq_false_of_ne same, ih others]

/-- A table is determined by the values of its keys. -/
theorem ext_find? (same : ∀ k, s.find? k = t.find? k) : s = t := by
  have members (e : String × α) : e ∈ s.entries ↔ e ∈ t.entries := by
    rw [mem_entries_iff, mem_entries_iff, same]
  have distinct (r : Table α) : r.entries.Nodup := by
    refine r.increasing.imp fun less equal => ?_
    subst equal
    exact String.lt_irrefl _ less
  refine eq_of_entries (List.Perm.eq_of_pairwise ?_ s.increasing t.increasing
    ((List.perm_ext_iff_of_nodup (distinct s) (distinct t)).mpr members))
  exact fun a b _ _ less greater => absurd greater (String.lt_asymm less)

end Discharge.Table
