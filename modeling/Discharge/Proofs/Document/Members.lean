import Mathlib.Data.List.Induction
import Discharge.Document.Json
import Discharge.Proofs.Table

/-! Values whose objects are compared as maps. The canonical form lists the
members of every object in the order of their keys, so a map has one listing, and
two values have one canonical form exactly if they differ in nothing but the order
of members. -/

namespace Discharge.Json

/-- The value of a key; of several members with the key the last one counts. -/
def member? (ms : List (String × Json)) (k : String) : Option Json := ms.reverse.lookup k

/-- The same value, every object being taken as a map from its keys. -/
inductive Same : Json → Json → Prop
  | null : Same .null .null
  | bool (b : Bool) : Same (.bool b) (.bool b)
  | integer (n : Int) : Same (.integer n) (.integer n)
  | float (x : Float) : Same (.float x) (.float x)
  | text (s : String) : Same (.text s) (.text s)
  | array {vs ws : List Json} (length : vs.length = ws.length)
      (items : ∀ (i : Nat) v w, vs[i]? = some v → ws[i]? = some w → Same v w) :
      Same (.array vs) (.array ws)
  | object {ms ns : List (String × Json)}
      (keys : ∀ k, member? ms k = none ↔ member? ns k = none)
      (values : ∀ k v w, member? ms k = some v → member? ns k = some w → Same v w) :
      Same (.object ms) (.object ns)

variable {v w : Json} {ms : List (String × Json)} {k : String}

/-! ## Sorted members -/

theorem canonicalAll_eq_map (vs : List Json) : canonicalAll vs = vs.map canonical := by
  induction vs with
  | nil => rfl
  | cons v vs ih => rw [canonicalAll, ih, List.map_cons]

theorem canonicalMembers_eq_map (ms : List (String × Json)) :
    canonicalMembers ms = ms.map fun m => (m.1, m.2.canonical) := by
  induction ms with
  | nil => rfl
  | cons m ms ih =>
    obtain ⟨k, v⟩ := m
    rw [canonicalMembers, ih, List.map_cons]

theorem lookup_map_value (f : Json → Json) (ms : List (String × Json)) (k : String) :
    (ms.map fun m => (m.1, f m.2)).lookup k = (ms.lookup k).map f := by
  induction ms with
  | nil => rfl
  | cons m ms ih =>
    rw [List.map_cons, List.lookup_cons, List.lookup_cons, ih]
    cases k == m.1 <;> rfl

theorem member?_map (f : Json → Json) (ms : List (String × Json)) (k : String) :
    member? (ms.map fun m => (m.1, f m.2)) k = (member? ms k).map f := by
  rw [member?, member?, ← List.map_reverse, lookup_map_value]

theorem member?_append (ms : List (String × Json)) (m : String × Json) (k : String) :
    member? (ms ++ [m]) k = if k = m.1 then some m.2 else member? ms k := by
  rw [member?, List.reverse_append, List.reverse_singleton, List.singleton_append,
    List.lookup_cons, member?]
  by_cases same : k = m.1
  · simp [same]
  · simp [same, beq_false_of_ne same]

theorem mem_of_member? (found : member? ms k = some v) : (k, v) ∈ ms := by
  obtain ⟨before, after, split, -⟩ := List.lookup_eq_some_iff.mp found
  rw [← List.mem_reverse, split]
  simp

theorem sortMembers_append (ms : List (String × Json)) (m : String × Json) :
    sortMembers (ms ++ [m]) = Table.insertEntry m.1 m.2 (sortMembers ms) := by
  rw [sortMembers, List.foldl_append, List.foldl_cons, List.foldl_nil, sortMembers]

/-- The sorted members increase, and hold the values of the map. -/
theorem sortMembers_spec (ms : List (String × Json)) :
    KeysIncrease (sortMembers ms) ∧ ∀ k, (sortMembers ms).lookup k = member? ms k := by
  induction ms using List.reverseRecOn with
  | nil => exact ⟨.nil, fun _ => rfl⟩
  | append_singleton ms m ih =>
    obtain ⟨increasing, values⟩ := ih
    rw [sortMembers_append]
    refine ⟨Table.increasing_insertEntry _ _ _ increasing, fun k => ?_⟩
    rw [member?_append]
    by_cases same : k = m.1
    · rw [if_pos same, same, Table.lookup_insertEntry_self]
    · rw [if_neg same, Table.lookup_insertEntry_of_ne same, values]

/-- Maps with the same values are listed alike. -/
theorem sortMembers_congr {ms ns : List (String × Json)}
    (same : ∀ k, member? ms k = member? ns k) : sortMembers ms = sortMembers ns := by
  obtain ⟨increasing, values⟩ := sortMembers_spec ms
  obtain ⟨increasing', values'⟩ := sortMembers_spec ns
  have tables : (⟨_, increasing⟩ : Table Json) = ⟨_, increasing'⟩ := Table.ext_find? fun k => by
    rw [Table.find?, Table.find?, values, values', same]
  exact congrArg Table.entries tables

theorem mem_sortMembers {m : String × Json} (inside : m ∈ sortMembers ms) : m ∈ ms := by
  obtain ⟨increasing, values⟩ := sortMembers_spec ms
  have found := (Table.mem_entries_iff (t := ⟨_, increasing⟩)).mp inside
  rw [Table.find?, values] at found
  exact mem_of_member? found

/-- Sorting members that are sorted changes nothing. -/
theorem sortMembers_sorted (increasing : KeysIncrease ms) : sortMembers ms = ms := by
  induction ms using List.reverseRecOn with
  | nil => rfl
  | append_singleton ms m ih =>
    obtain ⟨before, -, greater⟩ := List.pairwise_append.mp increasing
    rw [sortMembers_append, ih before]
    clear ih increasing
    induction ms with
    | nil => rfl
    | cons n ms ih =>
      have less : n.1 < m.1 := greater n List.mem_cons_self m (List.mem_singleton_self m)
      have different : m.1 ≠ n.1 := fun same => String.lt_irrefl _ (same ▸ less)
      rw [List.cons_append, Table.insertEntry, if_neg (String.lt_asymm less), if_neg different,
        ih (List.pairwise_cons.mp before).2 fun n' inside => greater n' (List.mem_cons_of_mem _ inside)]

/-! ## Canonical forms -/

theorem canonical_array (vs : List Json) : canonical (.array vs) = .array (vs.map canonical) := by
  rw [canonical, canonicalAll_eq_map]

theorem canonical_object (ms : List (String × Json)) :
    canonical (.object ms) = .object (sortMembers (ms.map fun m => (m.1, m.2.canonical))) := by
  rw [canonical, canonicalMembers_eq_map]

theorem Same.canonical (same : Same v w) : v.canonical = w.canonical := by
  induction same with
  | null | bool | integer | float | text => rfl
  | @array vs ws length _ ih =>
    rw [canonical_array, canonical_array]
    refine congrArg _ (List.ext_getElem (by simpa using length) fun i inside inside' => ?_)
    rw [List.length_map] at inside inside'
    rw [List.getElem_map, List.getElem_map]
    exact ih i _ _ (List.getElem?_eq_getElem inside) (List.getElem?_eq_getElem inside')
  | @object ms ns keys _ ih =>
    rw [canonical_object, canonical_object]
    refine congrArg _ (sortMembers_congr fun k => ?_)
    rw [member?_map, member?_map]
    cases found : member? ms k with
    | none => rw [(keys k).mp found]
    | some v =>
      cases found' : member? ns k with
      | none => exact absurd ((keys k).mpr found') (by simp [found])
      | some w => exact congrArg some (ih k v w found found')

theorem Same.of_canonical : ∀ {v w : Json}, v.canonical = w.canonical → Same v w
  | .null, w, same => by
    cases w with
    | null => exact .null
    | bool | integer | float | text | array | object => simp [Json.canonical] at same
  | .bool b, w, same => by
    cases w with
    | bool => rw [Json.bool.inj same]; exact .bool _
    | null | integer | float | text | array | object => simp [Json.canonical] at same
  | .integer n, w, same => by
    cases w with
    | integer => rw [Json.integer.inj same]; exact .integer _
    | null | bool | float | text | array | object => simp [Json.canonical] at same
  | .float x, w, same => by
    cases w with
    | float => rw [Json.float.inj same]; exact .float _
    | null | bool | integer | text | array | object => simp [Json.canonical] at same
  | .text s, w, same => by
    cases w with
    | text => rw [Json.text.inj same]; exact .text _
    | null | bool | integer | float | array | object => simp [Json.canonical] at same
  | .array vs, w, same => by
    cases w with
    | array ws =>
      rw [canonical_array, canonical_array, Json.array.injEq] at same
      refine .array (by simpa using congrArg List.length same) fun i v w found found' => ?_
      have item : v.canonical = w.canonical := by
        simpa [found, found'] using congrArg (·[i]?) same
      have inside : v ∈ vs := List.mem_of_getElem? found
      exact Same.of_canonical item
    | null | bool | integer | float | text | object => simp [Json.canonical] at same
  | .object ms, w, same => by
    cases w with
    | object ns =>
      rw [canonical_object, canonical_object, Json.object.injEq] at same
      have values (k : String) :
          (member? ms k).map Json.canonical = (member? ns k).map Json.canonical := by
        rw [← member?_map, ← member?_map, ← (sortMembers_spec _).2, same, (sortMembers_spec _).2]
      refine .object (fun k => ?_) fun k v w found found' => ?_
      · rw [← Option.map_eq_none_iff (f := Json.canonical), values, Option.map_eq_none_iff]
      · have value : v.canonical = w.canonical := by simpa [found, found'] using values k
        have inside : (k, v) ∈ ms := mem_of_member? found
        exact Same.of_canonical value
    | null | bool | integer | float | text | array => simp [Json.canonical] at same
termination_by v => sizeOf v
decreasing_by
  · have := List.sizeOf_lt_of_mem inside
    simp only [Json.array.sizeOf_spec]
    omega
  · have := List.sizeOf_lt_of_mem inside
    simp only [Json.object.sizeOf_spec, Prod.mk.sizeOf_spec] at this ⊢
    omega

/-- Values have one canonical form exactly if they are the same up to the order of
members. -/
theorem same_iff_canonical : Same v w ↔ v.canonical = w.canonical :=
  ⟨Same.canonical, Same.of_canonical⟩

end Discharge.Json
