import Mathlib
import Discharge.Report
import Discharge.Proofs.Document.Layout
import Discharge.Proofs.Document.Members

/-! The canonical encoding of a value. What is written, without blanks or over
several lines, is read back as the value with the members of its objects in the
order of their keys; so the bytes of two values agree exactly if the values are the
same up to the order of members, and a recorded content address stands for one
value. -/

namespace Discharge.Json

/-- No floating point number, every integer in 64 bits, signed or unsigned, and at
most `depth` containers around a scalar. -/
inductive Fits : Nat → Json → Prop
  | null (depth : Nat) : Fits depth .null
  | bool (depth : Nat) (b : Bool) : Fits depth (.bool b)
  | integer (depth : Nat) {n : Int} (low : -(2 ^ 63) ≤ n) (high : n < 2 ^ 64) :
      Fits depth (.integer n)
  | text (depth : Nat) (s : String) : Fits depth (.text s)
  | array {depth : Nat} {vs : List Json} (items : ∀ v ∈ vs, Fits depth v) :
      Fits (depth + 1) (.array vs)
  | object {depth : Nat} {ms : List (String × Json)} (values : ∀ m ∈ ms, Fits depth m.2) :
      Fits (depth + 1) (.object ms)

/-- The value that a text is read as. -/
def ofText? (text : String) : Option Json := (JsonReader.read? text).bind Datum.toJson?

variable {v w : Json} {depth : Nat} {vs : List Json} {ms : List (String × Json)}

/-! ## Reading what was written -/

/-- The text is read as the value where that many containers are accepted. -/
def Stands (depth : Nat) (text : String) (v : Json) : Prop :=
  ∃ d, JsonReader.Writes text.toList d ∧ Datum.toJsonAt depth d = some v

theorem stands_items (f : Json → String) (each : ∀ v ∈ vs, Stands depth (f v) v) :
    ∃ ds, List.Forall₂ JsonReader.Writes ((vs.map f).map String.toList) ds ∧
      Datum.toJsonAll depth ds = some vs := by
  induction vs with
  | nil => exact ⟨[], .nil, rfl⟩
  | cons v vs ih =>
    obtain ⟨d, written, read⟩ := each v List.mem_cons_self
    obtain ⟨ds, writtens, reads⟩ := ih fun v inside => each v (List.mem_cons_of_mem _ inside)
    exact ⟨d :: ds, .cons written writtens, by simp [Datum.toJsonAll, read, reads]⟩

theorem stands_members (colon : String) {ws : List Char} (list : colon.toList = ':' :: ws)
    (blanks : JsonReader.Blanks ws) (f : Json → String)
    (each : ∀ m ∈ ms, Stands depth (f m.2) m.2) :
    ∃ es, List.Forall₂ JsonReader.WritesMember
        ((ms.map fun m => quote m.1 ++ colon ++ f m.2).map String.toList) es ∧
      Datum.toJsonMembers depth es = some ms := by
  induction ms with
  | nil => exact ⟨[], .nil, rfl⟩
  | cons m ms ih =>
    obtain ⟨d, written, read⟩ := each m List.mem_cons_self
    obtain ⟨es, writtens, reads⟩ := ih fun m inside => each m (List.mem_cons_of_mem _ inside)
    have text : (quote m.1 ++ colon ++ f m.2).toList =
        (quote m.1).toList ++ ':' :: (ws ++ (f m.2).toList) := by simp [list]
    have member := JsonReader.writesMember_quote m.1 blanks written
    rw [← text] at member
    exact ⟨(.text m.1, d) :: es, .cons member writtens,
      by simp [Datum.toJsonMembers, read, reads]⟩

theorem compactAll_eq_map (vs : List Json) : compactAll vs = vs.map compact := by
  induction vs with
  | nil => rfl
  | cons v vs ih => rw [compactAll, ih, List.map_cons]

theorem compactMembers_eq_map (ms : List (String × Json)) :
    compactMembers ms = ms.map fun m => quote m.1 ++ ":" ++ compact m.2 := by
  induction ms with
  | nil => rfl
  | cons m ms ih =>
    obtain ⟨k, v⟩ := m
    rw [compactMembers, ih, List.map_cons]

theorem prettyAll_eq_map (level : Nat) (vs : List Json) :
    prettyAll level vs = vs.map (prettyAt level) := by
  induction vs with
  | nil => rfl
  | cons v vs ih => rw [prettyAll, ih, List.map_cons]

theorem prettyMembers_eq_map (level : Nat) (ms : List (String × Json)) :
    prettyMembers level ms = ms.map fun m => quote m.1 ++ ": " ++ prettyAt level m.2 := by
  induction ms with
  | nil => rfl
  | cons m ms ih =>
    obtain ⟨k, v⟩ := m
    rw [prettyMembers, ih, List.map_cons]

theorem blanks_newline (level : Nat) : JsonReader.Blanks (newline level).toList := by
  intro c inside
  have characters : c = '\n' ∨ c ∈ List.replicate (2 * level) ' ' := by
    simpa [newline] using inside
  obtain rfl | blank := characters
  · rfl
  · rw [List.eq_of_mem_replicate blank]
    rfl

theorem stands_compact (fits : Fits depth v) : Stands depth v.compact v := by
  induction fits with
  | null => exact ⟨_, JsonReader.writes_null, rfl⟩
  | bool _ b => exact ⟨_, JsonReader.writes_bool b, rfl⟩
  | integer _ low high => exact ⟨_, JsonReader.writes_integer low high, rfl⟩
  | text _ s => exact ⟨_, JsonReader.writes_quote s, rfl⟩
  | @array depth vs _ ih =>
    obtain ⟨ds, written, read⟩ := stands_items compact ih
    refine ⟨.sequence ds, ?_, by rw [Datum.toJsonAt, read]; rfl⟩
    rw [compact, compactAll_eq_map, String.toList_append, String.toList_append,
      String.toList_intercalate]
    exact JsonReader.writes_sequence JsonReader.blanks_nil JsonReader.blanks_nil written
  | @object depth ms _ ih =>
    obtain ⟨es, written, read⟩ := stands_members ":" rfl JsonReader.blanks_nil compact ih
    refine ⟨.mapping es, ?_, by rw [Datum.toJsonAt, read]; rfl⟩
    rw [compact, compactMembers_eq_map, String.toList_append, String.toList_append,
      String.toList_intercalate]
    exact JsonReader.writes_mapping JsonReader.blanks_nil JsonReader.blanks_nil written

theorem stands_prettyAt (fits : Fits depth v) (level : Nat) :
    Stands depth (v.prettyAt level) v := by
  induction fits generalizing level with
  | null => exact ⟨_, JsonReader.writes_null, rfl⟩
  | bool _ b => exact ⟨_, JsonReader.writes_bool b, rfl⟩
  | integer _ low high => exact ⟨_, JsonReader.writes_integer low high, rfl⟩
  | text _ s => exact ⟨_, JsonReader.writes_quote s, rfl⟩
  | @array depth vs _ ih =>
    obtain ⟨ds, written, read⟩ :=
      stands_items (prettyAt (level + 1)) fun v inside => ih v inside (level + 1)
    refine ⟨.sequence ds, ?_, by rw [Datum.toJsonAt, read]; rfl⟩
    cases vs with
    | nil =>
      cases written
      rw [prettyAt]
      exact JsonReader.writes_sequence JsonReader.blanks_nil JsonReader.blanks_nil .nil
    | cons v vs =>
      have whole := JsonReader.writes_sequence (blanks_newline (level + 1))
        (blanks_newline level) written
      rw [prettyAt, prettyAll_eq_map]
      · simp only [String.toList_append, String.toList_intercalate, List.append_assoc]
        exact whole
      · intro empty
        cases empty
  | @object depth ms _ ih =>
    obtain ⟨es, written, read⟩ := stands_members ": " (show ": ".toList = [':', ' '] from rfl)
      (by simp [JsonReader.Blanks, JsonReader.isBlank]) (prettyAt (level + 1))
      fun m inside => ih m inside (level + 1)
    refine ⟨.mapping es, ?_, by rw [Datum.toJsonAt, read]; rfl⟩
    cases ms with
    | nil =>
      cases written
      rw [prettyAt]
      exact JsonReader.writes_mapping JsonReader.blanks_nil JsonReader.blanks_nil .nil
    | cons m ms =>
      have whole := JsonReader.writes_mapping (blanks_newline (level + 1))
        (blanks_newline level) written
      rw [prettyAt, prettyMembers_eq_map]
      · simp only [String.toList_append, String.toList_intercalate, List.append_assoc]
        exact whole
      · intro empty
        cases empty

theorem Stands.ofText? {text : String} (stands : Stands Datum.maxDepth text v) :
    ofText? text = some v := by
  obtain ⟨d, written, read⟩ := stands
  rw [Json.ofText?, written.read?]
  exact read

/-! ## The canonical encoding -/

theorem Fits.canonical (fits : Fits depth v) : Fits depth v.canonical := by
  induction fits with
  | null depth => exact .null depth
  | bool depth b => exact .bool depth b
  | integer depth low high => exact .integer depth low high
  | text depth s => exact .text depth s
  | array _ ih =>
    rw [canonical_array]
    refine .array fun v inside => ?_
    obtain ⟨item, member, rfl⟩ := List.mem_map.mp inside
    exact ih item member
  | object _ ih =>
    rw [canonical_object]
    refine .object fun m inside => ?_
    obtain ⟨entry, member, rfl⟩ := List.mem_map.mp (mem_sortMembers inside)
    exact ih entry member

theorem canonical_canonical (fits : Fits depth v) : v.canonical.canonical = v.canonical := by
  induction fits with
  | null | bool | integer | text => rfl
  | @array _ vs _ ih =>
    rw [canonical_array, canonical_array, List.map_map]
    exact congrArg _ (List.map_congr_left ih)
  | @object _ ms _ ih =>
    have settled {m : String × Json}
        (inside : m ∈ sortMembers (ms.map fun m => (m.1, m.2.canonical))) :
        (m.1, m.2.canonical) = m := by
      obtain ⟨entry, member, rfl⟩ := List.mem_map.mp (mem_sortMembers inside)
      rw [ih entry member]
    rw [canonical_object, canonical_object, List.map_congr_left (g := id) fun m => settled,
      List.map_id, sortMembers_sorted (sortMembers_spec _).1]

/-- The canonical form is the same value. -/
theorem same_canonical (fits : Fits depth v) : Same v.canonical v :=
  same_iff_canonical.mpr (canonical_canonical fits)

/-- The canonical text is read back as the canonical form. -/
theorem ofText?_canonicalText (fits : Fits Datum.maxDepth v) :
    ofText? v.canonicalText = some v.canonical :=
  (stands_compact fits.canonical).ofText?

/-- The form over several lines is read back as the canonical form. -/
theorem ofText?_prettyText (fits : Fits Datum.maxDepth v) :
    ofText? v.prettyText = some v.canonical :=
  (stands_prettyAt fits.canonical 0).ofText?

/-- Equal bytes are equal canonical forms. -/
theorem canonicalText_inj (fits : Fits Datum.maxDepth v) (fits' : Fits Datum.maxDepth w) :
    v.canonicalText.toUTF8 = w.canonicalText.toUTF8 ↔ v.canonical = w.canonical := by
  refine ⟨fun same => ?_, fun same => by rw [canonicalText, canonicalText, same]⟩
  have text : v.canonicalText = w.canonicalText := String.toByteArray_inj.mp same
  refine Option.some.inj ?_
  rw [← ofText?_canonicalText fits, ← ofText?_canonicalText fits', text]

/-- The canonical encoding is faithful and free of order. Both the canonical text and
the form over several lines are read back as the value, up to the order of members,
and what was read is written in the same bytes again; two values have the same bytes
exactly if they are the same up to the order of members at any depth, and then they
have one content address. -/
theorem canonical_encoding (fits : Fits Datum.maxDepth v) (fits' : Fits Datum.maxDepth w) :
    (∃ v', ofText? v.canonicalText = some v' ∧ Same v' v ∧
      v'.canonicalText.toUTF8 = v.canonicalText.toUTF8) ∧
    (∃ v', ofText? v.prettyText = some v' ∧ Same v' v ∧
      v'.canonicalText.toUTF8 = v.canonicalText.toUTF8) ∧
    (v.canonicalText.toUTF8 = w.canonicalText.toUTF8 ↔ Same v w) ∧
    (Same v w → v.address = w.address) := by
  have again : v.canonical.canonicalText = v.canonicalText := by
    rw [canonicalText, canonical_canonical fits, canonicalText]
  refine ⟨⟨v.canonical, ofText?_canonicalText fits, same_canonical fits, by rw [again]⟩,
    ⟨v.canonical, ofText?_prettyText fits, same_canonical fits, by rw [again]⟩,
    (canonicalText_inj fits fits').trans same_iff_canonical.symm, fun same => ?_⟩
  rw [address, address, canonicalText, canonicalText, same.canonical]

/-- An object in an array in an object, with a control character, a quote, a letter
beyond ASCII, and integers at both ends of their range. -/
def nestedRecord : Json :=
  .object [("β\"", .array [.object [("y", .null), ("x", .integer (-(2 ^ 63)))], .array []]),
    ("a", .text "é\n\x01"), ("n", .integer (2 ^ 64 - 1)), ("f", .bool false)]

/-- The same members in another order. -/
def nestedRecordReordered : Json :=
  .object [("f", .bool false), ("n", .integer (2 ^ 64 - 1)), ("a", .text "é\n\x01"),
    ("β\"", .array [.object [("x", .integer (-(2 ^ 63))), ("y", .null)], .array []])]

theorem fits_nestedRecord :
    Fits Datum.maxDepth nestedRecord ∧ Fits Datum.maxDepth nestedRecordReordered := by
  constructor
  · refine .object ?_
    simp only [List.forall_mem_cons, List.not_mem_nil, false_imp_iff, implies_true, and_true]
    refine ⟨.array ?_, .text _ _, .integer _ (by norm_num) (by norm_num), .bool _ _⟩
    simp only [List.forall_mem_cons, List.not_mem_nil, false_imp_iff, implies_true, and_true]
    refine ⟨.object ?_, .array nofun⟩
    simp only [List.forall_mem_cons, List.not_mem_nil, false_imp_iff, implies_true, and_true]
    exact ⟨.null _, .integer _ (by norm_num) (by norm_num)⟩
  · refine .object ?_
    simp only [List.forall_mem_cons, List.not_mem_nil, false_imp_iff, implies_true, and_true]
    refine ⟨.bool _ _, .integer _ (by norm_num) (by norm_num), .text _ _, .array ?_⟩
    simp only [List.forall_mem_cons, List.not_mem_nil, false_imp_iff, implies_true, and_true]
    refine ⟨.object ?_, .array nofun⟩
    simp only [List.forall_mem_cons, List.not_mem_nil, false_imp_iff, implies_true, and_true]
    exact ⟨.integer _ (by norm_num) (by norm_num), .null _⟩

theorem canonical_encoding_nestedRecord :
    Fits Datum.maxDepth nestedRecord ∧ Fits Datum.maxDepth nestedRecordReordered ∧
      Same nestedRecord nestedRecordReordered ∧
      nestedRecord.canonicalText.toUTF8 = nestedRecordReordered.canonicalText.toUTF8 ∧
      nestedRecord.address = nestedRecordReordered.address := by
  obtain ⟨fits, fits'⟩ := fits_nestedRecord
  obtain ⟨-, -, bytes, address⟩ := canonical_encoding fits fits'
  have same : Same nestedRecord nestedRecordReordered := by
    refine same_iff_canonical.mpr ?_
    rfl
  exact ⟨fits, fits', same, bytes.mpr same, address same⟩

end Discharge.Json
