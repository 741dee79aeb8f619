import Mathlib.Tactic.IntervalCases
import Discharge.Document.Json.Reader

/-! A quoted string is read back as it was. Every character is written as itself
or as one escape, and each of them is read as one unit that is no half of a
surrogate pair, so the units join to the characters again. -/

namespace Discharge.JsonReader

/-- The units stand for the characters, none of them for half of a pair. -/
inductive Spells : List Piece → List Char → Prop
  | nil : Spells [] []
  | char (c : Char) {ps : List Piece} {cs : List Char} : Spells ps cs →
    Spells (.char c :: ps) (c :: cs)
  | unit {n : Nat} {ps : List Piece} {cs : List Char} : n < 0xD800 → Spells ps cs →
    Spells (.unit n :: ps) (Char.ofNat n :: cs)

variable {ps : List Piece} {cs rest : List Char} {c : Char} {n : Nat}

theorem Spells.joinPieces (spells : Spells ps cs) : joinPieces ps = some cs := by
  induction spells with
  | nil => rfl
  | char c _ ih =>
    rw [JsonReader.joinPieces, ih]
    rfl
  | @unit n ps cs small _ ih =>
    have single : isHighSurrogate n = false ∧ isLowSurrogate n = false := by
      simp only [isHighSurrogate, isLowSurrogate, Bool.and_eq_false_iff, decide_eq_false_iff_not]
      omega
    cases ps with
    | nil =>
      cases ih
      simp [JsonReader.joinPieces, single]
    | cons p ps =>
      cases p with
      | char d => simpa [JsonReader.joinPieces, single] using ih
      | unit m => simp [JsonReader.joinPieces, single, ih]

/-- The characters are read as the units, up to the quote that closes them. -/
def Body (cs : List Char) (ps : List Piece) (rest : List Char) : Prop :=
  ∃ shorter, stringBody cs = some (ps, ⟨rest, shorter⟩)

theorem body_close (rest : List Char) : Body ('"' :: rest) [] rest :=
  ⟨_, by rw [stringBody]⟩

theorem Body.escape {d : Char} (known : escaped? c = some d) (body : Body cs ps rest) :
    Body ('\\' :: c :: cs) (.char d :: ps) rest := by
  obtain ⟨shorter, read⟩ := body
  refine ⟨?_, ?_⟩
  · simp only [List.length_cons]
    omega
  · rw [stringBody]
    · simp [known, read]
    · rintro a b c' d' tail rfl -
      cases known

theorem Body.plain (visible : ¬ c.toNat < 0x20) (quote : c ≠ '"') (slash : c ≠ '\\')
    (body : Body cs ps rest) : Body (c :: cs) (.char c :: ps) rest := by
  obtain ⟨shorter, read⟩ := body
  refine ⟨?_, ?_⟩
  · simp only [List.length_cons]
    omega
  · rw [stringBody]
    · simp [visible, slash, read]
    · exact quote
    · rintro a b c' d' tail rfl
      exact absurd rfl slash
    · rintro e tail rfl
      exact absurd rfl slash

theorem hexValue?_hexDigit (small : n < 16) : hexValue? (Json.hexDigit n) = some n := by
  interval_cases n <;> decide

theorem Body.control (small : n < 0x20) (body : Body cs ps rest) :
    Body ('\\' :: 'u' :: '0' :: '0' :: Json.hexDigit (n / 16) :: Json.hexDigit (n % 16) :: cs)
      (.unit n :: ps) rest := by
  obtain ⟨shorter, read⟩ := body
  refine ⟨?_, ?_⟩
  · simp only [List.length_cons]
    omega
  · have zero : hexValue? '0' = some 0 := by decide
    have high : hexValue? (Json.hexDigit (n / 16)) = some (n / 16) :=
      hexValue?_hexDigit (by omega)
    have low : hexValue? (Json.hexDigit (n % 16)) = some (n % 16) :=
      hexValue?_hexDigit (by omega)
    have value : n / 16 * 16 + n % 16 = n := by omega
    rw [stringBody]
    simp [hex4?, zero, high, low, read, value]

/-- One character as it is written. -/
theorem body_escapeChar (c : Char) {spelled : List Char} (body : Body cs ps rest)
    (spells : Spells ps spelled) :
    ∃ ps', Body (Json.escapeChar c ++ cs) ps' rest ∧ Spells ps' (c :: spelled) := by
  unfold Json.escapeChar
  split_ifs with quote slash backspace feed line carriage tab control
  · subst quote
    exact ⟨_, body.escape rfl, .char _ spells⟩
  · subst slash
    exact ⟨_, body.escape rfl, .char _ spells⟩
  · subst backspace
    exact ⟨_, body.escape rfl, .char _ spells⟩
  · subst feed
    exact ⟨_, body.escape rfl, .char _ spells⟩
  · subst line
    exact ⟨_, body.escape rfl, .char _ spells⟩
  · subst carriage
    exact ⟨_, body.escape rfl, .char _ spells⟩
  · subst tab
    exact ⟨_, body.escape rfl, .char _ spells⟩
  · have spelled' := Spells.unit (n := c.toNat) (by omega) spells
    rw [Char.ofNat_toNat] at spelled'
    exact ⟨_, body.control control, spelled'⟩
  · exact ⟨_, body.plain control quote slash, .char c spells⟩

theorem body_flatMap (cs rest : List Char) :
    ∃ ps, Body (cs.flatMap Json.escapeChar ++ '"' :: rest) ps rest ∧ Spells ps cs := by
  induction cs with
  | nil => exact ⟨[], body_close rest, .nil⟩
  | cons c cs ih =>
    obtain ⟨ps, body, spells⟩ := ih
    rw [List.flatMap_cons, List.append_assoc]
    exact body_escapeChar c body spells

/-- A quoted string is read as the string. -/
theorem read?_quote (s : String) : read? (Json.quote s) = some (.text s) := by
  obtain ⟨ps, ⟨shorter, read⟩, spells⟩ := body_flatMap s.toList []
  have list : (Json.quote s).toList = '"' :: (s.toList.flatMap Json.escapeChar ++ ['"']) := by
    simp [Json.quote]
  have whole : ofPieces ps = .text s := by
    rw [ofPieces, spells.joinPieces]
    simp
  have start (tail : List Char) :
      next ('"' :: tail) = some ('"', ⟨tail, Nat.lt_succ_self _⟩) := by
    rw [next]
    rfl
  obtain ⟨shorter', parsed⟩ : ∃ shorter', value (Json.quote s).toList =
      some (.text s, ⟨[], shorter'⟩) := by
    rw [list]
    refine ⟨by simp, ?_⟩
    rw [value, start]
    simp [read, whole]
  rw [read?, parsed]
  simp [next]

end Discharge.JsonReader
