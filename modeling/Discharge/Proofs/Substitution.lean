import Discharge.Proofs.Interpretation
import Discharge.Proofs.Subterm

/-! Substitution in trees. Putting an expression in the place of a symbol
exchanges the symbol for those of the expression, and keeps the value where the
two have the same value. The value of a tree depends on its free symbols only. -/

namespace Discharge

/-- The interpretation with other values of the symbols. -/
def Interpretation.withSymbols {K : Type*} (I : Interpretation K) (σ : String → K) :
    Interpretation K :=
  { I with symbol := σ }

namespace Expr

variable {s u : String} {v : Expr}

/-! ## Symbols -/

mutual
theorem mem_occurrences_substitute : ∀ e : Expr, u ∈ (e.substitute s v).occurrences ↔
    u ∈ e.occurrences ∧ u ≠ s ∨ s ∈ e.occurrences ∧ u ∈ v.occurrences
  | .number _ => by simp [substitute, occurrences]
  | .constant _ => by simp [substitute, occurrences]
  | .symbol t => by
    rw [substitute]
    split
    · rename_i same
      simp [occurrences, same]
    · rename_i different
      simp only [occurrences, List.mem_singleton]
      grind
  | .sum xs => by simpa only [substitute, occurrences] using mem_occurrencesAll_substitute xs
  | .product xs => by simpa only [substitute, occurrences] using mem_occurrencesAll_substitute xs
  | .power b e => by
    have base := mem_occurrences_substitute b
    have exponent := mem_occurrences_substitute e
    simp only [substitute, occurrences, List.mem_append]
    grind
  | .apply _ x => by simpa only [substitute, occurrences] using mem_occurrences_substitute x

theorem mem_occurrencesAll_substitute : ∀ xs : List Expr,
    u ∈ occurrencesAll (substituteAll xs s v) ↔
      u ∈ occurrencesAll xs ∧ u ≠ s ∨ s ∈ occurrencesAll xs ∧ u ∈ v.occurrences
  | [] => by simp [substituteAll, occurrencesAll]
  | x :: xs => by
    have head := mem_occurrences_substitute x
    have tail := mem_occurrencesAll_substitute xs
    simp only [substituteAll, occurrencesAll, List.mem_append]
    grind
end

/-- Substituting exchanges the symbol for the symbols of what is put in. -/
theorem mem_symbols_substitute {e : Expr} : u ∈ (e.substitute s v).symbols ↔
    u ∈ e.symbols ∧ u ≠ s ∨ s ∈ e.symbols ∧ u ∈ v.symbols := by
  simp only [mem_symbols, mem_occurrences_substitute]

/-! ## Values -/

section Value

variable {K : Type*} [Field K] {I : Interpretation K} {σ τ : String → K}

mutual
theorem value_eq_of_occurrences : ∀ e : Expr, (∀ u ∈ e.occurrences, σ u = τ u) →
    e.value (I.withSymbols σ) = e.value (I.withSymbols τ)
  | .number _, _ => by simp
  | .constant _, _ => by simp [Interpretation.withSymbols]
  | .symbol t, same => by simpa [occurrences, Interpretation.withSymbols] using same
  | .sum xs, same => by
    rw [occurrences] at same
    rw [value_sum, value_sum, values_eq_of_occurrences xs same]
  | .product xs, same => by
    rw [occurrences] at same
    rw [value_product, value_product, values_eq_of_occurrences xs same]
  | .power b e, same => by
    rw [occurrences] at same
    rw [value_power, value_power,
      value_eq_of_occurrences b fun u member => same u (List.mem_append_left _ member),
      value_eq_of_occurrences e fun u member => same u (List.mem_append_right _ member)]
    rfl
  | .apply _ x, same => by
    rw [occurrences] at same
    rw [value_apply, value_apply, value_eq_of_occurrences x same]
    rfl

theorem values_eq_of_occurrences : ∀ xs : List Expr, (∀ u ∈ occurrencesAll xs, σ u = τ u) →
    values (I.withSymbols σ) xs = values (I.withSymbols τ) xs
  | [], _ => by simp
  | x :: xs, same => by
    rw [occurrencesAll] at same
    rw [values_cons, values_cons,
      value_eq_of_occurrences x fun u member => same u (List.mem_append_left _ member),
      values_eq_of_occurrences xs fun u member => same u (List.mem_append_right _ member)]
end

/-- Only the values of the free symbols matter. -/
theorem value_congr {e : Expr} (same : ∀ u ∈ e.symbols, σ u = τ u) :
    e.value (I.withSymbols σ) = e.value (I.withSymbols τ) :=
  value_eq_of_occurrences e fun u member => same u (mem_symbols.mpr member)

mutual
/-- A symbol may be replaced by an expression of its value. -/
theorem value_substitute (same : I.symbol s = v.value I) : ∀ e : Expr,
    (e.substitute s v).value I = e.value I
  | .number _ => by simp [substitute]
  | .constant _ => by simp [substitute]
  | .symbol t => by
    rw [substitute]
    split
    · rename_i equal
      rw [equal, value_symbol, same]
    · rfl
  | .sum xs => by rw [substitute, value_sum, value_sum, values_substituteAll same xs]
  | .product xs => by rw [substitute, value_product, value_product, values_substituteAll same xs]
  | .power b e => by
    rw [substitute, value_power, value_power, value_substitute same b,
      value_substitute same e]
  | .apply _ x => by rw [substitute, value_apply, value_apply, value_substitute same x]

theorem values_substituteAll (same : I.symbol s = v.value I) : ∀ xs : List Expr,
    values I (substituteAll xs s v) = values I xs
  | [] => by simp [substituteAll]
  | x :: xs => by
    rw [substituteAll, values_cons, values_cons, value_substitute same x,
      values_substituteAll same xs]
end

end Value

end Expr

end Discharge
