import Discharge.Proofs.Text.Printing

/-! Writing an expression and reading it again keeps its value. -/

namespace Discharge

namespace Expr

variable {e : Expr}

/-- The expressions have the same value in every field of characteristic zero,
whatever the symbols, constants and functions are. -/
def SameValue.{u} (a b : Expr) : Prop :=
  ∀ (K : Type u) [Field K] [CharZero K] (I : Interpretation K), I.Reciprocal →
    a.value I = b.value I

theorem parse_eq_ok {text : String} : parse text = .ok e ↔ Parser.parse text = .ok e := by
  unfold parse
  cases Parser.parse text <;> simp [Except.mapError]

end Expr

/-- Rationals with powers that only know the sign of the exponent. -/
def Interpretation.signed : Interpretation ℚ where
  symbol _ := 0
  constant _ := 0
  apply _ x := x
  pow x y := if 0 < y then x else x⁻¹

theorem Interpretation.signed_reciprocal : Interpretation.signed.Reciprocal where
  pow_one x := by simp [signed]
  pow_neg x q positive := by
    have negative : ¬ (0 : ℚ) < -q := not_lt.mpr (neg_nonpos.mpr positive.le)
    simp [signed, positive, negative]

namespace Parser

/-- What becomes of the written form, under one interpretation. -/
theorem parse_render {K : Type*} [Field K] [CharZero K] {I : Interpretation K}
    (laws : I.Reciprocal) (e : Expr) (names : ∀ s ∈ e.symbols, isName s = true) :
    (∃ e', Expr.parse e.render = .ok e' ∧ e'.value I = e.value I) ∨
      Unsafe e ∧ ∃ offset, Expr.parse e.render =
        .error (.parse offset "division by literal zero") := by
  obtain ⟨r, summed⟩ := (written laws e fun s inside =>
    names s (Expr.mem_symbols_of_subterm inside)).summed
  have agrees := summed.agrees
  have parses := summed.parses
  cases r with
  | some e' => exact .inl ⟨e', Expr.parse_eq_ok.mpr parses, agrees.value e' rfl⟩
  | none =>
    obtain ⟨offset, failed⟩ := parses
    refine .inr ⟨agrees.excused rfl, offset, ?_⟩
    rw [Expr.parse, failed]
    rfl

/-- What is written for an expression is read as an expression of the same value,
unless a base of a negative literal power is written as the literal zero is.
Then the division by a literal zero may be refused, and nothing else goes
wrong. -/
theorem render_round_trip.{u} (e : Expr) (names : ∀ s ∈ e.symbols, isName s = true) :
    ((¬ ∃ b q, Expr.Subterm (.power b (.number q)) e ∧ q < 0 ∧
        Expr.parse b.render = .ok (.number 0)) →
      ∃ e', Expr.parse e.render = .ok e' ∧ e'.SameValue.{u} e) ∧
    ((∃ e', Expr.parse e.render = .ok e' ∧ e'.SameValue.{u} e) ∨
      ∃ offset, Expr.parse e.render = .error (.parse offset "division by literal zero")) := by
  -- The text decides what is read, and then every interpretation gives its value.
  have same : ∀ e', Expr.parse e.render = .ok e' → e'.SameValue.{u} e := by
    intro e' read K _ _ I laws
    rcases parse_render laws e names with ⟨e'', read', value⟩ | ⟨-, offset, failed⟩
    · cases read.symm.trans read'
      exact value
    · cases read.symm.trans failed
  rcases parse_render Interpretation.signed_reciprocal e names with
    ⟨e', read, -⟩ | ⟨bad, offset, failed⟩
  · exact ⟨fun _ => ⟨e', read, same e' read⟩, .inl ⟨e', read, same e' read⟩⟩
  · refine ⟨fun safe => absurd ?_ safe, .inr ⟨offset, failed⟩⟩
    obtain ⟨b, q, inside, negative, zero⟩ := bad
    exact ⟨b, q, inside, negative, Expr.parse_eq_ok.mpr zero⟩

/-- `x - 3/(2*(y + 1)^2)`. -/
def writtenQuotient : Expr :=
  .sum [.symbol "x", .product [.number (-3 / 2), .power (.sum [.symbol "y", .number 1]) (.int (-2))]]

example : writtenQuotient.render = "x - 3/(2*(y + 1)^2)" := by decide +kernel

theorem render_round_trip_writtenQuotient : ∃ e', Expr.parse writtenQuotient.render = .ok e' ∧
    e'.SameValue.{0} writtenQuotient := by
  refine (render_round_trip writtenQuotient (by decide +kernel)).1 ?_
  rintro ⟨b, q, inside, -, zero⟩
  have base : b = .sum [.symbol "y", .number 1] := by
    unfold writtenQuotient at inside
    cases inside with
    | sum member inside =>
      rcases List.mem_pair.mp member with rfl | rfl
      · cases inside
      cases inside with
      | product member inside =>
        rcases List.mem_pair.mp member with rfl | rfl
        · cases inside
        cases inside with
        | refl => rfl
        | base inside =>
          cases inside with
          | sum member inside => rcases List.mem_pair.mp member with rfl | rfl <;> cases inside
        | exponent inside => cases inside
  rw [base] at zero
  revert zero
  decide +kernel

end Parser

end Discharge
