import Discharge.Oracle
import Discharge.Proofs.Normal.Negation
import Discharge.Proofs.Numeric.Interval

/-! Integrals over an interval taken in the opposite direction. Whether an
interval is refused does not depend on its direction, and the value of the
antiderivative is taken at the same two points, so that only the difference of
the two values is turned round. -/

namespace Discharge

variable {guards : Guards} {e : Expr} {x : String} {a b : LimitPoint} {r : Fraction} {max : Nat}

/-! ## Intervals -/

namespace Interval

variable {i : Interval}

/-- Nothing is asked of the bounds where there is neither a pole nor a logarithm. -/
theorem check_of_regular (noPole : hasPole r x = false) (noLogarithm : hasLogarithm r x = false) :
    i.check r x max = .ok () := by
  rw [check, noPole, noLogarithm]
  rfl

/-- An interval is accepted if its bounds are on one side of every pole, and none
of them is on the negative side of a logarithm. -/
theorem check_of_sides {lower upper : Side} (placedLower : sideOf i.lower max = .ok lower)
    (placedUpper : sideOf i.upper max = .ok upper)
    (apart : hasPole r x = true → lower = upper ∧ lower ≠ .origin)
    (real : hasLogarithm r x = true → lower ≠ .negative ∧ upper ≠ .negative) :
    i.check r x max = .ok () := by
  unfold check
  simp only [placedLower, placedUpper, bind, Except.bind]
  split
  · rfl
  · rw [if_neg, if_neg]
    · rfl
    · grind
    · grind

/-- An interval is accepted in either direction. -/
theorem check_swap (accepted : check ⟨a, b⟩ r x max = .ok ()) : check ⟨b, a⟩ r x max = .ok () := by
  by_cases relevant : hasPole r x = true ∨ hasLogarithm r x = true
  · obtain ⟨lower, upper, placedLower, placedUpper, apart, real⟩ := check_sound accepted relevant
    refine check_of_sides placedUpper placedLower (fun pole => ?_) fun logarithm => (real logarithm).symm
    obtain ⟨same, proper⟩ := apart pole
    exact ⟨same.symm, same ▸ proper⟩
  · simp only [not_or, Bool.not_eq_true] at relevant
    exact check_of_regular relevant.1 relevant.2

end Interval

/-! ## Integrals -/

namespace Oracle

/-- The integral over an interval in canonical form, before it is written as an
expression. -/
def definite (guards : Guards) (e : Expr) (x : String) (i : Interval) : Outcome Fraction := do
  let integrand ← Fraction.ofExpr guards.maxPower e
  let primitive ← integrand.antiderivative x guards.maxPower
  i.check integrand x guards.maxPower
  let upper ← boundValue guards primitive x i.upper
  let lower ← boundValue guards primitive x i.lower
  upper.sub lower

theorem integral_definite (i : Interval) :
    integral guards e x (some i) = (definite guards e x i).map Fraction.toExpr := by
  unfold integral definite
  cases Fraction.ofExpr guards.maxPower e with
  | error f => rfl
  | ok integrand =>
    simp only [bind, Except.bind]
    cases integrand.antiderivative x guards.maxPower with
    | error f => rfl
    | ok primitive =>
      dsimp only
      cases i.check integrand x guards.maxPower with
      | error f => rfl
      | ok _ =>
        dsimp only
        cases boundValue guards primitive x i.upper with
        | error f => rfl
        | ok upper =>
          cases boundValue guards primitive x i.lower with
          | error f => rfl
          | ok lower =>
            dsimp only
            cases upper.sub lower <;> rfl

/-- An integral taken in the opposite direction is the negative. -/
theorem definite_swap (answered : definite guards e x ⟨a, b⟩ = .ok r) :
    definite guards e x ⟨b, a⟩ = .ok r.neg := by
  obtain ⟨integrand, normal, answered⟩ := bind_eq_ok answered
  obtain ⟨primitive, found, answered⟩ := bind_eq_ok answered
  obtain ⟨⟨⟩, accepted, answered⟩ := bind_eq_ok answered
  obtain ⟨upper, above, answered⟩ := bind_eq_ok answered
  obtain ⟨lower, below, difference⟩ := bind_eq_ok answered
  unfold definite
  simp only [normal, found, Interval.check_swap accepted, above, below,
    Fraction.sub_swap.mp difference, bind, Except.bind]

end Oracle

/-- Exchanging the bounds of an integral negates it. Whatever the integrand,
the bounds and the guards, either both integrals are answered, and their
canonical forms have one denominator and opposite numerators, term by term; or
neither of them is. -/
theorem integrate_swap (guards : Guards) (e : Expr) (x : String) (a b : LimitPoint) :
    (∃ r s : Fraction,
      Oracle.definite guards e x ⟨a, b⟩ = .ok r ∧ Oracle.definite guards e x ⟨b, a⟩ = .ok s ∧
      (Oracle.exact guards).integrate e x (some ⟨a, b⟩) = .ok r.toExpr ∧
      (Oracle.exact guards).integrate e x (some ⟨b, a⟩) = .ok s.toExpr ∧
      s.den = r.den ∧ s.num.terms = r.num.terms.map fun t => (t.1, -t.2)) ∨
    ((∃ f, (Oracle.exact guards).integrate e x (some ⟨a, b⟩) = .error f) ∧
      ∃ f, (Oracle.exact guards).integrate e x (some ⟨b, a⟩) = .error f) := by
  simp only [Oracle.exact, Oracle.integral_definite]
  cases forward : Oracle.definite guards e x ⟨a, b⟩ with
  | ok r =>
    refine .inl ⟨r, r.neg, rfl, Oracle.definite_swap forward, rfl, ?_, rfl, Poly.neg_terms r.num⟩
    rw [Oracle.definite_swap forward]
    rfl
  | error f =>
    cases backward : Oracle.definite guards e x ⟨b, a⟩ with
    | ok s =>
      have answered := Oracle.definite_swap backward
      rw [forward] at answered
      cases answered
    | error g => exact .inr ⟨⟨f, rfl⟩, g, rfl⟩

example : (Oracle.exact {}).integrate (.symbol "x") "x"
    (some ⟨.finite (.number 1), .finite (.number 0)⟩) = .ok (.number (-1 / 2)) := by decide_cbv

end Discharge
