import Discharge.Proofs.Canonical.Factoring
import Discharge.Proofs.Rational.Normalisation
import Discharge.Oracle

/-! The tree of a canonical form denotes its value, and is the literal zero
exactly if that is zero. The distributed and the factored form of a fraction are
the literal zero only for zero. -/

namespace Discharge

open RationalFunction

namespace Expr

variable {a b e num den : Expr} {xs factors exponential : List Expr}
  {f g x y : RationalFunction} {fs : List RationalFunction}

theorem denoteAll_summands (denotes : e.denote = some f) :
    ∃ fs, denoteAll e.summands = some fs ∧ fs.sum = f := by
  cases e with
  | sum xs => exact denote_sum_eq_some.mp denotes
  | _ => exact ⟨[f], denoteAll_singleton_eq_some.mpr ⟨f, denotes, rfl⟩, List.sum_singleton⟩

theorem denoteAll_multiplicands (denotes : e.denote = some f) :
    ∃ fs, denoteAll e.multiplicands = some fs ∧ fs.prod = f := by
  cases e with
  | product xs => exact denote_product_eq_some.mp denotes
  | _ => exact ⟨[f], denoteAll_singleton_eq_some.mpr ⟨f, denotes, rfl⟩, List.prod_singleton⟩

theorem denote_add (left : a.denote = some f) (right : b.denote = some g) :
    (a + b).denote = some (f + g) := by
  obtain ⟨fs, first, rfl⟩ := denoteAll_summands left
  obtain ⟨gs, second, rfl⟩ := denoteAll_summands right
  exact denote_sum_eq_some.mpr
    ⟨fs ++ gs, denoteAll_append_eq_some.mpr ⟨fs, gs, first, second, rfl⟩, List.sum_append⟩

theorem denote_mul (left : a.denote = some f) (right : b.denote = some g) :
    (a * b).denote = some (f * g) := by
  obtain ⟨fs, first, rfl⟩ := denoteAll_multiplicands left
  obtain ⟨gs, second, rfl⟩ := denoteAll_multiplicands right
  exact denote_product_eq_some.mpr
    ⟨fs ++ gs, denoteAll_append_eq_some.mpr ⟨fs, gs, first, second, rfl⟩, List.prod_append⟩

theorem denote_ofFactors (denotes : denoteAll xs = some fs) :
    denote (ofFactors xs) = some fs.prod := by
  unfold ofFactors
  split
  · obtain ⟨f, single, rfl⟩ := denoteAll_singleton_eq_some.mp denotes
    simpa using single
  · exact denote_product_eq_some.mpr ⟨fs, denotes, rfl⟩

theorem denote_ofTerms (denotes : denoteAll xs = some fs) :
    denote (ofTerms xs) = some fs.sum := by
  unfold ofTerms
  split
  · rw [denoteAll_nil] at denotes
    cases denotes
    simp [zero]
  · obtain ⟨f, single, rfl⟩ := denoteAll_singleton_eq_some.mp denotes
    simpa using single
  · exact denote_sum_eq_some.mpr ⟨fs, denotes, rfl⟩

theorem denote_power_of_ne_zero (denotes : denote e = some x) (nonzero : x ≠ 0) (n : Int) :
    denote (.power e (.int n)) = some (x ^ n) := by
  rw [denote_power, denotes, Option.bind_some]
  exact integerPower_eq_some.mpr ⟨fun impossible => nonzero impossible.2, rfl⟩

theorem denote_raised (denotes : denote e = some x) (nonzero : x ≠ 0) (n : Int) :
    denote (e.raised n) = some (x ^ n) := by
  unfold raised
  split
  · rename_i one
    rw [one, zpow_one, denotes]
  · exact denote_power_of_ne_zero denotes nonzero n

theorem denote_ofTerm (c : Rat) (denotes : denoteAll (factors ++ exponential) = some fs) :
    denote (ofTerm c factors exponential) = some (algebraMap ℚ RationalFunction c * fs.prod) := by
  unfold ofTerm
  dsimp only
  split
  · rename_i one
    rw [denote_ofFactors denotes, one.1, map_one, one_mul]
  · have all : denoteAll (.number c :: (factors ++ exponential)) =
        some (algebraMap ℚ RationalFunction c :: fs) :=
      denoteAll_cons_eq_some.mpr ⟨_, fs, denote_number c, denotes, rfl⟩
    rw [denote_ofFactors all, List.prod_cons]

/-- A tree over a denominator denotes the quotient. -/
theorem denote_overDenominator (top : denote num = some x) (bottom : denote den = some y)
    (regular : y ≠ 0) : denote (num.overDenominator den) = some (x / y) := by
  have reciprocal : denoteAll [.power den (.int (-1))] = some [y⁻¹] :=
    denoteAll_singleton_eq_some.mpr
      ⟨y⁻¹, by rw [denote_power_of_ne_zero bottom regular, zpow_neg_one], rfl⟩
  have pair : ∀ {e : Expr}, denote e = some x →
      denote (.product [e, .power den (.int (-1))]) = some (x / y) := fun {e} denotes =>
    denote_product_eq_some.mpr ⟨[x, y⁻¹],
      denoteAll_cons_eq_some.mpr ⟨x, [y⁻¹], denotes, reciprocal, rfl⟩, by simp [div_eq_mul_inv]⟩
  unfold overDenominator
  dsimp only
  split
  · rename_i factors
    obtain ⟨fs, all, rfl⟩ := denote_product_eq_some.mp top
    refine denote_product_eq_some.mpr ⟨fs ++ [y⁻¹], ?_, by simp [div_eq_mul_inv]⟩
    exact denoteAll_append_eq_some.mpr ⟨fs, [y⁻¹], all, reciprocal, rfl⟩
  · split
    · rename_i q one
      rw [denote_number, one, map_one] at top
      cases top
      rw [denote_power_of_ne_zero bottom regular, zpow_neg_one, one_div]
    · exact pair top
  · exact pair top

end Expr

namespace RationalFunction

variable {r : Fraction} {f : RationalFunction} {p : Poly}

/-! ## Trees of canonical forms -/

theorem denoteAll_factorsToExprs {fs : List (Atom × Int)}
    (each : ∀ a ∈ fs, valuation.AdmitsFactor a) :
    ∃ gs, Expr.denoteAll (factorsToExprs fs) = some gs ∧ gs.prod = valuation.factors fs := by
  induction fs with
  | nil => exact ⟨[], by rw [factorsToExprs, Expr.denoteAll_nil], by simp⟩
  | cons a fs ih =>
    obtain ⟨head, tail⟩ := List.forall_mem_cons.mp each
    obtain ⟨gs, rest, value⟩ := ih tail
    obtain ⟨b, n⟩ := a
    obtain ⟨s, rfl⟩ := head.known
    have symbol : Expr.denote (Atom.toExpr (.symbol s)) = some (var s) := by
      rw [Atom.toExpr, Expr.denote_symbol]
    refine ⟨var s ^ n :: gs, ?_, ?_⟩
    · rw [factorsToExprs]
      exact Expr.denoteAll_cons_eq_some.mpr
        ⟨_, gs, Expr.denote_raised symbol (var_ne_zero s) n, rest, rfl⟩
    · rw [List.prod_cons, value, Valuation.factors_cons, intPower_eq_zpow]
      rfl

theorem denoteAll_termsToExprs {ts : List (Monomial × Rat)}
    (each : ∀ t ∈ ts, valuation.Admits t.1) :
    ∃ gs, Expr.denoteAll (termsToExprs ts) = some gs ∧ gs.sum = valuation.terms ts := by
  induction ts with
  | nil => exact ⟨[], by rw [termsToExprs, Expr.denoteAll_nil], by simp⟩
  | cons t ts ih =>
    obtain ⟨head, tail⟩ := List.forall_mem_cons.mp each
    obtain ⟨gs, rest, sum⟩ := ih tail
    have exponent := exp_eq_zero head
    obtain ⟨⟨fs, e⟩, c⟩ := t
    obtain ⟨hs, factors, product⟩ := denoteAll_factorsToExprs head.factor
    obtain rfl : e = .zero := exponent
    have term : Expr.denote (.ofTerm c (factorsToExprs fs) []) =
        some (algebraMap ℚ RationalFunction c * hs.prod) :=
      Expr.denote_ofTerm c (by rw [List.append_nil]; exact factors)
    refine ⟨algebraMap ℚ RationalFunction c * hs.prod :: gs, ?_, ?_⟩
    · rw [termsToExprs, Poly.zero, exponentialToExprs]
      exact Expr.denoteAll_cons_eq_some.mpr ⟨_, gs, term, rest, rfl⟩
    · rw [List.sum_cons, sum, product, Valuation.terms_cons, Valuation.monomial_eq]
      congr 2
      exact (mul_one _).symm

theorem denote_poly_toExpr (admitted : valuation.AdmitsPoly p) :
    Expr.denote p.toExpr = some (valuation.poly p) := by
  obtain ⟨gs, all, sum⟩ := denoteAll_termsToExprs admitted.all
  obtain ⟨ts⟩ := p
  rw [Poly.toExpr, Expr.denote_ofTerms all, sum, Valuation.poly_eq]

/-- The tree of a canonical form denotes its value. -/
theorem denote_toExpr (denotes : valuation.Denotes r f) : Expr.denote r.toExpr = some f := by
  have value := denotes.eq_div
  obtain ⟨num, den⟩ := r
  have top := denote_poly_toExpr denotes.num
  have bottom := denote_poly_toExpr denotes.den
  rw [Fraction.toExpr]
  split
  · rename_i one
    have unit : valuation.poly den = 1 := by
      rw [valuation.poly_of_constant (beq_iff_eq.mp one), map_one]
    rw [top, value]
    dsimp only
    rw [unit, div_one]
  · rw [Expr.denote_overDenominator top bottom denotes.regular, ← value]

/-- The tree is the literal zero exactly if the value is zero. -/
theorem Represents.isLiteralZero_iff (represents : Represents r f) :
    r.toExpr.isLiteralZero = true ↔ f = 0 := by
  constructor
  · intro zero
    have denotes := denote_toExpr represents.denotes
    rw [Expr.isLiteralZero_iff.mp zero, Expr.denote_number, map_zero] at denotes
    exact (Option.some.inj denotes).symm
  · intro zero
    have empty : r.num.isZero = true := represents.isZero_iff.mpr zero
    have one := represents.whole empty
    obtain ⟨⟨ts⟩, den⟩ := r
    obtain rfl : ts = [] := List.isEmpty_iff.mp empty
    obtain rfl : den = .one := one
    rw [Fraction.toExpr, if_pos (by decide), Poly.toExpr, termsToExprs]
    rfl

/-! ## Distributed and factored forms -/

theorem expanded_isLiteralZero (represents : Represents r f) {e : Expr}
    (ran : r.expanded = .ok e) (zero : e.isLiteralZero = true) : f = 0 :=
  represents.isLiteralZero_iff.mp (Fraction.isLiteralZero_of_expanded ran zero)

theorem isLiteralZero_ofPoly {p : Poly} (admitted : valuation.AdmitsPoly p)
    (nonzero : valuation.poly p ≠ 0) : ¬ (Fraction.ofPoly p).toExpr.isLiteralZero = true := by
  rw [(Represents.of_poly admitted).isLiteralZero_iff]
  exact nonzero

/-- The content with the common monomial. -/
theorem outer_ne_zero (denotes : valuation.Denotes r f) (top : valuation.poly r.num ≠ 0) :
    ¬ (Fraction.ofPoly (.term r.num.commonMonomial r.signedContent)).toExpr.isLiteralZero = true := by
  refine isLiteralZero_ofPoly (.term denotes.num.commonMonomial _) ?_
  rw [Valuation.poly_term]
  exact mul_ne_zero ((map_ne_zero _).mpr r.signedContent_ne_zero)
    (Valuation.monomial_ne_zero (Valuation.commonMonomial_atom_ne_zero denotes.num top))

/-- What is left of the numerator. -/
theorem inner_ne_zero (denotes : valuation.Denotes r f) (top : valuation.poly r.num ≠ 0)
    (invertible : r.num.commonMonomial.isInvertible = true) {inner : Poly}
    (shifted : (r.num.scale r.signedContent⁻¹).shift r.num.commonMonomial.reciprocal = .ok inner) :
    ¬ (Fraction.ofPoly inner).toExpr.isLiteralZero = true := by
  have atoms := Valuation.commonMonomial_atom_ne_zero denotes.num top
  have admitted : valuation.Admits r.num.commonMonomial.reciprocal :=
    denotes.num.commonMonomial.reciprocal invertible fun a member =>
      dividing.invertible a.1 (atoms a member)
  have inverse : valuation.monomial r.num.commonMonomial.reciprocal ≠ 0 := by
    refine Valuation.monomial_ne_zero fun a member => ?_
    obtain ⟨b, old, rfl⟩ := List.mem_map.mp member
    exact atoms b old
  have content : algebraMap ℚ RationalFunction r.signedContent⁻¹ ≠ 0 :=
    (map_ne_zero _).mpr (inv_ne_zero r.signedContent_ne_zero)
  obtain ⟨inside, value⟩ := (Valuation.shift_ensures dividing.lawful
    (denotes.num.scale r.signedContent⁻¹) admitted).of_ok shifted
  refine isLiteralZero_ofPoly inside ?_
  rw [value, Valuation.poly_scale]
  exact mul_ne_zero (mul_ne_zero content top) inverse

theorem factored_isLiteralZero (represents : Represents r f) {e : Expr}
    (ran : r.factored = .ok e) (zero : e.isLiteralZero = true) : f = 0 := by
  by_contra nonzero
  have proper : ¬ r.isZero = true := fun empty => nonzero (represents.isZero_iff.mp empty)
  have top : valuation.poly r.num ≠ 0 := by
    rw [represents.denotes.value]
    exact mul_ne_zero nonzero represents.denotes.regular
  unfold Fraction.factored at ran
  rw [if_neg proper] at ran
  obtain ⟨k, inverted, ran⟩ := bind_eq_ok ran
  obtain ⟨invertible, rfl⟩ := Monomial.inverse_eq_ok inverted
  obtain ⟨inner, shifted, rest⟩ := bind_eq_ok ran
  have outer := outer_ne_zero represents.denotes top
  have inner' := inner_ne_zero represents.denotes top invertible shifted
  dsimp only at rest
  split at rest
  · cases rest
    cases zero
  · -- A single factor is one of the two, or the denominator as a power.
    rename_i x single
    cases rest
    have member : e ∈ [e] := List.mem_singleton.mpr rfl
    rw [← single] at member
    rcases List.mem_cons.mp (List.mem_filter.mp member).1 with rfl | member
    · exact outer zero
    rcases List.mem_append.mp member with member | member
    · split at member
      · cases member
      · obtain rfl := List.mem_singleton.mp member
        exact inner' zero
    · split at member
      · cases member
      · obtain rfl := List.mem_singleton.mp member
        cases zero
  · cases rest
    cases zero

end RationalFunction

end Discharge
