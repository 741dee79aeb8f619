import Discharge.Proofs.Canonical.Factoring
import Discharge.Proofs.Canonical.Tree
import Discharge.Proofs.Rational.Variable

/-! Content and common monomial of polynomials in symbols. A polynomial divided
by its content has integer coefficients without a common divisor. Divided by its
common monomial it has no negative exponents, and every symbol is missing from
one of its terms; that fails only where an exponent stops being a machine
integer. -/

namespace Discharge

open RationalFunction

/-! ## Content -/

namespace Poly

variable {p : Poly}

/-- The coefficients are integers without a common divisor. -/
structure Primitive (p : Poly) : Prop where
  integral : ∀ t ∈ p.terms, t.2.den = 1
  coprime : ∀ d : Nat, (∀ t ∈ p.terms, d ∣ t.2.num.natAbs) → d = 1

theorem integral_of_content (nonzero : ∃ t ∈ p.terms, t.2 ≠ 0) (one : p.content = 1) :
    ∀ t ∈ p.terms, t.2.den = 1 := by
  intro t member
  obtain ⟨k, multiple⟩ := (content_spec nonzero (q := 1)).mp ⟨1, by simp [one]⟩ t member
  rw [multiple, mul_one]
  rfl

theorem primitive_of_content (nonzero : ∃ t ∈ p.terms, t.2 ≠ 0) (one : p.content = 1) :
    p.Primitive where
  integral := integral_of_content nonzero one
  coprime d divides := by
    -- All coefficients are integer multiples of the divisor, and so is the content.
    obtain ⟨k, multiple⟩ := (content_spec nonzero (q := d)).mpr fun t member => by
      obtain ⟨k, product⟩ := Int.natCast_dvd.mpr (divides t member)
      refine ⟨k, ?_⟩
      rw [← Rat.num_div_den t.2, integral_of_content nonzero one t member, product]
      push_cast
      ring
    have unit : (d : ℤ) * k = 1 := by
      rw [one] at multiple
      exact_mod_cast (mul_comm _ _).trans multiple.symm
    exact_mod_cast Int.eq_one_of_mul_eq_one_right (Int.natCast_nonneg d) unit

theorem primitive_scale (nonzero : ∃ t ∈ p.terms, t.2 ≠ 0) {c : ℚ} (content : |c| = p.content) :
    (p.scale c⁻¹).Primitive := by
  have proper : c⁻¹ ≠ 0 := inv_ne_zero (abs_pos.mp (content ▸ p.content_pos))
  refine primitive_of_content ?_ ?_
  · obtain ⟨t, member, coefficient⟩ := nonzero
    refine ⟨(t.1, t.2 * c⁻¹), ?_, mul_ne_zero coefficient proper⟩
    rw [terms_scale proper]
    exact List.mem_map_of_mem member
  · rw [content_scale nonzero proper, abs_inv, content, mul_inv_cancel₀ p.content_pos.ne']

/-! ## The common monomial -/

/-- Every term can be divided by the common monomial: all exponents stay machine
integers. -/
def DivisionFits (p : Poly) : Prop :=
  ∀ s : String, fitsInt64 (-p.commonMonomial.count (.symbol s)) = true ∧
    ∀ t ∈ p.terms, fitsInt64 (t.1.count (.symbol s) - p.commonMonomial.count (.symbol s)) = true

/-- Nothing can be divided out: no exponent is negative, and every symbol is
missing from one of the terms. -/
structure Coprime (p : Poly) : Prop where
  positive : ∀ t ∈ p.terms, ∀ f ∈ t.1.factors, 0 < f.2
  missing : ∀ s : String, ∃ t ∈ p.terms, t.1.count (.symbol s) = 0

end Poly

theorem Monomial.isOne_iff {m : Monomial} : m.isOne = true ↔ m = .one := by
  obtain ⟨fs, ⟨ts⟩⟩ := m
  cases fs <;> cases ts <;> simp [Monomial.isOne, Monomial.one, Poly.isZero, Poly.zero]

namespace RationalFunction

variable {p q num den : Poly} {m : Monomial} {r s : Fraction} {x y : RationalFunction}

theorem admits_reciprocal (admitted : valuation.Admits m) (invertible : m.isInvertible = true) :
    valuation.Admits m.reciprocal :=
  admitted.reciprocal invertible fun f member => (admitted.factor f member).known

theorem combine_irreducible (admitted : valuation.AdmitsPoly p) (factor : valuation.Admits m) :
    ∀ t ∈ p.terms, ∀ k, t.1.combine m = .ok k → k.Irreducible := fun t member _ combined =>
  irreducible_of_admits ((Valuation.combine_ensures (admitted.all t member) factor).of_ok combined).1

/-- Only symbols have exponents. -/
theorem count_of_admits (admitted : valuation.Admits m) {a : Atom} (other : ∀ s, a ≠ .symbol s) :
    m.count a = 0 := by
  by_contra present
  obtain ⟨s, symbol⟩ := (admitted.of_count present).known
  exact other s symbol

/-- A monomial can be inverted exactly if the negatives of all exponents are machine
integers. -/
theorem isInvertible_iff_symbols (admitted : valuation.Admits m) :
    m.isInvertible = true ↔ ∀ s : String, fitsInt64 (-m.count (.symbol s)) = true := by
  rw [Monomial.isInvertible_iff]
  constructor
  · intro each s
    by_cases zero : m.count (.symbol s) = 0
    · rw [zero]
      rfl
    · exact each _ (Monomial.mem_of_exponentIn zero)
  · intro each f member
    obtain ⟨s, symbol⟩ := (admitted.factor f member).known
    have exponent : m.count (.symbol s) = f.2 := by
      rw [Monomial.count_eq, ← symbol]
      exact Monomial.exponentIn_of_mem admitted.increasing member
    rw [← exponent]
    exact each s

/-- A polynomial can be divided by its common monomial exactly if all exponents
stay machine integers. -/
theorem shift_commonMonomial_ok_iff (admitted : valuation.AdmitsPoly p) :
    (∃ k q, p.commonMonomial.inverse = .ok k ∧ p.shift k = .ok q) ↔ p.DivisionFits := by
  have common := admitted.commonMonomial
  have shifts (invertible : p.commonMonomial.isInvertible = true) :=
    Poly.shift_irreducible_ok_iff (combine_irreducible admitted (admits_reciprocal common invertible))
  constructor
  · rintro ⟨k, q, inverted, ran⟩
    obtain ⟨invertible, rfl⟩ := Monomial.inverse_eq_ok inverted
    have combines := (shifts invertible).mp ⟨q, ran⟩
    refine fun s => ⟨(isInvertible_iff_symbols common).mp invertible s, fun t member => ?_⟩
    have sum := (Monomial.combine_ok_iff (admitted.all t member)
      (admits_reciprocal common invertible)).mp (combines t member) (.symbol s)
    rwa [Monomial.count_reciprocal, ← sub_eq_add_neg] at sum
  · intro fits
    have invertible := (isInvertible_iff_symbols common).mpr fun s => (fits s).1
    have combines : ∀ t ∈ p.terms, ∃ k, t.1.combine p.commonMonomial.reciprocal = .ok k := by
      refine fun t member => (Monomial.combine_ok_iff (admitted.all t member)
        (admits_reciprocal common invertible)).mpr fun a => ?_
      rw [Monomial.count_reciprocal, ← sub_eq_add_neg]
      by_cases symbol : ∃ s, a = .symbol s
      · obtain ⟨s, rfl⟩ := symbol
        exact (fits s).2 t member
      · push Not at symbol
        rw [count_of_admits (admitted.all t member) symbol, count_of_admits common symbol]
        rfl
    obtain ⟨q, ran⟩ := (shifts invertible).mpr combines
    exact ⟨_, q, Monomial.inverse_of_invertible invertible, ran⟩

/-- Divided by its common monomial, a polynomial has nothing more to divide out. -/
theorem coprime_shift (admitted : valuation.AdmitsPoly p) (nonempty : p.terms ≠ [])
    (invertible : p.commonMonomial.isInvertible = true)
    (ran : p.shift p.commonMonomial.reciprocal = .ok q) : q.Coprime := by
  have inverse := admits_reciprocal admitted.commonMonomial invertible
  refine ⟨fun u member f factor => ?_, fun s => ?_⟩
  · have nonnegative := Valuation.shift_commonMonomial_nonnegative dividing.nonnegative admitted
      inverse (Valuation.plain_of_firstSurd (firstSurd_eq_none admitted)) ran
    exact Valuation.nonnegative_factor ((nonnegative.all u member).factor f factor)
  · obtain ⟨-, t, member, least⟩ := Poly.count_commonMonomial (a := .symbol s)
      (admitted.all.mono fun m holds => holds.increasing) rfl nonempty
    obtain ⟨ps, products, -⟩ := bind_eq_ok ran
    obtain ⟨k, combined⟩ := Valuation.shiftTerms_combines products t member
    refine ⟨(k, t.2), (Poly.mem_shift admitted inverse (combine_irreducible admitted inverse) ran
      (k, t.2)).mpr ⟨t.1, member, combined⟩, ?_⟩
    rw [Valuation.count_combine (admitted.all t member) inverse combined,
      Monomial.count_reciprocal, least, Int.add_right_neg]

theorem commonMonomial_of_coprime (admitted : valuation.AdmitsPoly p) (coprime : p.Coprime) :
    p.commonMonomial = .one := by
  have increasing := admitted.all.mono fun m holds => holds.increasing
  have factors : p.commonMonomial.factors = [] := by
    refine List.eq_nil_iff_forall_not_mem.mpr fun f member => ?_
    obtain ⟨a, n⟩ := f
    obtain ⟨s, rfl⟩ := (admitted.commonMonomial.factor _ member).known
    obtain ⟨nonzero, -, t, term, count⟩ := Poly.mem_commonMonomial increasing member
    obtain ⟨u, other, zero⟩ := coprime.missing s
    have below := Poly.count_commonMonomial_le increasing (a := .symbol s) rfl other
    rw [Monomial.count_eq, Monomial.exponentIn_of_mem (Poly.commonMonomial_increasing increasing)
      member, zero] at below
    have present : t.1.count (.symbol s) ≠ 0 := by rwa [count]
    have above := coprime.positive t term _ (Monomial.mem_of_exponentIn present)
    rw [← Monomial.count_eq, count] at above
    omega
  have exponent := p.commonMonomial_exp
  revert factors exponent
  cases p.commonMonomial
  rintro rfl rfl
  rfl

/-! ## Denominators -/

/-- The denominator has its shape, and nothing can be divided out of it. -/
structure Trimmed (r : Fraction) : Prop where
  shaped : r.Shaped
  common : r.den.commonMonomial = .one

theorem trimmed_ofPoly (p : Poly) : Trimmed (.ofPoly p) := ⟨.one rfl, rfl⟩

theorem make_trimmed (bottom : valuation.AdmitsPoly den) : Yields (Fraction.make num den) Trimmed := by
  cases ran : Fraction.make num den with
  | error e => trivial
  | ok r =>
    refine ⟨Fraction.make_shaped ran, ?_⟩
    rcases Fraction.make_cases ran with ⟨-, rfl⟩ | ⟨-, q, q', rationalised, cancelled, last⟩
    · rfl
    rcases last with ⟨m, c, p, -, -, -, rfl⟩ | ⟨-, rfl⟩
    · rfl
    -- There are no surds, so the common monomial is divided out of the given denominator.
    have same : q = (num, den) := by
      rw [Fraction.maxRounds, Fraction.rationalise, firstSurd_eq_none bottom] at rationalised
      exact (Except.ok.inj rationalised).symm
    subst same
    have common : q'.2.commonMonomial = .one := by
      unfold Fraction.cancelMonomial at cancelled
      dsimp only at cancelled
      split at cancelled
      · rename_i one
        cases cancelled
        exact Monomial.isOne_iff.mp one
      · rename_i several
        obtain ⟨k, inverted, cancelled⟩ := bind_eq_ok cancelled
        obtain ⟨invertible, rfl⟩ := Monomial.inverse_eq_ok inverted
        obtain ⟨top, -, cancelled⟩ := bind_eq_ok cancelled
        obtain ⟨divided, shifted, cancelled⟩ := bind_eq_ok cancelled
        cases cancelled
        have nonempty : den.terms ≠ [] := by
          intro empty
          refine several ?_
          unfold Poly.commonMonomial
          rw [empty]
          rfl
        have inverse := admits_reciprocal bottom.commonMonomial invertible
        have admitted := ((Valuation.shift_ensures dividing.lawful bottom inverse).of_ok shifted).1
        exact commonMonomial_of_coprime admitted (coprime_shift bottom nonempty invertible shifted)
    rcases Fraction.monic_sides q'.1 q'.2 with ⟨ratio, constant⟩ | sides
    · rw [constant]
      rfl
    · rw [sides]
      by_cases zero : (q'.2.leading?.getD 1)⁻¹ = 0
      · rw [zero, Poly.scale, if_pos rfl]
        rfl
      · exact (Poly.commonMonomial_scale zero).trans common

theorem add_trimmed (left : Represents r x) (right : Represents s y) : Yields (r.add s) Trimmed := by
  rw [Fraction.add_eq_make]
  refine Yields.bind_ok fun q ran => make_trimmed ?_
  exact ((Valuation.sumSides_ensures dividing.lawful left.denotes right.denotes).of_ok ran).1.bottom

theorem mul_trimmed (left : Represents r x) (right : Represents s y) : Yields (r.mul s) Trimmed := by
  rw [Fraction.mul_eq_make]
  refine Yields.bind_ok fun q ran => make_trimmed ?_
  exact ((Valuation.productSides_ensures dividing.lawful left.denotes right.denotes.sides).of_ok
    ran).1.bottom

theorem powInt_trimmed (represents : Represents r x) (trimmed : Trimmed r) (n : Int) (max : Nat) :
    Yields (r.powInt n max) Trimmed := by
  have power : ∀ b y, Represents b y → Trimmed b →
      Yields (squaring Fraction.mul .one b n.natAbs) Trimmed := fun b y base below => by
    have products := squaring_ensures (fun t z => Represents t z ∧ Trimmed t)
      (fun r s x y left right => (mul_represents left.1 right.1).and fun t ran =>
        (mul_trimmed left.1 right.1).of_ok ran) n.natAbs ⟨.one, trimmed_ofPoly _⟩ ⟨base, below⟩
    exact (products.mono fun t holds => holds.2).mono_error fun _ _ => trivial
  unfold Fraction.powInt
  dsimp only
  split
  · trivial
  split
  · refine Yields.bind_ok fun b ran => ?_
    by_cases zero : x = 0
    · rw [Fraction.inverse, if_pos (represents.isZero_iff.mpr zero)] at ran
      cases ran
    · have below : Trimmed b := by
        unfold Fraction.inverse at ran
        split at ran
        · cases ran
        · exact (make_trimmed represents.denotes.num).of_ok ran
      exact power b _ ((inverse_represents represents zero).of_ok ran) below
  · exact power r x represents trimmed

variable {max : Nat} {e : Expr} {xs : List Expr}

theorem ofSum_trimmed (each : ∀ x ∈ xs, Normalises max x) (start : Represents r x)
    (trimmed : Trimmed r) : Yields (Fraction.ofSum max r xs) Trimmed := by
  induction xs generalizing r x with
  | nil =>
    rw [Fraction.ofSum]
    exact trimmed
  | cons e xs ih =>
    obtain ⟨head, tail⟩ := List.forall_mem_cons.mp each
    rw [Fraction.ofSum]
    refine Yields.bind_ok fun s first => ?_
    obtain ⟨g, -, next⟩ := Ensures.of_ok head first
    exact Yields.bind_ok fun t total => ih tail ((add_represents start next).of_ok total)
      ((add_trimmed start next).of_ok total)

theorem ofProduct_trimmed (each : ∀ x ∈ xs, Normalises max x) (start : Represents r x)
    (trimmed : Trimmed r) : Yields (Fraction.ofProduct max r xs) Trimmed := by
  induction xs generalizing r x with
  | nil =>
    rw [Fraction.ofProduct]
    exact trimmed
  | cons e xs ih =>
    obtain ⟨head, tail⟩ := List.forall_mem_cons.mp each
    rw [Fraction.ofProduct]
    refine Yields.bind_ok fun s first => ?_
    obtain ⟨g, -, next⟩ := Ensures.of_ok head first
    exact Yields.bind_ok fun t total => ih tail ((mul_represents start next).of_ok total)
      ((mul_trimmed start next).of_ok total)

/-- Nothing can be divided out of the denominator that a rational expression is
normalised to. -/
theorem ofExpr_trimmed (max : Nat) (rational : e.IsRational) :
    Yields (Fraction.ofExpr max e) Trimmed := by
  induction rational with
  | number q =>
    rw [Fraction.ofExpr]
    exact trimmed_ofPoly _
  | symbol s =>
    rw [Fraction.ofExpr]
    exact trimmed_ofPoly _
  | sum each _ =>
    rw [Fraction.ofExpr]
    exact ofSum_trimmed (fun x member => normalises max (each x member)) .zero (trimmed_ofPoly _)
  | product each _ =>
    rw [Fraction.ofExpr]
    exact ofProduct_trimmed (fun x member => normalises max (each x member)) .one (trimmed_ofPoly _)
  | @power b n base ih =>
    rw [Fraction.ofExpr]
    refine Yields.bind_ok fun r first => Yields.bind_ok fun s literal => ?_
    obtain ⟨f, -, represents⟩ := (normalises max base).of_ok first
    rw [Expr.int, Fraction.ofExpr] at literal
    cases literal
    rw [Fraction.pow_int]
    split
    · exact powInt_trimmed represents (ih.of_ok first) n max
    · trivial

/-- The reciprocal of such a denominator is canonical as it stands. -/
theorem Trimmed.reciprocal (trimmed : Trimmed r) (represents : Represents r x)
    (quotient : r.den.isOne = false) : Fraction.make .one r.den = .ok ⟨.one, r.den⟩ := by
  rcases trimmed.shaped with zero | one | ⟨several, leading⟩
  · exact absurd (by rw [zero, Valuation.poly_zero]) represents.denotes.regular
  · rw [one] at quotient
    cases quotient
  · exact Expr.make_reciprocal several leading (firstSurd_eq_none represents.denotes.den)
      (Monomial.isOne_iff.mpr trimmed.common)

end RationalFunction

end Discharge
