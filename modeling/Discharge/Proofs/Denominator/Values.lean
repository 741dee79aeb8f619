import Discharge.Proofs.Denominator.Arithmetic

/-! The values of fractions where radicands may have negative exponents. As long as
nothing is zero that is divided by, arithmetic computes in a field under all the
laws of the normal form. -/

namespace Discharge

namespace Valuation

variable {K : Type*} [Field K] [Algebra ℚ K] {v : Valuation K} {r s : Traced} {x y : K}
  {P Q : K → Prop} {used ds : List Poly} {num den p : Poly} {m : Monomial} {t : Fraction}

/-! ## Quotients -/

section Quotients

variable (lawful : v.Lawful) (invertible : ∀ a, v.atom a ≠ 0 → v.invertible a)

include lawful invertible

theorem cancelMonomial_value (top : v.AdmitsPoly num) (bottom : v.AdmitsPoly den)
    (nonzero : v.poly den ≠ 0) :
    Yields (Fraction.cancelMonomial num den) fun q => v.AdmitsPoly q.1 ∧ v.AdmitsPoly q.2 ∧
      v.poly q.2 ≠ 0 ∧ v.poly q.1 / v.poly q.2 = v.poly num / v.poly den := by
  unfold Fraction.cancelMonomial
  dsimp only
  split
  · exact ⟨top, bottom, nonzero, rfl⟩
  · refine Yields.bind_ok fun k inverted => ?_
    obtain ⟨negatable, rfl⟩ := Monomial.inverse_eq_ok inverted
    have atoms := commonMonomial_atom_ne_zero bottom nonzero
    have inverse : v.Admits den.commonMonomial.reciprocal :=
      bottom.commonMonomial.reciprocal negatable fun f member => invertible f.1 (atoms f member)
    have factor : v.monomial den.commonMonomial.reciprocal ≠ 0 := by
      refine monomial_ne_zero fun f member => ?_
      obtain ⟨g, old, rfl⟩ := List.mem_map.mp member
      exact atoms g old
    refine Yields.bind_ok fun num' ran => Yields.bind_ok fun den' ran' => ?_
    obtain ⟨top', above⟩ := (shift_ensures lawful top inverse).of_ok ran
    obtain ⟨bottom', below⟩ := (shift_ensures lawful bottom inverse).of_ok ran'
    refine ⟨top', bottom', ?_, ?_⟩
    · rw [below]
      exact mul_ne_zero nonzero factor
    · rw [above, below, mul_div_mul_right _ _ factor]

theorem single_value (top : v.AdmitsPoly num) {c : Rat} (bottom : v.AdmitsPoly ⟨[(m, c)]⟩)
    (regular : v.poly ⟨[(m, c)]⟩ ≠ 0) (negatable : m.isInvertible = true)
    (ran : num.shift m.reciprocal = .ok p) :
    v.Denotes (.ofPoly (p.scale c⁻¹)) (v.poly num / v.poly ⟨[(m, c)]⟩) := by
  have admitted : v.Admits m := bottom.all (m, c) (List.mem_singleton.mpr rfl)
  have value : v.poly ⟨[(m, c)]⟩ = algebraMap ℚ K c * v.monomial m := by simp [poly_eq]
  rw [value] at regular ⊢
  have atoms := admitted.atom_ne_zero (right_ne_zero_of_mul regular)
  have inverse := admitted.reciprocal negatable fun f member => invertible f.1 (atoms f member)
  obtain ⟨shifted, product⟩ := (shift_ensures lawful top inverse).of_ok ran
  have quotient : v.poly (p.scale c⁻¹) = v.poly num / (algebraMap ℚ K c * v.monomial m) := by
    rw [poly_scale, product, monomial_reciprocal, map_inv₀, div_eq_mul_inv, mul_inv]
    ring
  rw [← quotient]
  exact .of_poly (shifted.scale _)

/-- The canonical form of a quotient has its value. -/
theorem make_denotes (top : v.AdmitsPoly num) (bottom : v.AdmitsPoly den)
    (clear : v.Clear (Fraction.divisors num den)) (ran : Fraction.make num den = .ok t) :
    v.Denotes t (v.poly num / v.poly den) := by
  obtain ⟨nonzero, conjugates⟩ := List.forall_mem_cons.mp clear
  obtain ⟨empty, rfl⟩ | ⟨proper, q, q', first, second, last⟩ := Fraction.make_cases ran
  · have denotes : v.Denotes .zero (v.poly .zero) := .of_poly .zero
    rw [poly_of_isZero empty, zero_div]
    rwa [poly_zero] at denotes
  rw [proper] at conjugates
  obtain ⟨top', bottom', nonzero', -, value⟩ :=
    (rationalise_ensures lawful _ top bottom nonzero conjugates).of_ok first
  obtain ⟨top'', bottom'', nonzero'', value'⟩ :=
    (cancelMonomial_value lawful invertible top' bottom' nonzero').of_ok second
  rw [← value, ← value']
  rcases last with ⟨m, c, p, single, negatable, shifted, rfl⟩ | ⟨-, rfl⟩
  · obtain ⟨num', den'⟩ := q'
    obtain rfl := singleTerm_eq single
    exact single_value lawful invertible top'' bottom'' nonzero'' negatable shifted
  · exact (monic_denotes top'' bottom'' nonzero'').1

end Quotients

/-! ## Arithmetic -/

/-- The fraction has a value with the property, unless something that was divided
by stands in the way. -/
def Valued (v : Valuation K) (t : Traced) (P : K → Prop) : Prop :=
  v.Clear t.divisors → ∃ y, v.Denotes t.fraction y ∧ P y

theorem Valued.mono (valued : v.Valued r P) (imp : ∀ y, P y → Q y) : v.Valued r Q :=
  fun clear => (valued clear).imp fun y holds => ⟨holds.1, imp y holds.2⟩

theorem Valued.of_poly (admitted : v.AdmitsPoly p) (holds : P (v.poly p)) (used : List Poly) :
    v.Valued ⟨.ofPoly p, used⟩ P := fun _ => ⟨_, .of_poly admitted, holds⟩

/-- A rational multiple of a fraction. -/
theorem Valued.scale (valued : v.Valued r P) (q : Rat) :
    v.Valued ⟨r.fraction.scale q, r.divisors⟩ (fun z => ∃ y, P y ∧ z = algebraMap ℚ K q * y) := by
  intro clear
  obtain ⟨y, denotes, holds⟩ := valued clear
  refine ⟨_, ?_, y, holds, rfl⟩
  unfold Fraction.scale
  split
  · rename_i zero
    have none : v.Denotes .zero (v.poly .zero) := .of_poly .zero
    rw [zero, map_zero, zero_mul]
    rwa [poly_zero] at none
  · refine ⟨denotes.num.scale q, denotes.den, denotes.regular, ?_⟩
    rw [poly_scale, denotes.value, mul_assoc]

theorem Valued.neg (valued : v.Valued r (· = x)) : v.Valued r.neg (· = -x) := by
  intro clear
  obtain ⟨_, denotes, rfl⟩ := valued clear
  refine ⟨_, ⟨denotes.num.neg, denotes.den, denotes.regular, ?_⟩, rfl⟩
  change v.poly r.fraction.num.neg = -_ * v.poly r.fraction.den
  rw [poly_neg, denotes.value, neg_mul]

section Arithmetic

variable (lawful : v.Lawful) (invertible : ∀ a, v.atom a ≠ 0 → v.invertible a)

include lawful invertible

theorem make_valued (sides : v.Clear used →
      ∃ y, v.Sides num den y ∧ (v.poly den ≠ 0 → P y)) :
    Yields (Traced.make used num den) (v.Valued · P) := by
  unfold Traced.make
  cases ran : Fraction.make num den with
  | error e => trivial
  | ok t =>
    intro clear
    obtain ⟨before, now⟩ := Clear.append.mp clear
    obtain ⟨y, sides, holds⟩ := sides before
    have regular : v.poly den ≠ 0 := now den List.mem_cons_self
    have denotes := make_denotes lawful invertible sides.top sides.bottom now ran
    rw [sides.value regular] at denotes
    exact ⟨y, denotes, holds regular⟩

theorem add_valued (left : v.Valued r P) (right : v.Valued s Q) :
    Yields (r.add s) (v.Valued · fun z => ∃ x y, P x ∧ Q y ∧ z = x + y) := by
  refine Yields.bind_ok fun q ran => make_valued lawful invertible fun clear => ?_
  obtain ⟨first, second⟩ := Clear.append.mp clear
  obtain ⟨x, denotes, holds⟩ := left first
  obtain ⟨y, denotes', holds'⟩ := right second
  have sides := (sumSides_ensures lawful denotes denotes').of_ok ran
  exact ⟨x + y, sides.1, fun _ => ⟨x, y, holds, holds', rfl⟩⟩

theorem mul_valued (left : v.Valued r P) (right : v.Valued s Q) :
    Yields (r.mul s) (v.Valued · fun z => ∃ x y, P x ∧ Q y ∧ z = x * y) := by
  refine Yields.bind_ok fun q ran => make_valued lawful invertible fun clear => ?_
  obtain ⟨first, second⟩ := Clear.append.mp clear
  obtain ⟨x, denotes, holds⟩ := left first
  obtain ⟨y, denotes', holds'⟩ := right second
  have sides := (productSides_ensures lawful denotes denotes'.sides).of_ok ran
  exact ⟨x * y, sides.1, fun _ => ⟨x, y, holds, holds', rfl⟩⟩

/-- What a quotient is divided by is not zero. -/
theorem div_valued (left : v.Valued r P) (right : v.Valued s Q) :
    Yields (r.div s) (v.Valued · fun z => ∃ x y, P x ∧ Q y ∧ y ≠ 0 ∧ z = x / y) := by
  unfold Traced.div
  split
  · trivial
  refine Yields.bind_ok fun q ran => make_valued lawful invertible fun clear => ?_
  obtain ⟨first, second⟩ := Clear.append.mp clear
  obtain ⟨x, denotes, holds⟩ := left first
  obtain ⟨y, denotes', holds'⟩ := right second
  obtain ⟨num, den⟩ := q
  have sides := (productSides_ensures lawful denotes denotes'.reciprocal).of_ok ran
  refine ⟨x / y, div_eq_mul_inv x y ▸ sides.1, fun regular => ⟨x, y, holds, holds', ?_, rfl⟩⟩
  obtain ⟨top, above, ran⟩ := bind_eq_ok ran
  obtain ⟨bottom, below, ran⟩ := bind_eq_ok ran
  cases ran
  have product := ((mul_ensures lawful denotes.den denotes'.num).of_ok below).2
  rintro rfl
  rw [product, denotes'.value, zero_mul, mul_zero] at regular
  exact regular rfl

theorem powNat_valued (base : v.Valued r (· = x)) (n max : Nat) :
    Yields (r.powInt n max) (v.Valued · (· = x ^ n)) := by
  unfold Traced.powInt
  dsimp only
  split
  · trivial
  rw [if_neg (by omega)]
  have times (r s : Traced) (a b : K) (left : v.Valued r (· = a)) (right : v.Valued s (· = b)) :
      Yields (r.mul s) (v.Valued · (· = a * b)) :=
    (mul_valued lawful invertible left right).mono fun t product =>
      product.mono fun z => by rintro ⟨_, _, rfl, rfl, rfl⟩; rfl
  have power := squaring_ensures (fun t y => v.Valued t (· = y)) times n
    (.of_poly .one v.poly_one r.divisors) base
  rw [one_mul] at power
  exact power

end Arithmetic

end Valuation

end Discharge
