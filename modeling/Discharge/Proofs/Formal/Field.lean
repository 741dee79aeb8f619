import Mathlib
import Discharge.Normal.Basic

/-! A field in which atoms and exponentials are independent: quotients of sums of
formal products of a complex coefficient, integer powers of atoms, and an
exponential. There are so many exponents that every element of the field has one
of its own, so that sums of exponents go to products. They come in levels, each
of which is enough for the field and for every finite extension of it. -/

namespace Discharge

open Cardinal

/-- As many as there are elements of the field. -/
abbrev Label : Type := Atom ⊕ ℝ

/-- The exponents of exponentials, in levels. -/
abbrev Exponent : Type := (ℕ × Label) →₀ ℚ

/-- Sums of formal products. -/
abbrev FormalSum : Type := AddMonoidAlgebra ℂ ((Atom →₀ ℤ) × Exponent)

/-- Quotients of sums of formal products. -/
abbrev Formal : Type := FractionRing FormalSum

namespace Formal

/-- Numbers act on the field as they act on sums. -/
noncomputable instance : SMul ℂ Formal := OreLocalization.instSMulOfIsScalarTower

/-- Sums of formal products as elements of the field. -/
noncomputable def ofSum : FormalSum →ₐ[ℂ] Formal := IsScalarTower.toAlgHom ℂ FormalSum Formal

theorem ofSum_injective : Function.Injective ofSum := IsFractionRing.injective FormalSum Formal

/-- A product of powers of atoms and an exponential. -/
noncomputable def product (x : (Atom →₀ ℤ) × Exponent) : Formal :=
  ofSum (AddMonoidAlgebra.single x 1)

@[simp] theorem product_zero : product 0 = 1 := map_one ofSum

theorem product_add (x y : (Atom →₀ ℤ) × Exponent) : product (x + y) = product x * product y := by
  rw [product, product, product, ← map_mul, AddMonoidAlgebra.single_mul_single, one_mul]

theorem product_ne_zero (x : (Atom →₀ ℤ) × Exponent) : product x ≠ 0 := by
  have inverse := product_add x (-x)
  rw [add_neg_cancel, product_zero] at inverse
  exact left_ne_zero_of_mul (inverse ▸ one_ne_zero)

theorem product_zsmul (n : ℤ) (x : (Atom →₀ ℤ) × Exponent) : product (n • x) = product x ^ n := by
  have natural (k : ℕ) : product (k • x) = product x ^ k := by
    induction k with
    | zero => rw [zero_smul, product_zero, pow_zero]
    | succ k ih => rw [succ_nsmul, product_add, ih, pow_succ]
  cases n with
  | ofNat k => simpa using natural k
  | negSucc k =>
    have inverse := product_add (Int.negSucc k • x) ((k + 1) • x)
    rw [Int.negSucc_eq, neg_smul, ← Nat.cast_succ, natCast_zsmul, neg_add_cancel, product_zero,
      natural] at inverse
    rw [Int.negSucc_eq, neg_smul, ← Nat.cast_succ, natCast_zsmul, zpow_neg, zpow_natCast]
    exact eq_inv_of_mul_eq_one_left inverse.symm

/-- Different products are linearly independent. -/
theorem product_linearIndependent : LinearIndependent ℂ product := by
  have singles : LinearIndependent ℂ fun x : (Atom →₀ ℤ) × Exponent =>
      (AddMonoidAlgebra.single x 1 : FormalSum) := by
    refine .of_comp (AddMonoidAlgebra.coeffLinearEquiv ℂ).toLinearMap ?_
    have standard := (Finsupp.basisSingleOne :
      Module.Basis ((Atom →₀ ℤ) × Exponent) ℂ (_ →₀ ℂ)).linearIndependent
    rwa [Finsupp.coe_basisSingleOne] at standard
  exact singles.map_injOn ofSum.toLinearMap ofSum_injective.injOn

/-! ## Exponents of their own -/

theorem aleph0_le_label : ℵ₀ ≤ (#Label) := by
  rw [mk_sum, lift_id, lift_id, mk_real]
  exact aleph0_le_continuum.trans (self_le_add_left _ _)

/-- There are no more elements of the field than labels. -/
theorem card_le : (#Formal) ≤ (#Label) := by
  have numbers : 𝔠 ≤ (#Label) := by
    rw [mk_sum, lift_id, lift_id, mk_real]
    exact self_le_add_left _ _
  have nonempty : Nonempty Atom := ⟨.pi⟩
  have atoms : (#(Atom →₀ ℤ)) ≤ (#Label) := by
    rw [mk_finsupp_of_infinite', mk_int]
    refine max_le ?_ aleph0_le_label
    rw [mk_sum, lift_id, lift_id]
    exact self_le_add_right _ _
  have exponents : (#Exponent) ≤ (#Label) := by
    rw [mk_finsupp_of_infinite', Cardinal.mkRat, mk_prod, lift_id, lift_id, mk_nat]
    exact max_le (mul_le_of_le aleph0_le_label aleph0_le_label le_rfl) aleph0_le_label
  have sums : (#FormalSum) ≤ (#Label) := by
    rw [AddMonoidAlgebra.cardinalMk_of_infinite', mk_complex]
    refine max_le numbers ?_
    rw [mk_prod, lift_id, lift_id]
    exact mul_le_of_le aleph0_le_label atoms exponents
  rw [mk_fractionRing]
  exact sums

/-- What has no more elements than there are labels has an exponent of its own for
every element, at any level. -/
theorem exists_injective (n : ℕ) {V : Type} [AddCommGroup V] [Module ℚ V] (card : (#V) ≤ (#Label)) :
    ∃ f : V →ₗ[ℚ] Exponent, Function.Injective f ∧ ∀ x, ∀ i ∈ (f x).support, i.1 = n := by
  have embedded : ∃ f : V →ₗ[ℚ] Label →₀ ℚ, Function.Injective f := by
    refine rank_le_iff_exists_linearMap.mp ?_
    rw [rank_finsupp_self']
    exact (rank_le_card ℚ V).trans card
  obtain ⟨f, injective⟩ := embedded
  have distinct : Function.Injective fun l : Label => (n, l) := Prod.mk_right_injective n
  refine ⟨(Finsupp.lmapDomain ℚ ℚ fun l => (n, l)).comp f,
    (Finsupp.mapDomain_injective distinct).comp injective, fun x i occurs => ?_⟩
  obtain ⟨l, -, rfl⟩ := Finset.mem_image.mp (Finsupp.mapDomain_support occurs)
  rfl

end Formal

end Discharge
