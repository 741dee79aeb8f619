import Mathlib.Algebra.Polynomial.Cardinal
import Mathlib.RingTheory.AdjoinRoot
import Mathlib.LinearAlgebra.LinearIndependent.Lemmas
import Discharge.Proofs.Canonical.Form
import Discharge.Proofs.Formal.Field
import Discharge.Proofs.Normal.Every
import Discharge.Proofs.Radical.Exponents

/-! Rings of formal values. i and the roots of an independent system are complex
numbers, and every other atom is an element of the field that stands for itself,
except for finitely many roots: these are adjoined to the field. Nothing is known
of an adjoined root but that its power is the value of the radicand, so that
powers below the index are independent. Such a root may be a divisor of zero, and
so it may not be divided by. -/

namespace Discharge

open Cardinal Polynomial

/-- No exponent of an adjoined root is negative. -/
def Nonnegative (S : Finset Atom) (f : Atom × Int) : Prop := f.1 ∈ S → 0 ≤ f.2

theorem intPower_algebraMap {K A : Type*} [Field K] [CommRing A] [Algebra K A] (x : K) (n : Int) :
    intPower (algebraMap K A x) n = algebraMap K A (x ^ n) := by
  have inverse : Ring.inverse (algebraMap K A x) = algebraMap K A x⁻¹ := by
    by_cases zero : x = 0
    · simp [zero]
    · exact Ring.inverse_unit (Units.map (algebraMap K A).toMonoidHom (Units.mk0 x zero))
  unfold intPower
  split
  · obtain ⟨k, rfl⟩ := Int.eq_ofNat_of_zero_le ‹_›
    simp
  · obtain ⟨k, rfl⟩ := Int.eq_negSucc_of_lt_zero (not_le.mp ‹_›)
    rw [inverse, ← map_pow, zpow_negSucc, Int.natAbs_negSucc, inv_pow]

namespace Formal

open Classical in
/-- The value of an atom in the field: a number, or the atom itself. -/
noncomputable def atomValue (R : Set (ℕ × ℕ)) : Atom → Formal
  | .imaginary => algebraMap ℂ Formal Complex.I
  | .root p k =>
    if (Atom.root p k).RootIn R then
      algebraMap ℂ Formal (Radical.value (Radical.radicand p, k) : ℝ)
    else product (.single (.root p k) 1, 0)
  | a => product (.single a 1, 0)

/-! ## A root of an element -/

section Root

variable {A : Type} [CommRing A] (c : A) (k : ℕ)

/-- The ring with a root of one of its elements. -/
abbrev Extended : Type := AdjoinRoot (X ^ k - C c)

theorem root_pow : AdjoinRoot.root (X ^ k - C c) ^ k = AdjoinRoot.of (X ^ k - C c) c := by
  have zero := AdjoinRoot.eval₂_root (X ^ k - C c)
  rwa [eval₂_sub, eval₂_X_pow, eval₂_C, sub_eq_zero] at zero

theorem extension_card (card : (#A) ≤ (#Label)) : (#(Extended c k)) ≤ (#Label) := by
  have polynomials := mk_le_of_surjective (AdjoinRoot.mk_surjective (g := X ^ k - C c))
  exact polynomials.trans (cardinalMk_le_max.trans (max_le card aleph0_le_label))

variable [NeZero k]

theorem extension_monic : (X ^ k - C c).Monic := monic_X_pow_sub_C c (NeZero.ne k)

/-- The part of an element that lies in the smaller ring. -/
noncomputable def part : Extended c k →ₗ[A] A :=
  (lcoeff A 0).comp (AdjoinRoot.modByMonicHom (extension_monic c k))

theorem part_of [Nontrivial A] (x : A) : part c k (AdjoinRoot.of _ x) = x := by
  have small : (C x).degree < (X ^ k - C c).degree := by
    rw [degree_X_pow_sub_C (NeZero.pos k)]
    exact degree_C_le.trans_lt (WithBot.coe_lt_coe.mpr (NeZero.pos k))
  rw [part, LinearMap.comp_apply, ← AdjoinRoot.mk_C, AdjoinRoot.modByMonicHom_mk,
    (modByMonic_eq_self_iff (extension_monic c k)).mpr small, lcoeff_apply, coeff_C_zero]

/-- The powers of the root below the index are independent. -/
theorem powers_linearIndependent [Nontrivial A] :
    LinearIndependent A fun i : Fin k => AdjoinRoot.root (X ^ k - C c) ^ (i : ℕ) := by
  let basis := AdjoinRoot.powerBasis' (extension_monic c k)
  have dim : basis.dim = k := by
    rw [AdjoinRoot.powerBasis'_dim, natDegree_X_pow_sub_C]
  have independent := basis.basis.linearIndependent.comp (Fin.cast dim.symm) (Fin.cast_injective _)
  rwa [PowerBasis.coe_basis, AdjoinRoot.powerBasis'_gen] at independent

end Root

/-! ## Adjoined roots -/

/-- Exponents of adjoined roots that lie below the index. -/
def Below (S : Finset Atom) (e : Atom →₀ ℕ) : Prop :=
  ∀ a ∈ e.support, a ∈ S ∧ ∀ p k, a = .root p k → e a < k

theorem below_zero (S : Finset Atom) : Below S 0 := fun a member => absurd member (by simp)

/-- A ring with finitely many adjoined roots in it. There are exponents of their
own for its elements, and levels of exponents left for larger rings. -/
structure Adjunction (S : Finset Atom) (A : Type) [CommRing A] [Algebra ℚ A]
    [Algebra Formal A] where
  root : Atom → A
  independent : LinearIndependent Formal
    fun e : { e // Below S e } => e.1.prod fun a n => root a ^ n
  exponent : A →ₗ[ℚ] Exponent
  injective : Function.Injective exponent
  level : ℕ
  below : ∀ x, ∀ i ∈ (exponent x).support, i.1 < level
  card : (#A) ≤ (#Label)

namespace Adjunction

variable {S : Finset Atom} {A : Type} [CommRing A] [Algebra ℚ A] [Algebra Formal A]
  (E : Adjunction S A)

include E in
theorem nontrivial : Nontrivial A := by
  have one := E.independent.ne_zero ⟨0, below_zero S⟩
  rw [Finsupp.prod_zero_index] at one
  exact nontrivial_of_ne 1 0 one

/-- The value of an atom in the ring. -/
noncomputable def value (R : Set (ℕ × ℕ)) (a : Atom) : A :=
  if a ∈ S then E.root a else algebraMap Formal A (atomValue R a)

/-- The value of an exponential: an element of the field for every exponent. -/
noncomputable def exp (x : A) : A := algebraMap Formal A (product (0, E.exponent x))

/-- The formal values of canonical forms. -/
noncomputable def valuation (R : Set (ℕ × ℕ)) (max : Nat) : Valuation A where
  atom := E.value R
  exp := E.exp
  exp_zero := by
    rw [exp, map_zero]
    exact (congrArg _ product_zero).trans (map_one _)
  exp_add x y := by
    rw [exp, exp, exp, map_add, ← map_mul, ← product_add, Prod.mk_add_mk, add_zero]
  known a := (a.RootIn R ∨ a ∈ S) ∧ a.Canonical max
  invertible a := a ∉ S ∧ atomValue R a ≠ 0
  isUnit a regular := by
    rw [value, if_neg regular.1]
    exact regular.2.isUnit.map _
  turning := True
  inner m := m ≠ .halfTurn ∧ m.Canonical max ∧ m.Every (Nonnegative S)

/-- Every adjoined root is a root of its radicand. -/
def Rooted (R : Set (ℕ × ℕ)) (max : Nat) : Prop :=
  ∀ p k, .root p k ∈ S → E.root (.root p k) ^ k = (E.valuation R max).poly p

/-! ## One more root -/

section Step

variable (c : A) (k : ℕ)

theorem exists_own : ∃ own : Extended c k →ₗ[ℚ] Exponent,
    Function.Injective own ∧ ∀ x, ∀ i ∈ (own x).support, i.1 = E.level :=
  exists_injective E.level (extension_card c k E.card)

variable [NeZero k]

/-- Elements of the smaller ring keep their exponents, and what differs from them
has exponents of the next level. -/
noncomputable def nextExponent : Extended c k →ₗ[ℚ] Exponent :=
  let inside := (part c k).restrictScalars ℚ
  E.exponent.comp inside + (E.exists_own c k).choose.comp
    (LinearMap.id - ((Algebra.linearMap A (Extended c k)).restrictScalars ℚ).comp inside)

theorem nextExponent_of (x : A) : E.nextExponent c k (AdjoinRoot.of _ x) = E.exponent x := by
  have := E.nontrivial
  simp [nextExponent, part_of, AdjoinRoot.algebraMap_eq]

theorem nextExponent_eq (x : Extended c k) : E.nextExponent c k x =
    E.exponent (part c k x) +
      (E.exists_own c k).choose (x - AdjoinRoot.of _ (part c k x)) := by
  simp [nextExponent, AdjoinRoot.algebraMap_eq]

theorem nextExponent_below (x : Extended c k) :
    ∀ i ∈ (E.nextExponent c k x).support, i.1 < E.level + 1 := by
  intro i occurs
  rw [nextExponent_eq] at occurs
  rcases Finset.mem_union.mp (Finsupp.support_add occurs) with inside | new
  · exact (E.below _ i inside).trans (Nat.lt_succ_self _)
  · rw [(E.exists_own c k).choose_spec.2 _ i new]
    exact Nat.lt_succ_self _

theorem nextExponent_injective : Function.Injective (E.nextExponent c k) := by
  obtain ⟨injective, levels⟩ := (E.exists_own c k).choose_spec
  refine (injective_iff_map_eq_zero _).mpr fun x zero => ?_
  rw [nextExponent_eq] at zero
  -- The two summands have no label in common.
  have first : E.exponent (part c k x) = 0 := by
    ext i
    have sum := DFunLike.congr_fun zero i
    rw [Finsupp.add_apply, Finsupp.zero_apply] at sum
    by_contra occurs
    have old := E.below _ i (Finsupp.mem_support_iff.mpr occurs)
    have absent : (E.exists_own c k).choose (x - AdjoinRoot.of _ (part c k x)) i = 0 := by
      by_contra occurs'
      exact old.ne (levels _ i (Finsupp.mem_support_iff.mpr occurs'))
    rw [absent, add_zero] at sum
    exact occurs sum
  have none : part c k x = 0 := (injective_iff_map_eq_zero _).mp E.injective _ first
  rw [first, zero_add, none, map_zero, sub_zero] at zero
  exact (injective_iff_map_eq_zero _).mp injective x zero

variable {p : Poly}

theorem below_erase {e : Atom →₀ ℕ} {a : Atom} (below : Below (insert a S) e) :
    Below S (e.erase a) := by
  intro b member
  rw [Finsupp.support_erase, Finset.mem_erase] at member
  obtain ⟨inside, index⟩ := below b member.2
  refine ⟨(Finset.mem_insert.mp inside).resolve_left member.1, fun q l same => ?_⟩
  rw [Finsupp.erase_ne member.1]
  exact index q l same

theorem below_lt {e : Atom →₀ ℕ} (below : Below S e) : e (.root p k) < k := by
  by_cases occurs : Atom.root p k ∈ e.support
  · exact (below _ occurs).2 p k rfl
  · rw [Finsupp.notMem_support_iff.mp occurs]
    exact NeZero.pos k

/-- The larger ring. -/
noncomputable def adjoin (p : Poly) : Adjunction (insert (.root p k) S) (Extended c k) where
  root b := if b = .root p k then AdjoinRoot.root _ else AdjoinRoot.of _ (E.root b)
  independent := by
    have := E.nontrivial
    let split (e : { e // Below (insert (.root p k) S) e }) : { e // Below S e } × Fin k :=
      (⟨e.1.erase (.root p k), below_erase e.2⟩, ⟨e.1 (.root p k), below_lt k e.2⟩)
    have injective : Function.Injective split := by
      intro e e' same
      have others := congrArg (fun x => x.1.1) same
      have power := congrArg (fun x => x.2.1) same
      refine Subtype.ext (Finsupp.ext fun b => ?_)
      by_cases new : b = .root p k
      · rw [new]
        exact power
      · have equal := DFunLike.congr_fun others b
        rwa [Finsupp.erase_ne new, Finsupp.erase_ne new] at equal
    have independent := (linearIndependent_smul E.independent
      (powers_linearIndependent c k)).comp split injective
    convert independent using 1
    funext e
    rw [Function.comp_apply, Algebra.smul_def, AdjoinRoot.algebraMap_eq, map_finsuppProd,
      ← Finsupp.mul_prod_erase' e.1 (.root p k) _ fun _ => pow_zero _, if_pos rfl, mul_comm]
    congr 1
    refine Finsupp.prod_congr fun b member => ?_
    rw [Finsupp.support_erase, Finset.mem_erase] at member
    rw [if_neg member.1, map_pow]
  exponent := E.nextExponent c k
  injective := E.nextExponent_injective c k
  level := E.level + 1
  below := E.nextExponent_below c k
  card := extension_card c k E.card

/-- Values of polynomials in the smaller ring are their values in the larger one. -/
theorem adjoin_poly (p : Poly) (R : Set (ℕ × ℕ)) (max : Nat) {q : Poly}
    (every : q.Every fun f => f.1 ≠ .root p k ∧ Nonnegative S f) :
    ((E.adjoin c k p).valuation R max).poly q =
      AdjoinRoot.of (X ^ k - C c) ((E.valuation R max).poly q) := by
  refine Valuation.poly_map _ (fun f holds => ?_) (fun x => ?_) q every
  · obtain ⟨a, n⟩ := f
    obtain ⟨other, nonneg⟩ := holds
    change intPower ((E.adjoin c k p).value R a) n =
      AdjoinRoot.of _ (intPower (E.value R a) n)
    by_cases member : a ∈ S
    · have root : (E.adjoin c k p).value R a = AdjoinRoot.of _ (E.value R a) := by
        rw [value, value, if_pos (Finset.mem_insert_of_mem member), if_pos member]
        exact if_neg other
      rw [root, intPower_of_nonneg (nonneg member), intPower_of_nonneg (nonneg member), map_pow]
    · have outside : a ∉ insert (Atom.root p k) S := by
        simp [other, member]
      rw [value, value, if_neg outside, if_neg member, intPower_algebraMap, intPower_algebraMap]
      rfl
  · change algebraMap Formal _ (product (0, E.nextExponent c k _)) = _
    rw [nextExponent_of]
    rfl

end Step

/-! ## No roots -/

/-- The field itself. -/
noncomputable def field : Adjunction ∅ Formal where
  root _ := 0
  independent := by
    have single : Subsingleton { e // Below ∅ e } := by
      refine ⟨fun e e' => Subtype.ext ?_⟩
      have empty (x : { e // Below ∅ e }) : x.1 = 0 := by
        refine Finsupp.support_eq_empty.mp (Finset.eq_empty_of_forall_notMem fun a member => ?_)
        exact Finset.notMem_empty a (x.2 a member).1
      rw [empty e, empty e']
    refine linearIndependent_subsingleton_index_iff _ |>.mpr fun e => ?_
    rw [Subsingleton.elim e ⟨0, below_zero ∅⟩, Finsupp.prod_zero_index]
    exact one_ne_zero
  exponent := (exists_injective 0 card_le).choose
  injective := (exists_injective 0 card_le).choose_spec.1
  level := 1
  below x i occurs := by
    rw [(exists_injective 0 card_le).choose_spec.2 x i occurs]
    exact Nat.zero_lt_one
  card := card_le

/-! ## Any number of roots -/

/-- The roots can be adjoined if their radicands have no negative exponents of
them.  Smaller roots are adjoined first, so that a radicand has its value before
its root is adjoined. -/
theorem exists_rooted (R : Set (ℕ × ℕ)) (max : Nat) (S : Finset Atom)
    (roots : ∀ a ∈ S, ∃ p k, a = .root p k ∧ k ≠ 0 ∧ p.Every (Nonnegative S)) :
    ∃ (A : Type) (_ : CommRing A) (_ : Algebra ℚ A) (_ : Algebra Formal A) (E : Adjunction S A),
      E.Rooted R max := by
  induction S using Finset.induction_on_max_value (sizeOf : Atom → ℕ) with
  | empty => exact ⟨Formal, _, inferInstance, inferInstance, field, fun p k member =>
      absurd member (Finset.notMem_empty _)⟩
  | insert a S _ largest ih =>
    have fewer {f : Atom × Int} (nonneg : Nonnegative (insert a S) f) : Nonnegative S f :=
      fun member => nonneg (Finset.mem_insert_of_mem member)
    obtain ⟨A, _, _, _, E, rooted⟩ := ih fun b member => by
      obtain ⟨q, l, rfl, proper, every⟩ := roots b (Finset.mem_insert_of_mem member)
      exact ⟨q, l, rfl, proper, Poly.Every.imp q every fun f _ => fewer⟩
    obtain ⟨p, k, rfl, proper, -⟩ := roots _ (Finset.mem_insert_self _ _)
    have : NeZero k := ⟨proper⟩
    refine ⟨_, inferInstance, inferInstance, inferInstance,
      E.adjoin ((E.valuation R max).poly p) k p, fun q l member => ?_⟩
    obtain ⟨q', l', same, -, every⟩ := roots _ member
    obtain ⟨rfl, rfl⟩ := Atom.root.inj same
    have size : sizeOf (Atom.root q l) ≤ sizeOf (Atom.root p k) := by
      rcases Finset.mem_insert.mp member with same | old
      · rw [same]
      · exact largest _ old
    have value := E.adjoin_poly ((E.valuation R max).poly p) k p R max
      (Poly.Every.imp q every fun f smaller nonneg => by
        refine ⟨fun equal => ?_, fewer nonneg⟩
        rw [equal] at smaller
        simp only [Atom.root.sizeOf_spec] at size smaller
        omega)
    rw [value]
    by_cases new : Atom.root q l = .root p k
    · obtain ⟨rfl, rfl⟩ := Atom.root.inj new
      change (if _ then _ else _) ^ l = _
      rw [if_pos rfl, root_pow]
    · have old := (Finset.mem_insert.mp member).resolve_left new
      change (if _ then _ else _) ^ l = _
      rw [if_neg new, ← map_pow, rooted q l old]

end Adjunction

end Formal

end Discharge
