import Mathlib.LinearAlgebra.LinearIndependent.Defs
import Discharge.Proofs.Normal.Product

/-! Uniqueness of canonical forms. Increasing lists are determined by their
elements: a monomial by the exponents of its atoms, a polynomial by its
coefficients. So a polynomial is determined by its value where the values of
different monomials are linearly independent over the rationals. -/

namespace Discharge

/-! ## Lists in order -/

/-- Two increasing lists with the same elements are equal. -/
theorem eq_of_mem_iff {α : Type} {less : α → α → Prop} {l l' : List α}
    (asymmetric : ∀ a b, less a b → ¬ less b a) (left : l.Pairwise less) (right : l'.Pairwise less)
    (same : ∀ a, a ∈ l ↔ a ∈ l') : l = l' := by
  have distinct : ∀ {k : List α}, k.Pairwise less → k.Nodup := by
    refine fun increasing => increasing.imp fun {a b} lt equal => ?_
    subst equal
    exact asymmetric a a lt lt
  have permuted := (List.perm_ext_iff_of_nodup (distinct left) (distinct right)).mpr same
  exact permuted.eq_of_pairwise (fun a b _ _ lt gt => absurd gt (asymmetric a b lt)) left right

theorem Atom.compare_asymm (a b : Atom) (less : Atom.compare a b = .lt) :
    ¬ Atom.compare b a = .lt := by
  intro more
  have loop := Atom.compare_lt_trans a b a less more
  simp [(Atom.compare_eq_iff a a).mpr rfl] at loop

theorem Monomial.compare_asymm (m n : Monomial) (less : Monomial.compare m n = .lt) :
    ¬ Monomial.compare n m = .lt := by
  intro more
  have loop := Monomial.compare_lt_trans m n m less more
  simp [(Monomial.compare_eq_iff m m).mpr rfl] at loop

/-- The factors of an admitted monomial are determined by the exponents of the
atoms that may occur. -/
theorem Valuation.factors_eq_of_counts {A : Type*} [CommRing A] [Algebra ℚ A] {v : Valuation A}
    {m n : Monomial} (left : v.Admits m) (right : v.Admits n)
    (counts : ∀ a, v.known a → m.count a = n.count a) : m.factors = n.factors := by
  have inside : ∀ {k l : Monomial}, v.Admits k → (∀ a, v.known a → k.count a = l.count a) →
      ∀ f ∈ k.factors, f ∈ l.factors := by
    intro k l holds equal f member
    obtain ⟨a, j⟩ := f
    have factor := holds.factor _ member
    have count : k.count a = j := Monomial.exponentIn_of_mem holds.increasing member
    rw [equal a factor.known] at count
    rw [← count]
    exact Monomial.mem_of_exponentIn (by rw [← Monomial.count_eq, count]; exact factor.nonzero)
  exact eq_of_mem_iff (fun f g => Atom.compare_asymm f.1 g.1) left.increasing right.increasing
    fun f => ⟨inside left counts f, inside right (fun a known => (counts a known).symm) f⟩

/-! ## Coefficients -/

namespace Poly

/-- The coefficients of the terms by monomials. -/
noncomputable def coefficients : List (Monomial × Rat) → Monomial →₀ ℚ
  | [] => 0
  | (m, c) :: ts => .single m c + coefficients ts

variable {ts : List (Monomial × Rat)} {m : Monomial} {P : Monomial → Prop}

theorem coefficients_of_absent (absent : ∀ t ∈ ts, m ≠ t.1) : coefficients ts m = 0 := by
  induction ts with
  | nil => rfl
  | cons t ts ih =>
    obtain ⟨head, tail⟩ := List.forall_mem_cons.mp absent
    rw [coefficients, Finsupp.add_apply, Finsupp.single_eq_of_ne head, ih tail, add_zero]

/-- A list without repeated monomials has a term exactly if that is the
coefficient of its monomial. -/
theorem coefficients_of_distinct (distinct : ts.Pairwise fun s t => s.1 ≠ t.1) {c : Rat}
    (nonzero : c ≠ 0) : coefficients ts m = c ↔ (m, c) ∈ ts := by
  induction ts with
  | nil => simp [coefficients, nonzero.symm]
  | cons t ts ih =>
    obtain ⟨n, d⟩ := t
    obtain ⟨apart, rest⟩ := List.pairwise_cons.mp distinct
    rw [coefficients, Finsupp.add_apply, List.mem_cons]
    by_cases same : m = n
    · subst same
      rw [Finsupp.single_eq_same, coefficients_of_absent apart, add_zero]
      constructor
      · intro equal
        exact .inl (by rw [equal])
      · rintro (equal | member)
        · exact (congrArg Prod.snd equal).symm
        · exact absurd rfl (apart (m, c) member)
    · rw [Finsupp.single_eq_of_ne same, zero_add, ih rest]
      simp [same]

/-- An increasing list has a term exactly if that is the coefficient of its
monomial. -/
theorem coefficients_apply (ordered : OrderedTerms ts) {c : Rat} (nonzero : c ≠ 0) :
    coefficients ts m = c ↔ (m, c) ∈ ts := by
  refine coefficients_of_distinct (ordered.increasing.imp fun {s t} less same => ?_) nonzero
  simp [same, (Monomial.compare_eq_iff t.1 t.1).mpr rfl] at less

theorem coefficient_eq (ordered : OrderedTerms ts) (m : Monomial) :
    (ts.lookup m).getD 0 = coefficients ts m := by
  cases found : ts.lookup m with
  | none =>
    refine (coefficients_of_absent fun t member same => ?_).symm
    exact absurd (List.lookup_eq_none_iff.mp found t member) (by simp [same])
  | some c =>
    obtain ⟨before, after, split, -⟩ := List.lookup_eq_some_iff.mp found
    have member : (m, c) ∈ ts := split ▸ List.mem_append_right _ List.mem_cons_self
    exact ((coefficients_apply ordered (ordered.nonzero _ member)).mpr member).symm

theorem coefficients_mergeTerms (ts us : List (Monomial × Rat)) :
    coefficients (mergeTerms ts us) = coefficients ts + coefficients us := by
  induction ts, us using merge_induction with
  | left us => rw [coefficients, zero_add]
  | right ts => rw [coefficients, add_zero]
  | less m c ts n d us out order ih => rw [coefficients, ih, ← add_assoc, ← coefficients]
  | greater m c ts n d us out order ih =>
    rw [coefficients, ih, add_left_comm, ← coefficients]
  | cancel m c ts d us out zero ih =>
    rw [ih, coefficients, coefficients, add_add_add_comm, ← Finsupp.single_add, zero,
      Finsupp.single_zero, zero_add]
  | both m c ts d us out nonzero ih =>
    rw [coefficients, ih, coefficients, coefficients, Finsupp.single_add, add_add_add_comm]

theorem coefficients_supported (all : ∀ t ∈ ts, P t.1) :
    coefficients ts ∈ Finsupp.supported ℚ ℚ { m | P m } := by
  induction ts with
  | nil => exact Submodule.zero_mem _
  | cons t ts ih =>
    obtain ⟨head, tail⟩ := List.forall_mem_cons.mp all
    exact Submodule.add_mem _ (Finsupp.single_mem_supported ℚ _ head) (ih tail)

/-- Polynomials in order with the same coefficients are equal. -/
theorem eq_of_coefficients {p q : Poly} (left : p.Ordered) (right : q.Ordered)
    (same : coefficients p.terms = coefficients q.terms) : p = q := by
  have terms : p.terms = q.terms := by
    refine eq_of_mem_iff (fun s t => Monomial.compare_asymm s.1 t.1) left.increasing
      right.increasing fun t => ⟨fun member => ?_, fun member => ?_⟩
    · have nonzero := left.nonzero t member
      rw [← coefficients_apply right nonzero, ← same]
      exact (coefficients_apply left nonzero).mpr member
    · have nonzero := right.nonzero t member
      rw [← coefficients_apply left nonzero, same]
      exact (coefficients_apply right nonzero).mpr member
  obtain ⟨ts⟩ := p
  obtain ⟨us⟩ := q
  exact congrArg Poly.mk terms

end Poly

/-! ## Values -/

namespace Valuation

variable {A : Type*} [CommRing A] [Algebra ℚ A] {v : Valuation A} {P : Monomial → Prop} {p q : Poly}

theorem terms_eq_linearCombination (ts : List (Monomial × Rat)) :
    v.terms ts = Finsupp.linearCombination ℚ v.monomial (Poly.coefficients ts) := by
  induction ts with
  | nil => simp [Poly.coefficients]
  | cons t ts ih =>
    obtain ⟨m, c⟩ := t
    rw [terms_cons, ih, Poly.coefficients, map_add, Finsupp.linearCombination_single,
      Algebra.smul_def]

variable (independent : LinearIndepOn ℚ v.monomial { m | P m })

include independent

/-- A polynomial is determined by its value. -/
theorem poly_injective (left : p.Ordered) (right : q.Ordered) (leftAll : p.All P)
    (rightAll : q.All P) (same : v.poly p = v.poly q) : p = q := by
  refine Poly.eq_of_coefficients left right (sub_eq_zero.mp ?_)
  refine linearIndepOn_iff.mp independent _ (Submodule.sub_mem _
    (Poly.coefficients_supported leftAll) (Poly.coefficients_supported rightAll)) ?_
  rw [map_sub, ← terms_eq_linearCombination, ← terms_eq_linearCombination, ← poly_eq, ← poly_eq,
    same, sub_self]

/-- Only the empty polynomial has the value zero. -/
theorem isZero_of_independent (ordered : p.Ordered) (all : p.All P) (zero : v.poly p = 0) :
    p.isZero = true := by
  rw [poly_injective independent ordered .zero all .zero (by rw [zero, poly_zero])]
  rfl

end Valuation

end Discharge
