import Discharge.Proofs.Normal.Division
import Discharge.Proofs.Normal.Irreducible
import Discharge.Proofs.Normal.Symmetry

/-! Multiplying every term of a polynomial by one monomial. Two monomials can be
multiplied exactly if the sums of their exponents are machine integers, and
different monomials stay different. So where nothing can be reduced, a polynomial
that is multiplied by a monomial keeps its terms, each with its coefficient. -/

namespace Discharge

variable {A : Type*} [CommRing A] [Algebra ℚ A] {v : Valuation A}

/-! ## Products of monomials -/

namespace Monomial

variable {k l m n : Monomial}

theorem mergeFactors_ok (fs gs : List (Atom × Int))
    (fits : ∀ a n k, (a, n) ∈ fs → (a, k) ∈ gs → fitsInt64 (n + k) = true) :
    ∃ hs, mergeFactors fs gs = .ok hs := by
  induction fs generalizing gs with
  | nil => exact ⟨gs, mergeFactors_nil_left gs⟩
  | cons f fs below =>
    induction gs with
    | nil => exact ⟨f :: fs, mergeFactors_nil_right _⟩
    | cons g gs rest =>
      obtain ⟨a, n⟩ := f
      obtain ⟨b, k⟩ := g
      rw [mergeFactors_cons_cons]
      cases order : Atom.compare a b with
      | lt =>
        obtain ⟨hs, merged⟩ := below ((b, k) :: gs) fun x i j left right =>
          fits x i j (List.mem_cons_of_mem _ left) right
        exact ⟨(a, n) :: hs, by simp only [merged]; rfl⟩
      | gt =>
        obtain ⟨hs, merged⟩ := rest fun x i j left right =>
          fits x i j left (List.mem_cons_of_mem _ right)
        exact ⟨(b, k) :: hs, by simp only [merged]; rfl⟩
      | eq =>
        obtain rfl := (Atom.compare_eq_iff a b).mp order
        obtain ⟨hs, merged⟩ := below gs fun x i j left right =>
          fits x i j (List.mem_cons_of_mem _ left) (List.mem_cons_of_mem _ right)
        dsimp only
        rw [if_pos (fits a n k List.mem_cons_self List.mem_cons_self), merged]
        split
        · exact ⟨hs, rfl⟩
        · exact ⟨(a, n + k) :: hs, rfl⟩

/-- Two monomials can be multiplied exactly if the sums of their exponents are
machine integers. -/
theorem combine_ok_iff (left : v.Admits m) (right : v.Admits n) :
    (∃ k, m.combine n = .ok k) ↔ ∀ a, fitsInt64 (m.count a + n.count a) = true := by
  constructor
  · rintro ⟨k, combined⟩ a
    rw [← Valuation.count_combine left right combined a]
    by_cases zero : k.count a = 0
    · rw [zero]
      rfl
    · exact (((Valuation.combine_ensures left right).of_ok combined).1.of_count zero).fits
  · intro fits
    obtain ⟨fs, merged⟩ := mergeFactors_ok m.factors n.factors fun a i j first second => by
      have sum := fits a
      rwa [count_eq, count_eq, exponentIn_of_mem left.increasing first,
        exponentIn_of_mem right.increasing second] at sum
    exact ⟨⟨fs, m.exp.add n.exp⟩, by rw [combine, merged]; rfl⟩

/-- Products of different monomials with the same monomial are different. -/
theorem combine_injective (left : v.Admits m) (right : v.Admits n) (factor : v.Admits k)
    (first : m.combine k = .ok l) (second : n.combine k = .ok l) : m = n := by
  have counts : ∀ a, v.known a → m.count a = n.count a := fun a _ => by
    have sum := Valuation.count_combine left factor first a
    have sum' := Valuation.count_combine right factor second a
    omega
  have exponents : m.exp = n.exp := by
    obtain ⟨fs, -, same⟩ := bind_eq_ok first
    obtain ⟨gs, -, same'⟩ := bind_eq_ok second
    have sum : m.exp.add k.exp = n.exp.add k.exp := by
      exact (congrArg Monomial.exp (Except.ok.inj same)).trans
        (congrArg Monomial.exp (Except.ok.inj same')).symm
    refine Poly.eq_of_coefficients left.exponent right.exponent ?_
    have sums := congrArg (fun p => Poly.coefficients p.terms) sum
    simpa [Poly.add, Poly.coefficients_mergeTerms] using sums
  have factors := Valuation.factors_eq_of_counts left right counts
  cases m
  cases n
  exact congrArg₂ Monomial.mk factors exponents

end Monomial

/-! ## Shifts -/

namespace Poly

variable {p q : Poly} {m n : Monomial} {ts us : List (Monomial × Rat)}

/-- The second term is the first one, multiplied by a monomial. -/
def Shifted (m : Monomial) (t u : Monomial × Rat) : Prop := t.1.combine m = .ok u.1 ∧ u.2 = t.2

theorem shiftTerms_shifted {ps : List Poly}
    (irreducible : ∀ t ∈ ts, ∀ k, t.1.combine m = .ok k → k.Irreducible)
    (ran : shiftTerms m ts = .ok ps) :
    ∃ us, List.Forall₂ (Shifted m) ts us ∧ ps = us.map fun u => term u.1 u.2 := by
  induction ts generalizing ps with
  | nil =>
    cases ran
    exact ⟨[], .nil, rfl⟩
  | cons t ts ih =>
    obtain ⟨s, c⟩ := t
    obtain ⟨head, tail⟩ := List.forall_mem_cons.mp irreducible
    obtain ⟨k, combined, ran⟩ := bind_eq_ok ran
    obtain ⟨product, reduced, ran⟩ := bind_eq_ok ran
    rw [Monomial.reduce_irreducible (head k combined)] at reduced
    obtain ⟨qs, others, ran⟩ := bind_eq_ok ran
    cases reduced
    cases ran
    obtain ⟨us, shifted, rfl⟩ := ih tail others
    exact ⟨(k, c) :: us, .cons ⟨combined, rfl⟩ shifted,
      by rw [scale_term, Rat.one_mul, List.map_cons]⟩

theorem shiftTerms_ok_iff : (∃ ps, shiftTerms m ts = .ok ps) ↔
    ∀ t ∈ ts, ∃ k r, t.1.combine m = .ok k ∧ k.reduce = .ok r := by
  induction ts with
  | nil => simp [shiftTerms]
  | cons t ts ih =>
    obtain ⟨s, c⟩ := t
    rw [List.forall_mem_cons, ← ih]
    constructor
    · rintro ⟨ps, ran⟩
      obtain ⟨k, combined, ran⟩ := bind_eq_ok ran
      obtain ⟨r, reduced, ran⟩ := bind_eq_ok ran
      obtain ⟨qs, others, -⟩ := bind_eq_ok ran
      exact ⟨⟨k, r, combined, reduced⟩, qs, others⟩
    · rintro ⟨⟨k, r, combined, reduced⟩, qs, others⟩
      refine ⟨r.scale c :: qs, ?_⟩
      rw [shiftTerms, combined]
      simp only [bind, Except.bind, reduced, others]
      rfl

/-- A polynomial can be multiplied by a monomial exactly if all its terms can. -/
theorem shift_ok_iff : (∃ q, p.shift m = .ok q) ↔
    ∀ t ∈ p.terms, ∃ k r, t.1.combine m = .ok k ∧ k.reduce = .ok r := by
  rw [← shiftTerms_ok_iff]
  constructor
  · rintro ⟨q, ran⟩
    obtain ⟨ps, products, -⟩ := bind_eq_ok ran
    exact ⟨ps, products⟩
  · rintro ⟨ps, products⟩
    exact ⟨sum ps, by rw [shift, products]; rfl⟩

theorem shift_irreducible_ok_iff
    (irreducible : ∀ t ∈ p.terms, ∀ k, t.1.combine m = .ok k → k.Irreducible) :
    (∃ q, p.shift m = .ok q) ↔ ∀ t ∈ p.terms, ∃ k, t.1.combine m = .ok k := by
  rw [shift_ok_iff]
  refine forall₂_congr fun t member => exists_congr fun k => ?_
  constructor
  · rintro ⟨r, combined, -⟩
    exact combined
  · intro combined
    exact ⟨_, combined, Monomial.reduce_irreducible (irreducible t member k combined)⟩

theorem mem_shifted (shifted : List.Forall₂ (Shifted m) ts us) {u : Monomial × Rat} :
    u ∈ us ↔ ∃ s, (s, u.2) ∈ ts ∧ s.combine m = .ok u.1 := by
  induction shifted with
  | nil => simp
  | @cons t w ts us first _ ih =>
    obtain ⟨s, c⟩ := t
    obtain ⟨combined, same⟩ := first
    dsimp only at combined same
    simp only [List.mem_cons, ih, Prod.mk.injEq]
    constructor
    · rintro (rfl | ⟨s', member, product⟩)
      · exact ⟨s, .inl ⟨rfl, same⟩, combined⟩
      · exact ⟨s', .inr member, product⟩
    · rintro ⟨s', ⟨rfl, coefficient⟩ | member, product⟩
      · refine .inl (Prod.ext ?_ (coefficient.trans same.symm))
        rw [combined] at product
        exact (Except.ok.inj product).symm
      · exact .inr ⟨s', member, product⟩

theorem coefficients_terms (us : List (Monomial × Rat)) :
    ((us.map fun u => term u.1 u.2).map fun p => coefficients p.terms).sum = coefficients us := by
  induction us with
  | nil => rfl
  | cons u us ih =>
    obtain ⟨n, c⟩ := u
    rw [List.map_cons, List.map_cons, List.sum_cons, ih, coefficients]
    by_cases zero : c = 0
    · simp [zero, Poly.zero, coefficients]
    · simp [term_of_ne_zero zero, coefficients]

/-- Where nothing can be reduced, the terms of a shifted polynomial are the
products of its terms, each with its coefficient. -/
theorem mem_shift (admitted : v.AdmitsPoly p) (factor : v.Admits m)
    (irreducible : ∀ t ∈ p.terms, ∀ k, t.1.combine m = .ok k → k.Irreducible)
    (ran : p.shift m = .ok q) (u : Monomial × Rat) :
    u ∈ q.terms ↔ ∃ s, (s, u.2) ∈ p.terms ∧ s.combine m = .ok u.1 := by
  obtain ⟨ps, products, total⟩ := bind_eq_ok ran
  cases total
  obtain ⟨us, shifted, rfl⟩ := shiftTerms_shifted irreducible products
  have proper : ∀ u ∈ us, u.2 ≠ 0 := fun u member => by
    obtain ⟨s, old, -⟩ := (mem_shifted shifted).mp member
    exact admitted.ordered.nonzero (s, u.2) old
  -- Different terms have different products.
  have distinct : us.Pairwise fun u w => u.1 ≠ w.1 := by
    have apart := admitted.ordered.increasing
    have all : ∀ t ∈ p.terms, v.Admits t.1 := admitted.all
    clear ran products irreducible proper admitted
    generalize p.terms = ts at shifted apart all
    induction shifted with
    | nil => exact .nil
    | @cons t u ts us first rest ih =>
      obtain ⟨before, apart⟩ := List.pairwise_cons.mp apart
      obtain ⟨head, tail⟩ := List.forall_mem_cons.mp all
      refine List.pairwise_cons.mpr ⟨fun w member same => ?_, ih apart tail⟩
      obtain ⟨s, old, product⟩ := (mem_shifted rest).mp member
      have equal := Monomial.combine_injective head (tail _ old) factor first.1 (same ▸ product)
      have less := before _ old
      simp [equal, (Monomial.compare_eq_iff s s).mpr rfl] at less
  rw [← mem_shifted shifted]
  have ordered : Ordered (sum (us.map fun u => term u.1 u.2)) := by
    refine .sum fun p member => ?_
    obtain ⟨u, -, rfl⟩ := List.mem_map.mp member
    exact .term u.1 u.2
  have same : coefficients (sum (us.map fun u => term u.1 u.2)).terms = coefficients us := by
    rw [coefficients_sum, coefficients_terms]
  constructor
  · intro member
    have nonzero := ordered.nonzero u member
    rw [← coefficients_of_distinct distinct nonzero, ← same]
    exact (coefficients_apply ordered nonzero).mpr member
  · intro member
    rw [← coefficients_apply ordered (proper u member), same]
    exact (coefficients_of_distinct distinct (proper u member)).mpr member

end Poly

end Discharge
