import Discharge.Proofs.Normal.Factors
import Discharge.Proofs.Normal.Terms
import Discharge.Normal.Fraction

/-! The common monomial of a polynomial. The exponent of an atom in it is the
least of the exponents of the atom in the terms, so that dividing by it leaves
no negative exponent; surds are left out of it, and so are exponentials. -/

namespace Discharge

namespace Monomial

variable {fs gs : List (Atom × Int)} {a b : Atom} {n : Int}

/-! ## Setting an exponent -/

theorem lookup_cons_eq (b : Atom) (n : Int) (fs : List (Atom × Int)) (x : Atom) :
    ((b, n) :: fs).lookup x = if x = b then some n else fs.lookup x := by
  rw [List.lookup_cons]
  by_cases same : x = b
  · simp [same]
  · simp [same, beq_eq_false_iff_ne.mpr same]

theorem lookup_setCount (a : Atom) (n : Int) (fs : List (Atom × Int)) (x : Atom) :
    (setCount a n fs).lookup x = if x = a then some n else fs.lookup x := by
  induction fs with
  | nil => rw [setCount, lookup_cons_eq]
  | cons f fs ih =>
    obtain ⟨b, k⟩ := f
    rw [setCount]
    cases order : Atom.compare a b with
    | lt => rw [lookup_cons_eq]
    | eq =>
      obtain rfl := (Atom.compare_eq_iff a b).mp order
      simp only [lookup_cons_eq]
      by_cases same : x = a
      · simp [same]
      · simp [same]
    | gt =>
      have different : b ≠ a := by
        rintro rfl
        simp [(Atom.compare_eq_iff b b).mpr rfl] at order
      simp only [lookup_cons_eq, ih]
      by_cases same : x = b
      · simp [same, different]
      · simp [same]

theorem mem_setCount {f : Atom × Int} (member : f ∈ setCount a n fs) : f = (a, n) ∨ f ∈ fs := by
  induction fs with
  | nil => exact .inl (List.mem_singleton.mp member)
  | cons g fs ih =>
    obtain ⟨b, k⟩ := g
    rw [setCount] at member
    split at member
    · exact (List.mem_cons.mp member).imp_right id
    · exact (List.mem_cons.mp member).imp_right (List.mem_cons_of_mem _)
    · rcases List.mem_cons.mp member with rfl | member
      · exact .inr List.mem_cons_self
      · exact (ih member).imp_right (List.mem_cons_of_mem _)

theorem Behind.setCount (less : Atom.compare b a = .lt) (behind : Behind b fs) (n : Int) :
    Behind b (setCount a n fs) := by
  induction fs with
  | nil => exact behind_cons.mpr ⟨less, behind⟩
  | cons f fs ih =>
    obtain ⟨c, k⟩ := f
    obtain ⟨first, rest⟩ := behind_cons.mp behind
    rw [Monomial.setCount]
    split
    · exact behind_cons.mpr ⟨less, behind⟩
    · exact behind_cons.mpr ⟨less, rest⟩
    · exact behind_cons.mpr ⟨first, ih rest⟩

theorem Increasing.setCount (increasing : Increasing fs) (a : Atom) (n : Int) :
    Increasing (setCount a n fs) := by
  induction fs with
  | nil => exact List.pairwise_singleton _ _
  | cons f fs ih =>
    obtain ⟨b, k⟩ := f
    obtain ⟨behind, rest⟩ := increasing_cons.mp increasing
    rw [Monomial.setCount]
    cases order : Atom.compare a b with
    | lt =>
      exact increasing_cons.mpr ⟨behind_cons.mpr ⟨order, .trans order behind⟩, increasing⟩
    | eq =>
      obtain rfl := (Atom.compare_eq_iff a b).mp order
      exact increasing_cons.mpr ⟨behind, rest⟩
    | gt =>
      exact increasing_cons.mpr ⟨behind.setCount (Atom.compare_gt_iff.mp order) n, ih rest⟩

/-! ## Lowering exponents -/

theorem lookup_map_min (g : Atom → Int) (fs : List (Atom × Int)) (x : Atom) :
    (fs.map fun f => (f.1, min f.2 (g f.1))).lookup x = (fs.lookup x).map fun n => min n (g x) := by
  induction fs with
  | nil => rfl
  | cons f fs ih =>
    obtain ⟨b, k⟩ := f
    simp only [List.map_cons, lookup_cons_eq, ih]
    by_cases same : x = b
    · simp [same]
    · simp [same]

/-- Adding the negative exponents of a second list to a first one leaves what
stands in the first. -/
theorem exponentIn_foldl_setCount (increasing : Increasing gs) (fs : List (Atom × Int)) (x : Atom) :
    exponentIn (gs.foldl (fun fs f =>
        if f.2 < 0 ∧ (fs.lookup f.1).isNone then setCount f.1 f.2 fs else fs) fs) x =
      (fs.lookup x).getD (min 0 (exponentIn gs x)) := by
  induction gs generalizing fs with
  | nil => simp [exponentIn]
  | cons g gs ih =>
    obtain ⟨b, k⟩ := g
    obtain ⟨behind, rest⟩ := increasing_cons.mp increasing
    rw [List.foldl_cons, ih rest, exponentIn_cons]
    split
    · rename_i taken
      rw [lookup_setCount]
      by_cases same : x = b
      · have absent : fs.lookup b = none := by simpa using taken.2
        have negative : k < 0 := taken.1
        simp [same, absent, min_eq_right negative.le]
      · simp [same]
    · rename_i kept
      by_cases same : x = b
      · -- The atom comes only once, so that later factors change nothing.
        subst same
        rw [if_pos rfl, exponentIn_of_behind behind]
        cases found : fs.lookup x with
        | some l => rfl
        | none =>
          have nonneg : 0 ≤ k := by
            by_contra negative
            exact kept ⟨not_le.mp negative, by simp [found]⟩
          simp [min_eq_left nonneg]
      · simp [same]

/-- Lowering takes the lesser exponent of every atom. -/
theorem exponentIn_lowerCounts {m : Monomial} (increasing : Increasing m.factors)
    (fs : List (Atom × Int)) (x : Atom) :
    exponentIn (Poly.lowerCounts fs m) x = min (exponentIn fs x) (m.count x) := by
  unfold Poly.lowerCounts
  rw [exponentIn_foldl_setCount increasing, lookup_map_min m.count]
  unfold exponentIn
  cases fs.lookup x <;> rfl

theorem Increasing.lowerCounts (increasing : Increasing fs) (m : Monomial) :
    Increasing (Poly.lowerCounts fs m) := by
  have lowered : Increasing (fs.map fun f => (f.1, min f.2 (m.count f.1))) :=
    increasing.of_sublist (by simp [Function.comp_def])
  unfold Poly.lowerCounts
  generalize fs.map (fun f => (f.1, min f.2 (m.count f.1))) = hs at lowered ⊢
  generalize m.factors = gs
  induction gs generalizing hs with
  | nil => exact lowered
  | cons g gs ih =>
    rw [List.foldl_cons]
    split
    · exact ih _ (lowered.setCount _ _)
    · exact ih _ lowered

/-- Lowering by a list of terms gives the least of the exponents: a lower bound
of them that is one of them. -/
theorem exponentIn_foldl_lowerCounts (ts : List (Monomial × Rat))
    (each : ∀ t ∈ ts, Increasing t.1.factors) (fs : List (Atom × Int)) (x : Atom) :
    let least := exponentIn (ts.foldl (fun fs t => Poly.lowerCounts fs t.1) fs) x
    least ≤ exponentIn fs x ∧ (∀ t ∈ ts, least ≤ t.1.count x) ∧
      (least = exponentIn fs x ∨ ∃ t ∈ ts, t.1.count x = least) := by
  induction ts generalizing fs with
  | nil => simp
  | cons t ts ih =>
    obtain ⟨head, tail⟩ := List.forall_mem_cons.mp each
    obtain ⟨below, all, attained⟩ := ih tail (Poly.lowerCounts fs t.1)
    rw [exponentIn_lowerCounts head] at below attained
    simp only [List.foldl_cons]
    refine ⟨below.trans (min_le_left _ _), fun u member => ?_, ?_⟩
    · rcases List.mem_cons.mp member with rfl | member
      · exact below.trans (min_le_right _ _)
      · exact all u member
    · rcases attained with same | ⟨u, member, same⟩
      · rcases min_choice (exponentIn fs x) (t.1.count x) with left | right
        · exact .inl (same.trans left)
        · exact .inr ⟨t, List.mem_cons_self, (same.trans right).symm⟩
      · exact .inr ⟨u, List.mem_cons_of_mem _ member, same⟩

theorem Increasing.foldl_lowerCounts (increasing : Increasing fs) (ts : List (Monomial × Rat)) :
    Increasing (ts.foldl (fun fs t => Poly.lowerCounts fs t.1) fs) := by
  induction ts generalizing fs with
  | nil => exact increasing
  | cons t ts ih => exact ih (increasing.lowerCounts t.1)

end Monomial

/-! ## The common monomial -/

namespace Poly

open Monomial (Increasing exponentIn)

variable {p : Poly} {a : Atom} {n : Int}

theorem commonMonomial_exp (p : Poly) : p.commonMonomial.exp = .zero := by
  unfold commonMonomial
  split <;> rfl

theorem commonMonomial_increasing (each : p.All fun m => Increasing m.factors) :
    Increasing p.commonMonomial.factors := by
  unfold commonMonomial
  split
  · exact .nil
  · rename_i first c ts terms
    have head : Increasing first.factors := each (first, c) (by simp [terms])
    exact (head.foldl_lowerCounts p.terms).filter _

/-- A factor of the common monomial is a factor of one of the terms, and no surd. -/
theorem mem_commonMonomial (each : p.All fun m => Increasing m.factors)
    (member : (a, n) ∈ p.commonMonomial.factors) :
    n ≠ 0 ∧ a.isQuadraticSurd = false ∧ ∃ t ∈ p.terms, t.1.count a = n := by
  unfold commonMonomial at member
  split at member
  · exact absurd member List.not_mem_nil
  · rename_i first c ts terms
    have head : Increasing first.factors := each (first, c) (by simp [terms])
    obtain ⟨old, kept⟩ := List.mem_filter.mp member
    have least := Monomial.exponentIn_of_mem (head.foldl_lowerCounts p.terms) old
    obtain ⟨-, -, attained⟩ := Monomial.exponentIn_foldl_lowerCounts p.terms each first.factors a
    rw [least] at attained
    obtain ⟨nonzero, plain⟩ : n ≠ 0 ∧ a.isQuadraticSurd = false := by simpa using kept
    refine ⟨nonzero, plain, ?_⟩
    rcases attained with same | found
    · exact ⟨(first, c), by simp [terms], same.symm⟩
    · exact found

/-- The exponent of an atom in the common monomial is the least one among the
terms, unless the atom is a surd. -/
theorem count_commonMonomial (each : p.All fun m => Increasing m.factors)
    (plain : a.isQuadraticSurd = false) (nonempty : p.terms ≠ []) :
    (∀ t ∈ p.terms, p.commonMonomial.count a ≤ t.1.count a) ∧
      ∃ t ∈ p.terms, t.1.count a = p.commonMonomial.count a := by
  unfold commonMonomial
  split
  · rename_i terms
    exact absurd terms nonempty
  · rename_i first c ts terms
    have member : (first, c) ∈ p.terms := by simp [terms]
    have head : Increasing first.factors := each (first, c) member
    obtain ⟨-, below, attained⟩ :=
      Monomial.exponentIn_foldl_lowerCounts p.terms each first.factors a
    have increasing := head.foldl_lowerCounts p.terms
    generalize p.terms.foldl (fun fs t => lowerCounts fs t.1) first.factors = fs
      at below increasing attained
    have same : exponentIn (fs.filter fun f => f.2 ≠ 0 && !f.1.isQuadraticSurd) a =
        exponentIn fs a := by
      by_cases zero : exponentIn fs a = 0
      · by_contra other
        rw [zero] at other
        obtain ⟨old, -⟩ := List.mem_filter.mp (Monomial.mem_of_exponentIn other)
        exact other ((Monomial.exponentIn_of_mem increasing old).symm.trans zero)
      · refine Monomial.exponentIn_of_mem (increasing.filter _) (List.mem_filter.mpr ⟨?_, ?_⟩)
        · exact Monomial.mem_of_exponentIn zero
        · simp [zero, plain]
    rw [Monomial.count_eq, same]
    refine ⟨below, ?_⟩
    rcases attained with least | least
    · exact ⟨(first, c), member, least.symm⟩
    · exact least

/-- No term has a smaller exponent of an atom than the common monomial, unless
the atom is a surd. -/
theorem count_commonMonomial_le (each : p.All fun m => Increasing m.factors)
    (plain : a.isQuadraticSurd = false) {t : Monomial × Rat} (member : t ∈ p.terms) :
    p.commonMonomial.count a ≤ t.1.count a :=
  (count_commonMonomial each plain (List.ne_nil_of_mem member)).1 t member

end Poly

end Discharge
