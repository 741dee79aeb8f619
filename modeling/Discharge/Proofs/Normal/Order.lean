import Mathlib.Algebra.Order.Ring.Rat
import Mathlib.Data.String.Basic
import Discharge.Normal.Poly

/-! The comparisons of atoms, monomials, polynomials and fractions are strict
total orders: reversing the arguments reverses the answer, and `lt` chains.
Only equal values compare as equal, so an increasing list is determined by
what it contains. -/

namespace Discharge

/-! ## Comparisons of basic data -/

theorem then_eq_lt_iff (a b : Ordering) : a.then b = .lt ↔ a = .lt ∨ a = .eq ∧ b = .lt := by
  cases a <;> simp

theorem compareRat_lt_iff (p q : Rat) : compareRat p q = .lt ↔ p < q := by
  unfold compareRat
  split <;> [simp_all; split <;> simp_all]

theorem compareInt_lt_iff (m n : Int) : compareInt m n = .lt ↔ m < n := by
  unfold compareInt
  split <;> [simp_all; split <;> simp_all]

theorem compareText_lt_iff (s t : String) : compareText s t = .lt ↔ s < t := by
  unfold compareText
  split <;> [simp_all; split <;> simp_all]

theorem compareRat_swap (p q : Rat) : (compareRat p q).swap = compareRat q p := by
  unfold compareRat
  rcases lt_trichotomy p q with less | same | more
  · simp [less, less.not_gt, less.ne']
  · simp [same]
  · simp [more, more.not_gt, more.ne']

theorem compareInt_swap (m n : Int) : (compareInt m n).swap = compareInt n m := by
  unfold compareInt
  rcases lt_trichotomy m n with less | same | more
  · simp [less, less.not_gt, less.ne']
  · simp [same]
  · simp [more, more.not_gt, more.ne']

theorem compareText_swap (s t : String) : (compareText s t).swap = compareText t s := by
  unfold compareText
  rcases lt_trichotomy s t with less | same | more
  · simp [less, less.not_gt, less.ne']
  · simp [same]
  · simp [more, more.not_gt, more.ne']

/-! ## Reversal -/

mutual
theorem Atom.compare_swap : ∀ a b : Atom, (Atom.compare a b).swap = Atom.compare b a
  | .symbol _, b => by
    cases b <;> simp [Atom.compare, compareText_swap, compareInt_swap]
  | .pi, b => by cases b <;> simp [Atom.compare, compareInt_swap]
  | .imaginary, b => by cases b <;> simp [Atom.compare, compareInt_swap]
  | .root p k, b => by
    cases b <;> simp [Atom.compare, Ordering.swap_then, compareInt_swap, Poly.compare_swap p]
  | .ln a, b => by
    cases b <;> simp [Atom.compare, compareInt_swap, Fraction.compare_swap a]
  | .power a e, b => by
    cases b <;> simp [Atom.compare, Ordering.swap_then, compareInt_swap, Fraction.compare_swap a,
      Fraction.compare_swap e]
  | .exp a, b => by
    cases b <;> simp [Atom.compare, compareInt_swap, Fraction.compare_swap a]

theorem Monomial.compare_swap : ∀ m n : Monomial,
    (Monomial.compare m n).swap = Monomial.compare n m
  | ⟨fs, e⟩, ⟨gs, f⟩ => by
    simp [Monomial.compare, Ordering.swap_then, compareFactors_swap fs, Poly.compare_swap e]

theorem Poly.compare_swap : ∀ p q : Poly, (Poly.compare p q).swap = Poly.compare q p
  | ⟨ts⟩, ⟨us⟩ => by simp [Poly.compare, compareTerms_swap ts]

theorem Fraction.compare_swap : ∀ r s : Fraction,
    (Fraction.compare r s).swap = Fraction.compare s r
  | ⟨n, d⟩, ⟨m, e⟩ => by
    simp [Fraction.compare, Ordering.swap_then, Poly.compare_swap n, Poly.compare_swap d]

theorem compareFactors_swap : ∀ fs gs : List (Atom × Int),
    (compareFactors fs gs).swap = compareFactors gs fs
  | [], gs => by cases gs <;> simp [compareFactors]
  | _ :: _, [] => by simp [compareFactors]
  | (a, m) :: fs, (b, n) :: gs => by
    simp [compareFactors, Ordering.swap_then, compareInt_swap, Atom.compare_swap a,
      compareFactors_swap fs]

theorem compareTerms_swap : ∀ ts us : List (Monomial × Rat),
    (compareTerms ts us).swap = compareTerms us ts
  | [], us => by cases us <;> simp [compareTerms]
  | _ :: _, [] => by simp [compareTerms]
  | (m, p) :: ts, (n, q) :: us => by
    simp [compareTerms, Ordering.swap_then, compareRat_swap, Monomial.compare_swap m,
      compareTerms_swap ts]
end

/-! ## Chains -/

theorem Atom.compare_of_kind_ne {a b : Atom} (different : a.kind ≠ b.kind) :
    Atom.compare a b = compareInt a.kind b.kind := by
  cases a <;> cases b <;> simp_all [Atom.compare, Atom.kind]

theorem Atom.kind_le_of_compare_lt {a b : Atom} (less : Atom.compare a b = .lt) :
    a.kind ≤ b.kind := by
  by_cases same : a.kind = b.kind
  · exact same.le
  · rw [Atom.compare_of_kind_ne same, compareInt_lt_iff] at less
    omega

theorem Atom.compare_lt_of_kind_lt {a b : Atom} (later : a.kind < b.kind) :
    Atom.compare a b = .lt := by
  rw [Atom.compare_of_kind_ne later.ne, compareInt_lt_iff]
  omega

/-- A lexicographic comparison chains when its two parts do; where the first
part is equal, its arguments are. -/
theorem lex_lt_trans {α : Type} {f : α → α → Ordering} {a b c : α} {xy yz xz : Ordering}
    (eq_f : ∀ u v, f u v = .eq ↔ u = v) (trans_f : f a b = .lt → f b c = .lt → f a c = .lt)
    (trans_rest : xy = .lt → yz = .lt → xz = .lt)
    (left : (f a b).then xy = .lt) (right : (f b c).then yz = .lt) : (f a c).then xz = .lt := by
  rw [then_eq_lt_iff] at left right ⊢
  simp only [eq_f] at left right ⊢
  rcases left with ab | ⟨rfl, xy⟩
  · rcases right with bc | ⟨rfl, yz⟩
    · exact .inl (trans_f ab bc)
    · exact .inl ab
  · rcases right with bc | ⟨rfl, yz⟩
    · exact .inl bc
    · exact .inr ⟨rfl, trans_rest xy yz⟩

theorem compareInt_lt_trans {m n k : Int} (left : compareInt m n = .lt)
    (right : compareInt n k = .lt) : compareInt m k = .lt := by
  rw [compareInt_lt_iff] at *
  exact left.trans right

theorem compareRat_lt_trans {p q r : Rat} (left : compareRat p q = .lt)
    (right : compareRat q r = .lt) : compareRat p r = .lt := by
  rw [compareRat_lt_iff] at *
  exact left.trans right

theorem compareText_lt_trans {s t u : String} (left : compareText s t = .lt)
    (right : compareText t u = .lt) : compareText s u = .lt := by
  rw [compareText_lt_iff] at *
  exact left.trans right

mutual
theorem Atom.compare_lt_trans : ∀ a b c : Atom,
    Atom.compare a b = .lt → Atom.compare b c = .lt → Atom.compare a c = .lt
  | a, b, c, left, right => by
    have first := Atom.kind_le_of_compare_lt left
    have second := Atom.kind_le_of_compare_lt right
    by_cases later : a.kind < c.kind
    · exact Atom.compare_lt_of_kind_lt later
    -- The chain stays within one kind, where the arguments are compared.
    have sameFirst : a.kind = b.kind := by omega
    have sameSecond : b.kind = c.kind := by omega
    match a, b, c, sameFirst, sameSecond with
    | .symbol _, .symbol _, .symbol _, _, _ =>
      rw [Atom.compare] at left right ⊢
      exact compareText_lt_trans left right
    | .pi, .pi, _, _, _ => exact absurd left (by simp [Atom.compare, compareInt])
    | .imaginary, .imaginary, _, _, _ => exact absurd left (by simp [Atom.compare, compareInt])
    | .root p _, .root q _, .root o _, _, _ =>
      rw [Atom.compare] at left right ⊢
      exact lex_lt_trans Poly.compare_eq_iff (Poly.compare_lt_trans p q o)
        compareInt_lt_trans left right
    | .ln r, .ln s, .ln t, _, _ =>
      rw [Atom.compare] at left right ⊢
      exact Fraction.compare_lt_trans r s t left right
    | .power r e, .power s f, .power t g, _, _ =>
      rw [Atom.compare] at left right ⊢
      exact lex_lt_trans Fraction.compare_eq_iff (Fraction.compare_lt_trans r s t)
        (Fraction.compare_lt_trans e f g) left right
    | .exp r, .exp s, .exp t, _, _ =>
      rw [Atom.compare] at left right ⊢
      exact Fraction.compare_lt_trans r s t left right

theorem Monomial.compare_lt_trans : ∀ m n o : Monomial,
    Monomial.compare m n = .lt → Monomial.compare n o = .lt → Monomial.compare m o = .lt
  | ⟨fs, e⟩, ⟨gs, f⟩, ⟨hs, g⟩, left, right => by
    rw [Monomial.compare] at left right ⊢
    exact lex_lt_trans compareFactors_eq_iff (compareFactors_lt_trans fs gs hs)
      (Poly.compare_lt_trans e f g) left right

theorem Poly.compare_lt_trans : ∀ p q o : Poly,
    Poly.compare p q = .lt → Poly.compare q o = .lt → Poly.compare p o = .lt
  | ⟨ts⟩, ⟨us⟩, ⟨vs⟩, left, right => by
    rw [Poly.compare] at left right ⊢
    exact compareTerms_lt_trans ts us vs left right

theorem Fraction.compare_lt_trans : ∀ r s t : Fraction,
    Fraction.compare r s = .lt → Fraction.compare s t = .lt → Fraction.compare r t = .lt
  | ⟨n, d⟩, ⟨m, e⟩, ⟨o, f⟩, left, right => by
    rw [Fraction.compare] at left right ⊢
    exact lex_lt_trans Poly.compare_eq_iff (Poly.compare_lt_trans n m o)
      (Poly.compare_lt_trans d e f) left right

theorem compareFactors_lt_trans : ∀ fs gs hs : List (Atom × Int),
    compareFactors fs gs = .lt → compareFactors gs hs = .lt → compareFactors fs hs = .lt
  | [], [], _, left, _ => by simp [compareFactors] at left
  | [], _ :: _, [], _, right => by simp [compareFactors] at right
  | [], _, _ :: _, _, _ => by simp [compareFactors]
  | _ :: _, [], _, left, _ => by simp [compareFactors] at left
  | _ :: _, _ :: _, [], _, right => by simp [compareFactors] at right
  | (a, k) :: fs, (b, l) :: gs, (c, n) :: hs, left, right => by
    simp only [compareFactors, Ordering.then_assoc] at left right ⊢
    exact lex_lt_trans Atom.compare_eq_iff (Atom.compare_lt_trans a b c)
      (lex_lt_trans compareInt_eq_iff compareInt_lt_trans (compareFactors_lt_trans fs gs hs))
      left right

theorem compareTerms_lt_trans : ∀ ts us vs : List (Monomial × Rat),
    compareTerms ts us = .lt → compareTerms us vs = .lt → compareTerms ts vs = .lt
  | [], [], _, left, _ => by simp [compareTerms] at left
  | [], _ :: _, [], _, right => by simp [compareTerms] at right
  | [], _, _ :: _, _, _ => by simp [compareTerms]
  | _ :: _, [], _, left, _ => by simp [compareTerms] at left
  | _ :: _, _ :: _, [], _, right => by simp [compareTerms] at right
  | (m, p) :: ts, (n, q) :: us, (o, r) :: vs, left, right => by
    simp only [compareTerms, Ordering.then_assoc] at left right ⊢
    exact lex_lt_trans Monomial.compare_eq_iff (Monomial.compare_lt_trans m n o)
      (lex_lt_trans compareRat_eq_iff compareRat_lt_trans (compareTerms_lt_trans ts us vs))
      left right
end

theorem Atom.compare_gt_iff {a b : Atom} : Atom.compare a b = .gt ↔ Atom.compare b a = .lt := by
  rw [← Atom.compare_swap a b]
  cases Atom.compare a b <;> simp

theorem Monomial.compare_gt_iff {m n : Monomial} :
    Monomial.compare m n = .gt ↔ Monomial.compare n m = .lt := by
  rw [← Monomial.compare_swap m n]
  cases Monomial.compare m n <;> simp

end Discharge
