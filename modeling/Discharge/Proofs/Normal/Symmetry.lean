import Discharge.Proofs.Normal.Irreducible
import Discharge.Proofs.Normal.Uniqueness

/-! Products of polynomials in either order. Merging treats both of its lists
alike, so sums of polynomials and products of monomials do not depend on the
order of their operands. The products of the terms of two polynomials are
computed row by row, or, in the other order, column by column: the two lists
differ by a permutation, which a sum does not see as long as the polynomials
that it adds are in order. Every polynomial that a reduction gives is. If the
products stand in order already, only their number decides whether there is one. -/

namespace Discharge

/-! ## Merging -/

namespace Poly

variable {p q r : Poly}

theorem mergeTerms_comm (ts us : List (Monomial × Rat)) : mergeTerms ts us = mergeTerms us ts := by
  induction ts generalizing us with
  | nil => rw [mergeTerms_nil_left, mergeTerms_nil_right]
  | cons t ts below =>
    induction us with
    | nil => rw [mergeTerms_nil_left, mergeTerms_nil_right]
    | cons u us rest =>
      obtain ⟨m, c⟩ := t
      obtain ⟨n, d⟩ := u
      rw [mergeTerms_cons_cons, mergeTerms_cons_cons, ← Monomial.compare_swap m n]
      cases order : Monomial.compare m n with
      | lt => simp only [Ordering.swap_lt, below]
      | gt => simp only [Ordering.swap_gt, rest]
      | eq =>
        rw [(Monomial.compare_eq_iff m n).mp order]
        simp only [Ordering.swap_eq, below, Rat.add_comm c d]

protected theorem add_comm (p q : Poly) : p.add q = q.add p := by
  rw [add, mergeTerms_comm, add]

end Poly

namespace Monomial

theorem mergeFactors_comm (fs gs : List (Atom × Int)) :
    mergeFactors fs gs = mergeFactors gs fs := by
  induction fs generalizing gs with
  | nil => rw [mergeFactors_nil_left, mergeFactors_nil_right]
  | cons f fs below =>
    induction gs with
    | nil => rw [mergeFactors_nil_left, mergeFactors_nil_right]
    | cons g gs rest =>
      obtain ⟨a, n⟩ := f
      obtain ⟨b, k⟩ := g
      rw [mergeFactors_cons_cons, mergeFactors_cons_cons, ← Atom.compare_swap a b]
      cases order : Atom.compare a b with
      | lt => simp only [Ordering.swap_lt, below]
      | gt => simp only [Ordering.swap_gt, rest]
      | eq =>
        rw [(Atom.compare_eq_iff a b).mp order]
        simp only [Ordering.swap_eq, below, Int.add_comm n k]

/-- The product of two monomials, not reduced, is the same in either order. -/
theorem combine_comm (m n : Monomial) : m.combine n = n.combine m := by
  rw [combine, combine, mergeFactors_comm, Poly.add_comm]

end Monomial

/-! ## Sums in any order -/

namespace Poly

theorem coefficients_sum (ps : List Poly) :
    coefficients (sum ps).terms = (ps.map fun p => coefficients p.terms).sum := by
  refine sum_induction (motive := fun ps p =>
    coefficients p.terms = (ps.map fun p => coefficients p.terms).sum) rfl (fun p => ?single) ?append ps
  case single => rw [List.map_singleton, List.sum_singleton]
  case append =>
    intro ps qs p q left right
    rw [List.map_append, List.sum_append, ← left, ← right]
    exact coefficients_mergeTerms p.terms q.terms

theorem sum_perm {ps qs : List Poly} (each : ∀ p ∈ ps, Ordered p) (permuted : ps.Perm qs) :
    sum ps = sum qs := by
  refine eq_of_coefficients (.sum each) (.sum fun q member => each q (permuted.mem_iff.mpr member)) ?_
  rw [coefficients_sum, coefficients_sum]
  exact (permuted.map _).sum_eq

/-! ## What a reduction gives is in order -/

variable {lower : Monomial → Outcome Poly}

theorem timesTerm_ordered (ordered : ∀ m, Yields (lower m) Ordered) (m : Monomial) (c : Rat)
    (ts : List (Monomial × Rat)) :
    Yields (timesTerm lower m c ts) (fun ps => ∀ p ∈ ps, Ordered p) := by
  induction ts with
  | nil => exact fun p member => absurd member List.not_mem_nil
  | cons t ts rest =>
    refine Yields.bind_ok fun k _ => (ordered k).bind fun product first => ?_
    refine rest.bind fun ps others => ?_
    exact List.forall_mem_cons.mpr ⟨first.scale _, others⟩

theorem timesTerms_ordered (ordered : ∀ m, Yields (lower m) Ordered)
    (us ts : List (Monomial × Rat)) :
    Yields (timesTerms lower us ts) (fun ps => ∀ p ∈ ps, Ordered p) := by
  induction ts with
  | nil => exact fun p member => absurd member List.not_mem_nil
  | cons t ts rest =>
    refine (timesTerm_ordered ordered t.1 t.2 us).bind fun row first => rest.bind fun ps others => ?_
    exact List.forall_mem_append.mpr ⟨first, others⟩

theorem mulWith_ordered (ordered : ∀ m, Yields (lower m) Ordered) (p q : Poly) :
    Yields (mulWith lower p q) Ordered := by
  unfold mulWith
  split
  · trivial
  refine .bind (timesTerms_ordered ordered q.terms p.terms) fun ps each => ?_
  dsimp only
  split
  · trivial
  · exact .sum each

theorem foldlM_mulWith_ordered (ordered : ∀ m, Yields (lower m) Ordered) (ps : List Poly)
    (start : Ordered p) : Yields (ps.foldlM (mulWith lower) p) Ordered := by
  induction ps generalizing p with
  | nil => exact start
  | cons q ps rest => exact .bind (mulWith_ordered ordered p q) fun r first => rest first

end Poly

namespace Monomial

theorem reduceWith_ordered {lower : Monomial → Outcome Poly}
    (ordered : ∀ m, Yields (lower m) Poly.Ordered) (m : Monomial) :
    Yields (reduceWith lower m) Poly.Ordered :=
  Yields.bind_ok fun _ _ => Yields.bind_ok fun _ _ => Poly.foldlM_mulWith_ordered ordered _ (.term _ _)

theorem reduce_ordered (m : Monomial) : Yields m.reduce Poly.Ordered := by
  have deep : ∀ n m, Yields (reduceAt n m) Poly.Ordered := by
    intro n
    induction n with
    | zero => exact reduceWith_ordered fun m => Yields.bind_ok fun _ _ => Poly.Ordered.term _ _
    | succ n below => exact reduceWith_ordered below
  exact deep m.rootDepth m

end Monomial

/-! ## Rows and columns of products -/

namespace Poly

variable {p q r : Poly} {lower : Monomial → Outcome Poly}

/-- A row of products, taken apart. -/
theorem timesTerm_cons {m n : Monomial} {c d : Rat} {ts : List (Monomial × Rat)} {row : List Poly}
    (ran : timesTerm lower m c ((n, d) :: ts) = .ok row) :
    ∃ k product rest, m.combine n = .ok k ∧ lower k = .ok product ∧
      timesTerm lower m c ts = .ok rest ∧ row = product.scale (c * d) :: rest := by
  obtain ⟨k, combined, ran⟩ := bind_eq_ok ran
  obtain ⟨product, reduced, ran⟩ := bind_eq_ok ran
  obtain ⟨rest, others, ran⟩ := bind_eq_ok ran
  cases ran
  exact ⟨k, product, rest, combined, reduced, others, rfl⟩

/-- The products of all terms with one more term on the right: a column, and
the products without it. -/
theorem timesTerms_column {n : Monomial} {d : Rat} {us ts : List (Monomial × Rat)} {ps : List Poly}
    (ran : timesTerms lower ((n, d) :: us) ts = .ok ps) :
    ∃ column rest, timesTerm lower n d ts = .ok column ∧ timesTerms lower us ts = .ok rest ∧
      ps.Perm (column ++ rest) := by
  induction ts generalizing ps with
  | nil =>
    cases ran
    exact ⟨[], [], rfl, rfl, .refl _⟩
  | cons t ts below =>
    obtain ⟨m, c⟩ := t
    obtain ⟨row, first, ran⟩ := bind_eq_ok ran
    obtain ⟨others, later, ran⟩ := bind_eq_ok ran
    cases ran
    obtain ⟨k, product, cells, combined, reduced, across, rfl⟩ := timesTerm_cons first
    obtain ⟨column, rest, down, remaining, permuted⟩ := below later
    refine ⟨product.scale (d * c) :: column, cells ++ rest, ?_, ?_, ?_⟩
    · rw [timesTerm, Monomial.combine_comm, combined]
      simp only [bind, Except.bind, reduced, down]
      rfl
    · rw [timesTerms, across]
      simp only [bind, Except.bind, remaining]
      rfl
    · rw [Rat.mul_comm d c, List.cons_append, List.cons_append, ← List.append_assoc]
      refine .cons _ ((permuted.append_left cells).trans ?_)
      rw [← List.append_assoc]
      exact List.perm_append_comm.append_right rest

theorem timesTerms_swap {us ts : List (Monomial × Rat)} {ps : List Poly}
    (ran : timesTerms lower us ts = .ok ps) :
    ∃ qs, timesTerms lower ts us = .ok qs ∧ ps.Perm qs := by
  induction us generalizing ps with
  | nil =>
    refine ⟨[], rfl, ?_⟩
    have empty : ∀ ts, timesTerms lower [] ts = .ok [] := by
      intro ts
      induction ts with
      | nil => rfl
      | cons t ts rest => simp only [timesTerms, timesTerm, rest]; rfl
    rw [empty] at ran
    cases ran
    exact .refl _
  | cons u us below =>
    obtain ⟨n, d⟩ := u
    obtain ⟨column, rest, down, remaining, permuted⟩ := timesTerms_column ran
    obtain ⟨qs, swapped, others⟩ := below remaining
    refine ⟨column ++ qs, ?_, permuted.trans (others.append_left column)⟩
    rw [timesTerms, down]
    simp only [bind, Except.bind, swapped]
    rfl

/-- A product of two polynomials, taken apart. -/
theorem mulWith_eq_ok :
    mulWith lower p q = .ok r ↔ p.terms.length * q.terms.length ≤ maxTerms * 4 ∧
      ∃ ps, timesTerms lower q.terms p.terms = .ok ps ∧ sum ps = r ∧ r.terms.length ≤ maxTerms := by
  unfold mulWith
  split
  case isTrue wide => exact ⟨nofun, fun within => absurd wide (not_lt.mpr within.1)⟩
  case isFalse within =>
    rw [and_iff_right (not_lt.mp within)]
    cases products : timesTerms lower q.terms p.terms with
    | error e => exact ⟨nofun, fun ⟨_, ran, _⟩ => nomatch ran⟩
    | ok ps =>
      simp only [bind, Except.bind, Except.ok.injEq, exists_eq_left']
      split
      · rename_i long
        exact ⟨nofun, fun ⟨total, short⟩ => absurd (total ▸ long) (not_lt.mpr short)⟩
      · rename_i short
        exact ⟨fun total => by cases total; exact ⟨rfl, not_lt.mp short⟩,
          fun total => congrArg Except.ok total.1⟩

/-- The product of two polynomials is the same in either order. -/
protected theorem mul_comm : p.mul q = .ok r ↔ q.mul p = .ok r := by
  have swap : ∀ {p q : Poly}, p.mul q = .ok r → q.mul p = .ok r := by
    intro p q ran
    obtain ⟨within, ps, products, total, short⟩ := mulWith_eq_ok.mp ran
    obtain ⟨qs, swapped, permuted⟩ := timesTerms_swap products
    have ordered := (timesTerms_ordered Monomial.reduce_ordered q.terms p.terms).of_ok products
    refine mulWith_eq_ok.mpr ⟨?_, qs, swapped, ?_, short⟩
    · rwa [Nat.mul_comm]
    · rw [← total, sum_perm ordered permuted]
  exact ⟨swap, swap⟩

/-- A product whose terms stand in order is only a matter of its size. -/
theorem mul_returns (products : timesTerms Monomial.reduce q.terms p.terms =
      .ok (r.terms.map fun t => .term t.1 t.2)) (ordered : r.Ordered) :
    Returns (p.mul q) r
      (p.terms.length * q.terms.length ≤ maxTerms * 4 ∧ r.terms.length ≤ maxTerms) := by
  intro s
  rw [mul, mulWith_eq_ok]
  constructor
  · rintro ⟨few, ps, ran, rfl, small⟩
    rw [products] at ran
    cases ran
    rw [sum_terms ordered] at small ⊢
    exact ⟨⟨few, small⟩, rfl⟩
  · rintro ⟨⟨few, small⟩, rfl⟩
    exact ⟨few, _, products, sum_terms ordered, small⟩

theorem mul_one_returns (reduced : p.Reduced) :
    Returns (p.mul .one) p (p.terms.length ≤ maxTerms) := by
  refine (mul_returns (timesTerms_one reduced.irreducible) reduced.ordered).congr ?_
  change p.terms.length * 1 ≤ _ ∧ _ ↔ _
  omega

theorem one_mul_returns (reduced : p.Reduced) :
    Returns (Poly.one.mul p) p (p.terms.length ≤ maxTerms) := by
  intro s
  rw [Poly.mul_comm]
  exact mul_one_returns reduced s

end Poly

end Discharge
