import Discharge.Proofs.Normal.Order

/-! Lists of terms: what merging keeps. A sum of polynomials has no monomial
that none of the summands has, its terms increase when theirs do, and no
coefficient of it is zero. -/

namespace Discharge.Poly

/-- The terms stand in increasing order and none has the coefficient zero. -/
structure OrderedTerms (ts : List (Monomial × Rat)) : Prop where
  increasing : ts.Pairwise fun s t => Monomial.compare s.1 t.1 = .lt
  nonzero : ∀ t ∈ ts, t.2 ≠ 0

/-- The polynomial lists its terms in increasing order, without zeros. -/
def Ordered (p : Poly) : Prop := OrderedTerms p.terms

/-- Every monomial of the polynomial has the property. -/
def All (P : Monomial → Prop) (p : Poly) : Prop := ∀ t ∈ p.terms, P t.1

variable {p q : Poly} {ts us : List (Monomial × Rat)} {P : Monomial → Prop}

/-! ## Merging -/

@[simp] theorem mergeTerms_nil_left (us : List (Monomial × Rat)) : mergeTerms [] us = us := rfl

@[simp] theorem mergeTerms_nil_right (ts : List (Monomial × Rat)) : mergeTerms ts [] = ts := by
  cases ts <;> rfl

theorem mergeTerms_cons_cons (m n : Monomial) (c d : Rat) (ts us : List (Monomial × Rat)) :
    mergeTerms ((m, c) :: ts) ((n, d) :: us) =
      match Monomial.compare m n with
      | .lt => (m, c) :: mergeTerms ts ((n, d) :: us)
      | .gt => (n, d) :: mergeTerms ((m, c) :: ts) us
      | .eq => if c + d = 0 then mergeTerms ts us else (m, c + d) :: mergeTerms ts us := rfl

/-- Merging is an induction on both lists: one of them loses its first term, or
both do. -/
theorem merge_induction {motive : List (Monomial × Rat) → List (Monomial × Rat) →
      List (Monomial × Rat) → Prop}
    (left : ∀ us, motive [] us us) (right : ∀ ts, motive ts [] ts)
    (less : ∀ m c ts n d us out, Monomial.compare m n = .lt → motive ts ((n, d) :: us) out →
      motive ((m, c) :: ts) ((n, d) :: us) ((m, c) :: out))
    (greater : ∀ m c ts n d us out, Monomial.compare n m = .lt → motive ((m, c) :: ts) us out →
      motive ((m, c) :: ts) ((n, d) :: us) ((n, d) :: out))
    (cancel : ∀ m c ts d us out, c + d = 0 → motive ts us out →
      motive ((m, c) :: ts) ((m, d) :: us) out)
    (both : ∀ m c ts d us out, c + d ≠ 0 → motive ts us out →
      motive ((m, c) :: ts) ((m, d) :: us) ((m, c + d) :: out))
    (ts us : List (Monomial × Rat)) : motive ts us (mergeTerms ts us) := by
  induction ts generalizing us with
  | nil => exact left us
  | cons t ts outer =>
    obtain ⟨m, c⟩ := t
    induction us with
    | nil =>
      rw [mergeTerms_nil_right]
      exact right _
    | cons u us inner =>
      obtain ⟨n, d⟩ := u
      rw [mergeTerms_cons_cons]
      cases order : Monomial.compare m n with
      | lt => exact less m c ts n d us _ order (outer _)
      | gt => exact greater m c ts n d us _ (Monomial.compare_gt_iff.mp order) inner
      | eq =>
        obtain rfl := (Monomial.compare_eq_iff m n).mp order
        dsimp only
        split
        · exact cancel m c ts d us _ ‹_› (outer us)
        · exact both m c ts d us _ ‹_› (outer us)

/-- A monomial of a merged list comes from one of the two lists. -/
theorem mem_mergeTerms (ts us : List (Monomial × Rat)) :
    ∀ t ∈ mergeTerms ts us, (∃ c, (t.1, c) ∈ ts) ∨ ∃ c, (t.1, c) ∈ us := by
  induction ts, us using merge_induction with
  | left us => exact fun t member => .inr ⟨t.2, member⟩
  | right ts => exact fun t member => .inl ⟨t.2, member⟩
  | less m c ts n d us out order ih => grind
  | greater m c ts n d us out order ih => grind
  | cancel m c ts d us out zero ih => grind
  | both m c ts d us out nonzero ih => grind

/-- Every monomial of the list comes after `m`. -/
def After (m : Monomial) (ts : List (Monomial × Rat)) : Prop :=
  ∀ t ∈ ts, Monomial.compare m t.1 = .lt

theorem ordered_cons {m : Monomial} {c : Rat} :
    OrderedTerms ((m, c) :: ts) ↔ c ≠ 0 ∧ After m ts ∧ OrderedTerms ts := by
  constructor
  · rintro ⟨increasing, nonzero⟩
    obtain ⟨head, tail⟩ := List.pairwise_cons.mp increasing
    exact ⟨nonzero (m, c) List.mem_cons_self, head,
      tail, fun t member => nonzero t (List.mem_cons_of_mem _ member)⟩
  · rintro ⟨head, after, increasing, nonzero⟩
    refine ⟨List.pairwise_cons.mpr ⟨after, increasing⟩, fun t member => ?_⟩
    rcases List.mem_cons.mp member with rfl | member
    · exact head
    · exact nonzero t member

theorem After.trans {m n : Monomial} (less : Monomial.compare m n = .lt) (after : After n ts) :
    After m ts :=
  fun t member => Monomial.compare_lt_trans m n t.1 less (after t member)

theorem after_cons {m n : Monomial} {c : Rat} :
    After m ((n, c) :: ts) ↔ Monomial.compare m n = .lt ∧ After m ts := by
  simp [After]

/-- Merging two increasing lists without zero coefficients gives another, and
what comes before both comes before the result. -/
theorem ordered_mergeTerms (ts us : List (Monomial × Rat)) :
    (∀ m, After m ts → After m us → After m (mergeTerms ts us)) ∧
      (OrderedTerms ts → OrderedTerms us → OrderedTerms (mergeTerms ts us)) := by
  induction ts, us using merge_induction with
  | left us => exact ⟨fun _ _ after => after, fun _ ordered => ordered⟩
  | right ts => exact ⟨fun _ after _ => after, fun ordered _ => ordered⟩
  | less m c ts n d us out order ih =>
    refine ⟨fun k left right => ?_, fun left right => ?_⟩
    · rw [after_cons] at left ⊢
      exact ⟨left.1, ih.1 k left.2 right⟩
    · rw [ordered_cons] at left ⊢
      have below : After m ((n, d) :: us) :=
        after_cons.mpr ⟨order, After.trans order (ordered_cons.mp right).2.1⟩
      exact ⟨left.1, ih.1 m left.2.1 below, ih.2 left.2.2 right⟩
  | greater m c ts n d us out order ih =>
    refine ⟨fun k left right => ?_, fun left right => ?_⟩
    · rw [after_cons] at right ⊢
      exact ⟨right.1, ih.1 k left right.2⟩
    · rw [ordered_cons] at right ⊢
      have below : After n ((m, c) :: ts) :=
        after_cons.mpr ⟨order, After.trans order (ordered_cons.mp left).2.1⟩
      exact ⟨right.1, ih.1 n below right.2.1, ih.2 left right.2.2⟩
  | cancel m c ts d us out zero ih =>
    refine ⟨fun k left right => ?_, fun left right => ?_⟩
    · exact ih.1 k (after_cons.mp left).2 (after_cons.mp right).2
    · exact ih.2 (ordered_cons.mp left).2.2 (ordered_cons.mp right).2.2
  | both m c ts d us out nonzero ih =>
    refine ⟨fun k left right => ?_, fun left right => ?_⟩
    · rw [after_cons] at left right ⊢
      exact ⟨left.1, ih.1 k left.2 right.2⟩
    · rw [ordered_cons] at left right ⊢
      exact ⟨nonzero, ih.1 m left.2.1 right.2.1, ih.2 left.2.2 right.2.2⟩

/-! ## Sums -/

theorem Ordered.zero : Ordered zero := ⟨.nil, fun _ member => absurd member List.not_mem_nil⟩

theorem Ordered.term (m : Monomial) (c : Rat) : Ordered (term m c) := by
  unfold Poly.term
  split
  · exact .zero
  · exact ordered_cons.mpr ⟨‹_›, fun _ member => absurd member List.not_mem_nil, Ordered.zero⟩

theorem Ordered.ofAtom (a : Atom) : Ordered (ofAtom a) :=
  ordered_cons.mpr ⟨one_ne_zero, fun _ member => absurd member List.not_mem_nil, Ordered.zero⟩

theorem Ordered.add (left : Ordered p) (right : Ordered q) : Ordered (p.add q) :=
  (ordered_mergeTerms p.terms q.terms).2 left right

theorem Ordered.scale (ordered : Ordered p) (c : Rat) : Ordered (p.scale c) := by
  unfold Poly.scale
  split
  · exact .zero
  · refine ⟨List.pairwise_map.mpr ordered.increasing, fun t member => ?_⟩
    obtain ⟨u, old, rfl⟩ := List.mem_map.mp member
    exact mul_ne_zero (ordered.nonzero u old) ‹_›

theorem Ordered.erase (ordered : Ordered p) (m : Monomial) : Ordered (p.erase m) :=
  ⟨ordered.increasing.filter _, fun t member => ordered.nonzero t (List.mem_filter.mp member).1⟩

theorem All.zero : All P zero := fun _ member => absurd member List.not_mem_nil

theorem All.term {m : Monomial} (holds : P m) (c : Rat) : All P (term m c) := by
  unfold Poly.term
  split
  · exact .zero
  · intro t member
    rw [List.mem_singleton.mp member]
    exact holds

theorem All.add (left : All P p) (right : All P q) : All P (p.add q) := by
  intro t member
  rcases mem_mergeTerms p.terms q.terms t member with ⟨c, old⟩ | ⟨c, old⟩
  · exact left (t.1, c) old
  · exact right (t.1, c) old

theorem All.scale (all : All P p) (c : Rat) : All P (p.scale c) := by
  unfold Poly.scale
  split
  · exact .zero
  · intro t member
    obtain ⟨u, old, rfl⟩ := List.mem_map.mp member
    exact all u old

theorem All.mono {Q : Monomial → Prop} (all : All P p) (imp : ∀ m, P m → Q m) : All Q p :=
  fun t member => imp t.1 (all t member)

/-- Adding neighbours groups the summands: it turns sums of groups of
polynomials into sums of larger groups. -/
theorem addPairs_groups {motive : List Poly → Poly → Prop}
    (append : ∀ ps qs p q, motive ps p → motive qs q → motive (ps ++ qs) (p.add q)) :
    ∀ groups : List (List Poly × Poly), (∀ g ∈ groups, motive g.1 g.2) →
      ∃ larger : List (List Poly × Poly), addPairs (groups.map (·.2)) = larger.map (·.2) ∧
        (larger.map (·.1)).flatten = (groups.map (·.1)).flatten ∧ ∀ g ∈ larger, motive g.1 g.2
  | [], each => ⟨[], rfl, rfl, each⟩
  | [g], each => ⟨[g], rfl, rfl, each⟩
  | g :: h :: groups, each => by
    obtain ⟨larger, pairs, same, rest⟩ :=
      addPairs_groups append groups fun k member => each k (by simp [member])
    refine ⟨(g.1 ++ h.1, g.2.add h.2) :: larger, ?_, ?_, fun k member => ?_⟩
    · simp [addPairs, pairs]
    · simp [same]
    · rcases List.mem_cons.mp member with rfl | member
      · exact append _ _ _ _ (each g (by simp)) (each h (by simp))
      · exact rest k member

/-- What holds of no summand and zero and of a single summand, and survives
putting two groups of summands together, holds of every sum. -/
theorem sum_induction {motive : List Poly → Poly → Prop} (nil : motive [] zero)
    (single : ∀ p, motive [p] p)
    (append : ∀ ps qs p q, motive ps p → motive qs q → motive (ps ++ qs) (p.add q))
    (ps : List Poly) : motive ps (sum ps) := by
  have rounds : ∀ n (groups : List (List Poly × Poly)), (∀ g ∈ groups, motive g.1 g.2) →
      motive (groups.map (·.1)).flatten (sumRounds n (groups.map (·.2))) := by
    intro n
    induction n with
    | zero =>
      intro groups each
      induction groups with
      | nil => exact nil
      | cons g groups ih =>
        simp only [List.map_cons, List.flatten_cons, sumRounds, List.foldr_cons] at ih ⊢
        exact append _ _ _ _ (each g (by simp)) (ih fun h member => each h (by simp [member]))
    | succ n ih =>
      intro groups each
      match groups with
      | [] => exact nil
      | [g] => simpa [sumRounds] using each g (by simp)
      | g :: h :: groups =>
        obtain ⟨larger, pairs, same, rest⟩ := addPairs_groups append (g :: h :: groups) each
        have step : sumRounds (n + 1) ((g :: h :: groups).map (·.2)) =
            sumRounds n (addPairs ((g :: h :: groups).map (·.2))) := rfl
        rw [← same, step, pairs]
        exact ih larger rest
  have groups := rounds ps.length (ps.map fun p => ([p], p)) fun g member => by
    obtain ⟨p, _, rfl⟩ := List.mem_map.mp member
    exact single p
  simpa [sum, Function.comp_def, ← List.flatMap_def] using groups

/-- A class of polynomials that sums and rational multiples do not leave. -/
structure Linear (C : Poly → Prop) : Prop where
  zero : C .zero
  add : ∀ {p q}, C p → C q → C (p.add q)
  scale : ∀ {p}, C p → ∀ c, C (p.scale c)

theorem Linear.sum {C : Poly → Prop} (linear : Linear C) {ps : List Poly} (each : ∀ p ∈ ps, C p) :
    C (sum ps) := by
  revert each
  refine sum_induction (motive := fun ps p => (∀ p ∈ ps, C p) → C p) (fun _ => linear.zero)
    (fun p each => each p (by simp)) (fun ps qs p q left right each => ?_) ps
  obtain ⟨first, second⟩ := List.forall_mem_append.mp each
  exact linear.add (left first) (right second)

theorem linear_ordered : Linear Ordered := ⟨.zero, .add, .scale⟩

theorem linear_all (P : Monomial → Prop) : Linear (All P) := ⟨.zero, .add, .scale⟩

theorem Ordered.sum {ps : List Poly} (each : ∀ p ∈ ps, Ordered p) : Ordered (sum ps) :=
  linear_ordered.sum each

theorem All.sum {ps : List Poly} (each : ∀ p ∈ ps, All P p) : All P (sum ps) :=
  (linear_all P).sum each

end Discharge.Poly
