import Discharge.Proofs.Ensures
import Discharge.Proofs.Normal.Order

/-! Lists of factors: what merging keeps. The factors of a product increase
when those of its operands do, the exponent of every atom is the sum of its
exponents there, and the only failure is an exponent that does not fit. -/

namespace Discharge.Monomial

variable {fs gs hs : List (Atom × Int)} {a b : Atom} {n : Int}

/-- The factors stand in increasing order of their atoms. -/
def Increasing (fs : List (Atom × Int)) : Prop :=
  fs.Pairwise fun f g => Atom.compare f.1 g.1 = .lt

/-- Every atom of the list comes after `a`. -/
def Behind (a : Atom) (fs : List (Atom × Int)) : Prop := ∀ f ∈ fs, Atom.compare a f.1 = .lt

theorem increasing_cons : Increasing ((a, n) :: fs) ↔ Behind a fs ∧ Increasing fs :=
  List.pairwise_cons

theorem behind_cons : Behind a ((b, n) :: fs) ↔ Atom.compare a b = .lt ∧ Behind a fs := by
  simp [Behind]

theorem Behind.trans (less : Atom.compare a b = .lt) (behind : Behind b fs) : Behind a fs :=
  fun f member => Atom.compare_lt_trans a b f.1 less (behind f member)

/-- A list whose atoms are some of those of an increasing list, in the same
order, is increasing. -/
theorem Increasing.of_sublist (increasing : Increasing fs)
    (atoms : (gs.map Prod.fst).Sublist (fs.map Prod.fst)) : Increasing gs := by
  have pairs : (fs.map Prod.fst).Pairwise fun a b => Atom.compare a b = .lt :=
    List.pairwise_map.mpr increasing
  exact List.pairwise_map.mp (pairs.sublist atoms)

/-! ## Exponents -/

theorem fitsInt64_iff (n : Int) :
    fitsInt64 n = true ↔ -9223372036854775808 ≤ n ∧ n ≤ 9223372036854775807 := by
  simp [fitsInt64]

/-- The exponent of an atom in a list of factors. -/
def exponentIn (fs : List (Atom × Int)) (a : Atom) : Int := (fs.lookup a).getD 0

theorem count_eq (m : Monomial) (a : Atom) : m.count a = exponentIn m.factors a := rfl

@[simp] theorem exponentIn_nil (a : Atom) : exponentIn [] a = 0 := rfl

theorem exponentIn_cons (b : Atom) (n : Int) (fs : List (Atom × Int)) (a : Atom) :
    exponentIn ((b, n) :: fs) a = if a = b then n else exponentIn fs a := by
  unfold exponentIn
  rw [List.lookup_cons]
  by_cases same : a = b
  · simp [same]
  · simp [same, beq_eq_false_iff_ne.mpr same]

theorem mem_of_exponentIn (nonzero : exponentIn fs a ≠ 0) : (a, exponentIn fs a) ∈ fs := by
  induction fs with
  | nil => simp at nonzero
  | cons f fs ih =>
    obtain ⟨b, n⟩ := f
    rw [exponentIn_cons] at nonzero ⊢
    by_cases same : a = b
    · simp [same]
    · simp only [if_neg same] at nonzero ⊢
      exact List.mem_cons_of_mem _ (ih nonzero)

theorem exponentIn_of_behind (behind : Behind a fs) : exponentIn fs a = 0 := by
  by_contra nonzero
  have less := behind _ (mem_of_exponentIn nonzero)
  simp [(Atom.compare_eq_iff a a).mpr rfl] at less

theorem exponentIn_of_mem (increasing : Increasing fs) (member : (a, n) ∈ fs) :
    exponentIn fs a = n := by
  induction fs with
  | nil => simp at member
  | cons f fs ih =>
    obtain ⟨b, k⟩ := f
    obtain ⟨behind, rest⟩ := increasing_cons.mp increasing
    rw [exponentIn_cons]
    rcases List.mem_cons.mp member with same | member
    · cases same
      exact if_pos rfl
    · have less : Atom.compare b a = .lt := behind _ member
      have different : a ≠ b := by
        rintro rfl
        simp [(Atom.compare_eq_iff a a).mpr rfl] at less
      rw [if_neg different]
      exact ih rest member

/-! ## Merging -/

@[simp] theorem mergeFactors_nil_left (gs : List (Atom × Int)) : mergeFactors [] gs = .ok gs := rfl

@[simp] theorem mergeFactors_nil_right (fs : List (Atom × Int)) :
    mergeFactors fs [] = .ok fs := by
  cases fs <;> rfl

theorem mergeFactors_cons_cons (a b : Atom) (n k : Int) (fs gs : List (Atom × Int)) :
    mergeFactors ((a, n) :: fs) ((b, k) :: gs) =
      match Atom.compare a b with
      | .lt => do return (a, n) :: (← mergeFactors fs ((b, k) :: gs))
      | .gt => do return (b, k) :: (← mergeFactors ((a, n) :: fs) gs)
      | .eq =>
        if fitsInt64 (n + k) then
          if n + k = 0 then mergeFactors fs gs
          else do return (a, n + k) :: (← mergeFactors fs gs)
        else .error (.tooLarge "exponent overflow") := rfl

/-- Merging is an induction on both lists, and fails only where a sum of
exponents does not fit. -/
theorem merge_induction {motive : List (Atom × Int) → List (Atom × Int) →
      List (Atom × Int) → Prop}
    (left : ∀ gs, motive [] gs gs) (right : ∀ fs, motive fs [] fs)
    (less : ∀ a n fs b k gs out, Atom.compare a b = .lt → motive fs ((b, k) :: gs) out →
      motive ((a, n) :: fs) ((b, k) :: gs) ((a, n) :: out))
    (greater : ∀ a n fs b k gs out, Atom.compare b a = .lt → motive ((a, n) :: fs) gs out →
      motive ((a, n) :: fs) ((b, k) :: gs) ((b, k) :: out))
    (cancel : ∀ a n fs k gs out, n + k = 0 → motive fs gs out →
      motive ((a, n) :: fs) ((a, k) :: gs) out)
    (both : ∀ a n fs k gs out, fitsInt64 (n + k) → n + k ≠ 0 → motive fs gs out →
      motive ((a, n) :: fs) ((a, k) :: gs) ((a, n + k) :: out))
    (fs gs : List (Atom × Int)) :
    Ensures (mergeFactors fs gs) (motive fs gs) Failure.IsTooLarge := by
  induction fs generalizing gs with
  | nil => exact left gs
  | cons f fs outer =>
    obtain ⟨a, n⟩ := f
    induction gs with
    | nil =>
      rw [mergeFactors_nil_right]
      exact right _
    | cons g gs inner =>
      obtain ⟨b, k⟩ := g
      rw [mergeFactors_cons_cons]
      cases order : Atom.compare a b with
      | lt => exact .bind (outer _) fun out holds => less a n fs b k gs out order holds
      | gt =>
        exact .bind inner fun out holds =>
          greater a n fs b k gs out (Atom.compare_gt_iff.mp order) holds
      | eq =>
        obtain rfl := (Atom.compare_eq_iff a b).mp order
        dsimp only
        split
        · split
          · exact .mono (outer gs) fun out holds => cancel a n fs k gs out ‹_› holds
          · exact .bind (outer gs) fun out holds => both a n fs k gs out ‹_› ‹_› holds
        · exact ⟨_, rfl⟩

/-- Merging increasing lists gives an increasing list, and what comes before
both comes before the result. -/
theorem increasing_mergeFactors (fs gs : List (Atom × Int)) :
    Ensures (mergeFactors fs gs) (fun hs => (∀ a, Behind a fs → Behind a gs → Behind a hs) ∧
      (Increasing fs → Increasing gs → Increasing hs)) Failure.IsTooLarge := by
  refine merge_induction (motive := fun fs gs hs =>
      (∀ a, Behind a fs → Behind a gs → Behind a hs) ∧
      (Increasing fs → Increasing gs → Increasing hs)) ?_ ?_ ?_ ?_ ?_ ?_ fs gs
  · exact fun gs => ⟨fun _ _ behind => behind, fun _ increasing => increasing⟩
  · exact fun fs => ⟨fun _ behind _ => behind, fun increasing _ => increasing⟩
  · intro a n fs b k gs out order ih
    refine ⟨fun c left right => ?_, fun left right => ?_⟩
    · rw [behind_cons] at left ⊢
      exact ⟨left.1, ih.1 c left.2 right⟩
    · rw [increasing_cons] at left ⊢
      have below : Behind a ((b, k) :: gs) :=
        behind_cons.mpr ⟨order, Behind.trans order (increasing_cons.mp right).1⟩
      exact ⟨ih.1 a left.1 below, ih.2 left.2 right⟩
  · intro a n fs b k gs out order ih
    refine ⟨fun c left right => ?_, fun left right => ?_⟩
    · rw [behind_cons] at right ⊢
      exact ⟨right.1, ih.1 c left right.2⟩
    · rw [increasing_cons] at right ⊢
      have below : Behind b ((a, n) :: fs) :=
        behind_cons.mpr ⟨order, Behind.trans order (increasing_cons.mp left).1⟩
      exact ⟨ih.1 b below right.1, ih.2 left right.2⟩
  · intro a n fs k gs out zero ih
    refine ⟨fun c left right => ?_, fun left right => ?_⟩
    · exact ih.1 c (behind_cons.mp left).2 (behind_cons.mp right).2
    · exact ih.2 (increasing_cons.mp left).2 (increasing_cons.mp right).2
  · intro a n fs k gs out fits nonzero ih
    refine ⟨fun c left right => ?_, fun left right => ?_⟩
    · rw [behind_cons] at left right ⊢
      exact ⟨left.1, ih.1 c left.2 right.2⟩
    · rw [increasing_cons] at left right ⊢
      exact ⟨ih.1 a left.1 right.1, ih.2 left.2 right.2⟩

/-- The exponents of a merged list are the sums of the exponents. -/
theorem exponentIn_mergeFactors (fs gs : List (Atom × Int)) :
    Ensures (mergeFactors fs gs) (fun hs => Increasing fs → Increasing gs →
      ∀ x, exponentIn hs x = exponentIn fs x + exponentIn gs x) Failure.IsTooLarge := by
  refine merge_induction (motive := fun fs gs hs => Increasing fs → Increasing gs →
      ∀ x, exponentIn hs x = exponentIn fs x + exponentIn gs x) ?_ ?_ ?_ ?_ ?_ ?_ fs gs
  · intro gs _ _ x
    simp
  · intro fs _ _ x
    simp
  · intro a n fs b k gs out order ih left right x
    have rest := ih (increasing_cons.mp left).2 right x
    have absent : exponentIn ((b, k) :: gs) a = 0 := exponentIn_of_behind
      (behind_cons.mpr ⟨order, Behind.trans order (increasing_cons.mp right).1⟩)
    rw [exponentIn_cons a, exponentIn_cons a]
    by_cases same : x = a
    · simp [same, absent]
    · simp only [if_neg same, rest]
  · intro a n fs b k gs out order ih left right x
    have rest := ih left (increasing_cons.mp right).2 x
    have absent : exponentIn ((a, n) :: fs) b = 0 := exponentIn_of_behind
      (behind_cons.mpr ⟨order, Behind.trans order (increasing_cons.mp left).1⟩)
    rw [exponentIn_cons b, exponentIn_cons b k gs]
    by_cases same : x = b
    · simp [same, absent]
    · simp only [if_neg same, rest]
  · intro a n fs k gs out zero ih left right x
    have rest := ih (increasing_cons.mp left).2 (increasing_cons.mp right).2 x
    rw [exponentIn_cons, exponentIn_cons]
    by_cases same : x = a
    · rw [if_pos same, if_pos same, rest, same, exponentIn_of_behind (increasing_cons.mp left).1,
        exponentIn_of_behind (increasing_cons.mp right).1]
      omega
    · simp only [if_neg same, rest]
  · intro a n fs k gs out fits nonzero ih left right x
    have rest := ih (increasing_cons.mp left).2 (increasing_cons.mp right).2 x
    simp only [exponentIn_cons]
    by_cases same : x = a
    · simp [same]
    · simp only [if_neg same, rest]

/-- Every exponent of `k` is one of `m`, one of `n`, or a sum of both that is a
machine integer. -/
def Sums (m n k : Monomial) : Prop :=
  ∀ f ∈ k.factors, f ∈ m.factors ∨ f ∈ n.factors ∨
    ∃ i j, (f.1, i) ∈ m.factors ∧ (f.1, j) ∈ n.factors ∧ f.2 = i + j ∧ fitsInt64 f.2 = true

/-- A product of monomials has the sums of their exponents, or is refused. -/
theorem combine_sums (m n : Monomial) : Ensures (m.combine n) (Sums m n) Failure.IsTooLarge := by
  have merged : Ensures (mergeFactors m.factors n.factors) (fun hs => ∀ f ∈ hs, f ∈ m.factors ∨
      f ∈ n.factors ∨ ∃ i j, (f.1, i) ∈ m.factors ∧ (f.1, j) ∈ n.factors ∧ f.2 = i + j ∧
        fitsInt64 f.2 = true) Failure.IsTooLarge := by
    refine merge_induction (motive := fun fs gs hs => ∀ f ∈ hs, f ∈ fs ∨ f ∈ gs ∨
      ∃ i j, (f.1, i) ∈ fs ∧ (f.1, j) ∈ gs ∧ f.2 = i + j ∧ fitsInt64 f.2 = true)
      ?left ?right ?less ?greater ?cancel ?both m.factors n.factors
    case left => exact fun gs f member => .inr (.inl member)
    case right => exact fun fs f member => .inl member
    case less => grind
    case greater => grind
    case cancel => grind
    case both => grind
  exact .bind merged fun hs sums => sums

end Discharge.Monomial
