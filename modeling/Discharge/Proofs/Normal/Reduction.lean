import Discharge.Proofs.Normal.Product

/-! The reduction of a monomial keeps its value.

The three kinds of factors that are reduced each give up a part of their power:
i and the roots of constants a rational, the roots of proper polynomials a
power of the radicand, and an exponential its exact value at an angle. The
product of what is left and what was given up is the monomial. -/

namespace Discharge

open Failure (IsTooLarge IsRefusalIn)

namespace Valuation

variable {A : Type*} [CommRing A] [Algebra ℚ A] {v : Valuation A}
variable {m : Monomial} {p : Poly} {fs : List (Atom × Int)} {a : Atom} {n : Int}

/-! ## Powers of i and of roots of constants -/

theorem imaginary_isUnit (square : v.atom .imaginary ^ 2 = -1) : IsUnit (v.atom .imaginary) :=
  .of_mul_eq_one (-v.atom .imaginary) (by linear_combination -square)

/-- The powers of i repeat after four steps. -/
theorem intPower_imaginary (square : v.atom .imaginary ^ 2 = -1) (n : Int) :
    intPower (v.atom .imaginary) n = v.atom .imaginary ^ (n % 4).toNat := by
  have unit := imaginary_isUnit square
  have fourth : v.atom .imaginary ^ 4 = 1 := by
    linear_combination (v.atom .imaginary ^ 2 - 1) * square
  have split : n = (4 : Nat) * (n / 4) + n % 4 := by omega
  calc intPower (v.atom .imaginary) n
      = intPower (v.atom .imaginary) ((4 : Nat) * (n / 4)) * intPower (v.atom .imaginary) (n % 4) := by
        rw [← intPower_add fun _ => unit, ← split]
    _ = v.atom .imaginary ^ (n % 4).toNat := by
        rw [intPower_mul 4 fun _ => unit, fourth, one_intPower, one_mul,
          intPower_of_nonneg (by omega)]

/-- A factor is a rational times what is left of its power. -/
theorem settleFactor_ensures (lawful : v.Lawful) (admitted : v.AdmitsFactor (a, n)) :
    Ensures (Monomial.settleFactor a n) (fun s =>
      intPower (v.atom a) n = algebraMap ℚ A s.1 * intPower (v.atom a) s.2 ∧
        (s.2 ≠ 0 → v.AdmitsFactor (a, s.2))) (IsRefusalIn A) := by
  cases a with
  | imaginary =>
    have square := lawful.imaginary admitted.known
    have one : v.AdmitsFactor (.imaginary, 1) := ⟨by simp, rfl, admitted.known, by simp⟩
    have cases : n % 4 = 0 ∨ n % 4 = 1 ∨ n % 4 = 2 ∨ n % 4 = 3 := by omega
    rw [intPower_imaginary square]
    rcases cases with digit | digit | digit | digit <;> simp only [Monomial.settleFactor, digit]
    · simp [Ensures]
    · simp [Ensures, one]
    · simpa [Ensures] using square
    · have cube : v.atom .imaginary ^ 3 = -v.atom .imaginary := by
        linear_combination v.atom .imaginary * square
      simpa [Ensures, one] using cube
  | root p k =>
    cases constant : p.constant? with
    | none =>
      simp only [Monomial.settleFactor, constant]
      exact ⟨by simp, fun _ => admitted⟩
    | some value =>
      simp only [Monomial.settleFactor, constant]
      have power := lawful.root p k admitted.known
      rw [v.poly_of_constant constant] at power
      refine .bind ((ratPow_ensures value (n / k)).mono_error ?_) ?_
      · rintro _ ⟨negative, zero⟩ _
        -- A root that may be divided by is no root of zero.
        have unit := (admitted.isUnit (neg_of_ediv_neg negative)).pow k
        rw [power, zero, map_zero] at unit
        exact absurd unit not_isUnit_zero
      rintro _ rfl
      refine ⟨?_, fun nonzero => ⟨nonzero, ?_, admitted.known, ?_⟩⟩
      · rw [intPower_root k admitted.isUnit, power, algebraMap_zpow]
      · have fits := admitted.fits
        have index := lawful.index p k admitted.known
        rw [Monomial.fitsInt64_iff] at fits index ⊢
        have bounds := emod_bounds n k
        dsimp only at fits ⊢
        omega
      · intro negative
        have bounds := emod_bounds n k
        exact admitted.regular (by dsimp only at negative ⊢; omega)
  | _ => exact ⟨by simp, fun _ => admitted⟩

/-- A list of factors is a rational times the settled list, whose atoms are some
of the same. -/
theorem settleFactors_ensures (lawful : v.Lawful) (each : ∀ f ∈ fs, v.AdmitsFactor f) :
    Ensures (Monomial.settleFactors fs) (fun s =>
      v.factors fs = algebraMap ℚ A s.1 * v.factors s.2 ∧
        (∀ f ∈ s.2, v.AdmitsFactor f) ∧ (s.2.map Prod.fst).Sublist (fs.map Prod.fst))
      (IsRefusalIn A) := by
  induction fs with
  | nil => simp [Monomial.settleFactors, Ensures]
  | cons f fs ih =>
    obtain ⟨a, n⟩ := f
    obtain ⟨head, tail⟩ := List.forall_mem_cons.mp each
    refine .bind (settleFactor_ensures lawful head) ?_
    rintro ⟨c, k⟩ ⟨power, left⟩
    refine .bind (ih tail) ?_
    rintro ⟨d, gs⟩ ⟨value, rest, atoms⟩
    dsimp only at power left value rest atoms ⊢
    by_cases gone : k = 0
    · rw [if_pos gone]
      rw [gone, intPower_zero] at power
      refine ⟨?_, rest, atoms.cons a⟩
      rw [factors_cons, map_mul, power, value]
      ring
    · rw [if_neg gone]
      refine ⟨?_, List.forall_mem_cons.mpr ⟨left gone, rest⟩, atoms.cons_cons a⟩
      rw [factors_cons, factors_cons, map_mul, power, value]
      ring

/-- Settling alone is a reduction. -/
theorem settle_reduces (lawful : v.Lawful) : v.Reduces Monomial.settle := by
  intro m admitted
  refine .bind (settleFactors_ensures lawful admitted.factor) ?_
  rintro ⟨c, fs⟩ ⟨value, rest, atoms⟩
  have settled : v.Admits ⟨fs, m.exp⟩ :=
    ⟨admitted.increasing.of_sublist atoms, rest, admitted.exponent, admitted.turning,
      admitted.inner⟩
  refine ⟨.term settled _, ?_⟩
  simp only [poly_term, monomial_eq, value]
  ring

/-! ## Roots of proper polynomials -/

/-- Either a factor is kept as it is, or it is the root of a proper polynomial
whose exponent has reached the index. -/
theorem excess_cases (a : Atom) (n : Int) :
    (Monomial.excess? a n = none ∧
        ∀ fs, Monomial.dropExcess ((a, n) :: fs) = (a, n) :: Monomial.dropExcess fs) ∨
      ∃ p k, a = .root p k ∧ p.constant? = none ∧ (k : Int) ≤ n ∧
        Monomial.excess? a n = some (p, n.tdiv k) ∧
        ∀ fs, Monomial.dropExcess ((a, n) :: fs) =
          if n.tmod k = 0 then Monomial.dropExcess fs
          else (a, n.tmod k) :: Monomial.dropExcess fs := by
  cases a with
  | root p k =>
    by_cases reached : p.constant?.isNone ∧ (k : Int) ≤ n
    · refine .inr ⟨p, k, rfl, by simpa using reached.1, reached.2, ?_, fun fs => ?_⟩
      · simp only [Monomial.excess?, if_pos reached]
      · simp only [Monomial.dropExcess, Monomial.excess?, if_pos reached]
    · refine .inl ⟨?_, fun fs => ?_⟩
      · simp only [Monomial.excess?, if_neg reached]
      · simp only [Monomial.dropExcess, Monomial.excess?, if_neg reached]
  | _ => exact .inl ⟨rfl, fun fs => by simp [Monomial.dropExcess]⟩

/-- What is left of an exponent that has reached the index is admitted. -/
theorem admitsFactor_tmod {k : Nat} (admitted : v.AdmitsFactor (a, n)) (reached : (k : Int) ≤ n)
    (left : n.tmod k ≠ 0) : v.AdmitsFactor (a, n.tmod k) := by
  have nonneg : 0 ≤ n := le_trans (Int.natCast_nonneg k) reached
  have below : 0 ≤ n.tmod k ∧ n.tmod k ≤ n := by
    rw [Int.tmod_eq_emod_of_nonneg nonneg]
    have bounds := emod_bounds n k
    omega
  have fits := admitted.fits
  refine ⟨left, ?_, admitted.known, fun negative => absurd below.1 (not_le.mpr negative)⟩
  rw [Monomial.fitsInt64_iff] at fits ⊢
  dsimp only at fits ⊢
  omega

theorem dropExcess_spec (each : ∀ f ∈ fs, v.AdmitsFactor f) :
    (∀ f ∈ Monomial.dropExcess fs, v.AdmitsFactor f) ∧
      ((Monomial.dropExcess fs).map Prod.fst).Sublist (fs.map Prod.fst) := by
  induction fs with
  | nil => simp [Monomial.dropExcess]
  | cons f fs ih =>
    obtain ⟨a, n⟩ := f
    obtain ⟨head, tail⟩ := List.forall_mem_cons.mp each
    obtain ⟨rest, atoms⟩ := ih tail
    rcases excess_cases a n with ⟨-, keeps⟩ | ⟨p, k, rfl, -, reached, -, drops⟩
    · rw [keeps]
      exact ⟨List.forall_mem_cons.mpr ⟨head, rest⟩, atoms.cons_cons a⟩
    · rw [drops]
      split
      · exact ⟨rest, atoms.cons _⟩
      · exact ⟨List.forall_mem_cons.mpr ⟨admitsFactor_tmod head reached ‹_›, rest⟩,
          atoms.cons_cons _⟩

variable {lower : Monomial → Outcome Poly}

/-- A list of factors is the product of the powers multiplied out and of what is
left. -/
theorem excesses_ensures (lawful : v.Lawful) (reduces : v.Reduces lower)
    (each : ∀ f ∈ fs, v.AdmitsFactor f) :
    Ensures (Monomial.excesses lower fs) (fun ps => (∀ p ∈ ps, v.AdmitsPoly p) ∧
      v.factors fs = v.factors (Monomial.dropExcess fs) * (ps.map v.poly).prod) (IsRefusalIn A) := by
  induction fs with
  | nil => exact ⟨by simp, by simp [Monomial.dropExcess]⟩
  | cons f fs ih =>
    obtain ⟨a, n⟩ := f
    obtain ⟨head, tail⟩ := List.forall_mem_cons.mp each
    rcases excess_cases a n with ⟨none, keeps⟩ | ⟨p, k, rfl, proper, reached, some, drops⟩
    · rw [keeps, Monomial.excesses, none]
      refine (ih tail).mono ?_
      rintro ps ⟨admitted, value⟩
      refine ⟨admitted, ?_⟩
      rw [factors_cons, factors_cons, value, mul_assoc]
    · rw [drops, Monomial.excesses, some]
      dsimp only
      split
      · exact IsTooLarge.isRefusalIn A ⟨_, rfl⟩
      refine .bind (powWith_ensures reduces (lawful.radicand p k head.known proper) _) ?_
      rintro r ⟨admitted, power⟩
      refine .bind (ih tail) ?_
      rintro ps ⟨rest, value⟩
      refine ⟨List.forall_mem_cons.mpr ⟨admitted, rest⟩, ?_⟩
      have root := lawful.root p k head.known
      rw [factors_cons, intPower_excess _ k reached, root, value, List.map_cons, List.prod_cons,
        power]
      split
      · rename_i gone
        rw [gone, intPower_zero]
        ring
      · rw [factors_cons]
        ring

/-! ## Exponentials of exact angles -/

/-- A polynomial is the term of one of its monomials and the rest. -/
theorem poly_erase (ordered : p.Ordered) {c : Rat} (found : p.coefficient? m = some c) :
    v.poly p = algebraMap ℚ A c * v.monomial m + v.poly (p.erase m) := by
  obtain ⟨ts⟩ := p
  have increasing := ordered.increasing
  simp only [poly_eq, Poly.erase, Poly.coefficient?] at found increasing ⊢
  induction ts with
  | nil => simp at found
  | cons t ts ih =>
    obtain ⟨k, d⟩ := t
    obtain ⟨after, rest⟩ := List.pairwise_cons.mp increasing
    obtain ⟨-, -, tail⟩ := Poly.ordered_cons.mp ordered
    rw [List.lookup_cons] at found
    by_cases same : m = k
    · -- No later term has the monomial again, so nothing else is erased.
      subst same
      have kept : ts.filter (fun t => t.1 ≠ m) = ts := by
        refine List.filter_eq_self.mpr fun t member => ?_
        have less := after t member
        simp only [decide_eq_true_eq, ne_eq]
        rintro rfl
        simp [(Monomial.compare_eq_iff t.1 t.1).mpr rfl] at less
      obtain rfl : d = c := by simpa using found
      rw [List.filter_cons_of_neg (by simp), kept, terms_cons]
    · have found' : ts.lookup m = some c := by simpa [beq_eq_false_iff_ne.mpr same] using found
      have other : k ≠ m := fun equal => same equal.symm
      rw [List.filter_cons_of_pos (by simpa using other), terms_cons, terms_cons,
        ih tail found' rest]
      ring

@[simp] theorem monomial_halfTurn :
    v.monomial .halfTurn = v.atom .pi * v.atom .imaginary := by
  simp [monomial_eq, Monomial.halfTurn, v.exp_zero]

/-- What is left of an exponent are some of its terms. -/
theorem takeTurn_all {P : Monomial → Prop} (all : p.All P) : (Monomial.takeTurn p).1.All P := by
  unfold Monomial.takeTurn
  split
  · exact fun t member => all t (List.mem_filter.mp member).1
  · exact all

theorem mem_of_coefficient {c : Rat} (found : p.coefficient? m = some c) : (m, c) ∈ p.terms := by
  obtain ⟨before, after, split, -⟩ := List.lookup_eq_some_iff.mp found
  rw [split]
  exact List.mem_append_right _ List.mem_cons_self

/-- An exponential is what is left of it times the exact values taken out. -/
theorem takeTurn_spec (lawful : v.Lawful) (ordered : p.Ordered)
    (turning : p = .zero ∨ v.turning) (inner : p.All v.inner) :
    (Monomial.takeTurn p).1.Ordered ∧ ((Monomial.takeTurn p).1 = .zero ∨ v.turning) ∧
      (∀ q ∈ (Monomial.takeTurn p).2, v.AdmitsPoly q) ∧
      v.exp (v.poly p) =
        v.exp (v.poly (Monomial.takeTurn p).1) * ((Monomial.takeTurn p).2.map v.poly).prod := by
  unfold Monomial.takeTurn
  split
  · rename_i value found
    obtain ⟨angle, coefficient, exact⟩ := Option.bind_eq_some_iff.mp found
    have turns : v.turning := by
      refine turning.resolve_left fun zero => ?_
      rw [zero] at coefficient
      cases coefficient
    have half : v.inner Monomial.halfTurn := inner _ (mem_of_coefficient coefficient)
    obtain ⟨admitted, law⟩ := lawful.turn turns half angle value exact
    refine ⟨ordered.erase _, .inr turns, fun q member => ?_, ?_⟩
    · rw [List.mem_singleton.mp member]
      exact admitted
    · simp only [List.map_cons, List.map_nil, List.prod_singleton]
      rw [poly_erase ordered coefficient, monomial_halfTurn, v.exp_add, law, mul_comm]
  · exact ⟨ordered, turning, by simp, by simp⟩

/-! ## Reduction -/

/-- Multiplying by a list of polynomials, one after the other. -/
theorem foldlM_mulWith_ensures (reduces : v.Reduces lower) (ps : List Poly)
    (each : ∀ q ∈ ps, v.AdmitsPoly q) (start : v.AdmitsPoly p) :
    Ensures (ps.foldlM (Poly.mulWith lower) p)
      (fun r => v.AdmitsPoly r ∧ v.poly r = v.poly p * (ps.map v.poly).prod) (IsRefusalIn A) := by
  induction ps generalizing p with
  | nil => exact ⟨start, by simp⟩
  | cons q ps ih =>
    obtain ⟨head, tail⟩ := List.forall_mem_cons.mp each
    rw [List.foldlM_cons]
    refine .bind (mulWith_ensures reduces start head) ?_
    rintro r ⟨admitted, value⟩
    refine (ih tail admitted).mono ?_
    rintro s ⟨final, whole⟩
    refine ⟨final, ?_⟩
    rw [whole, value, List.map_cons, List.prod_cons, mul_assoc]

/-- A reduction that keeps values, used for the products to be multiplied out,
gives another. -/
theorem reduceWith_reduces (lawful : v.Lawful) (reduces : v.Reduces lower) :
    v.Reduces (Monomial.reduceWith lower) := by
  intro m admitted
  obtain ⟨dropped, atoms⟩ := dropExcess_spec admitted.factor
  refine .bind (settleFactors_ensures lawful dropped) ?_
  rintro ⟨c, fs⟩ ⟨settled, rest, sublist⟩
  refine .bind (excesses_ensures lawful reduces admitted.factor) ?_
  rintro powers ⟨multiplied, value⟩
  obtain ⟨ordered, turning, turns, exponential⟩ :=
    takeTurn_spec lawful admitted.exponent admitted.turning admitted.inner
  have monomial : v.Admits ⟨fs, (Monomial.takeTurn m.exp).1⟩ :=
    ⟨admitted.increasing.of_sublist (sublist.trans atoms), rest, ordered, turning,
      takeTurn_all admitted.inner⟩
  refine (foldlM_mulWith_ensures reduces (powers ++ (Monomial.takeTurn m.exp).2)
    (List.forall_mem_append.mpr ⟨multiplied, turns⟩) (.term monomial _)).mono
    fun r ⟨final, whole⟩ => ⟨final, ?_⟩
  rw [whole, poly_term, monomial_eq, monomial_eq, value, settled, exponential, List.map_append,
    List.prod_append]
  ring

theorem reduceAt_reduces (lawful : v.Lawful) (n : Nat) : v.Reduces (Monomial.reduceAt n) := by
  induction n with
  | zero => exact reduceWith_reduces lawful (settle_reduces lawful)
  | succ n ih => exact reduceWith_reduces lawful ih

/-- The canonical form of a monomial has its value. -/
theorem reduce_reduces (lawful : v.Lawful) : v.Reduces Monomial.reduce :=
  fun m admitted => reduceAt_reduces lawful m.rootDepth m admitted

variable {q : Poly}

theorem mul_ensures (lawful : v.Lawful) (left : v.AdmitsPoly p) (right : v.AdmitsPoly q) :
    Ensures (p.mul q) (fun r => v.AdmitsPoly r ∧ v.poly r = v.poly p * v.poly q) (IsRefusalIn A) :=
  mulWith_ensures (reduce_reduces lawful) left right

variable {P Q : Monomial → Prop} {C : Poly → Prop} {bad : Failure → Prop} {x : A}

section Multiplies

variable (multiplies : v.Multiplies Monomial.reduce P Q C x bad) (linear : Poly.Linear C)

include multiplies linear

theorem Multiplies.shiftTerms (right : Q m) (ts : List (Monomial × Rat)) (left : ∀ t ∈ ts, P t.1) :
    Ensures (Poly.shiftTerms m ts) (fun ps => (∀ p ∈ ps, C p) ∧
      (ps.map v.poly).sum = x * (v.terms ts * v.monomial m)) bad := by
  induction ts with
  | nil => exact ⟨by simp, by simp⟩
  | cons t ts ih =>
    obtain ⟨n, d⟩ := t
    obtain ⟨head, tail⟩ := List.forall_mem_cons.mp left
    unfold Poly.shiftTerms
    rw [← bind_assoc]
    refine .bind (multiplies n m head right) ?_
    rintro r ⟨member, value⟩
    refine .bind (ih tail) ?_
    rintro ps ⟨rest, sum⟩
    refine ⟨List.forall_mem_cons.mpr ⟨linear.scale member _, rest⟩, ?_⟩
    simp only [List.map_cons, List.sum_cons, sum, poly_scale, value, terms_cons]
    ring

theorem Multiplies.shift (left : p.All P) (right : Q m) :
    Ensures (p.shift m) (fun r => C r ∧ v.poly r = x * (v.poly p * v.monomial m)) bad := by
  refine .bind (multiplies.shiftTerms linear right p.terms left) ?_
  rintro ps ⟨each, value⟩
  exact ⟨linear.sum each, by rw [poly_sum, value, poly_eq]⟩

end Multiplies

/-- Multiplying every term by a monomial multiplies the value. -/
theorem shift_ensures (lawful : v.Lawful) (left : v.AdmitsPoly p) (right : v.Admits m) :
    Ensures (p.shift m) (fun r => v.AdmitsPoly r ∧ v.poly r = v.poly p * v.monomial m)
      (IsRefusalIn A) := by
  have product := (reduce_reduces lawful).multiplies.shift linear_admits left.all right
  simpa only [one_mul] using product

end Valuation

end Discharge
