import Mathlib
import Discharge.Proofs.Normal.Reduction
import Discharge.Normal.Fraction

/-! Irreducible monomials. Reduction leaves a monomial alone in which no power
of i, of a root or of an exact exponential has anything to give up. Sums of such
monomials are not changed by a multiplication with one, and a fraction over one
is built from them without further work. -/

namespace Discharge

open Failure (IsTooLarge)

namespace Monomial

variable {m : Monomial} {fs : List (Atom × Int)} {lower : Monomial → Outcome Poly}

/-- Nothing in the monomial can be reduced. -/
structure Irreducible (m : Monomial) : Prop where
  nonzero : ∀ f ∈ m.factors, f.2 ≠ 0
  settled : ∀ f ∈ m.factors, settleFactor f.1 f.2 = .ok (1, f.2)
  below : ∀ f ∈ m.factors, excess? f.1 f.2 = none
  turned : (m.exp.coefficient? halfTurn).bind Poly.unitRoot? = none

theorem irreducible_one : Irreducible .one :=
  ⟨by simp [one], by simp [one], by simp [one], rfl⟩

/-- Only the first power of i needs no settling. -/
theorem settled_imaginary {n : Int} (settled : settleFactor .imaginary n = .ok (1, n)) :
    n = 0 ∨ n = 1 := by
  simp only [settleFactor] at settled
  split_ifs at settled <;> simp_all

/-- The exponent of the root of a constant is below its index. -/
theorem settled_root {p : Poly} {n : Int} {i : Nat} {c : Rat} (constant : p.constant? = some c)
    (proper : 2 ≤ i) (settled : settleFactor (.root p i) n = .ok (1, n)) : 0 ≤ n ∧ n < i := by
  simp only [settleFactor, constant] at settled
  obtain ⟨d, -, settled⟩ := bind_eq_ok settled
  obtain ⟨-, left⟩ := Prod.mk.inj (Except.ok.inj settled)
  exact ⟨left ▸ Int.emod_nonneg n (by omega), left ▸ Int.emod_lt_of_pos n (by omega)⟩

theorem settleFactor_root {p : Poly} {n : Int} {i : Nat} {c : Rat} (constant : p.constant? = some c)
    (nonneg : 0 ≤ n) (less : n < i) : settleFactor (.root p i) n = .ok (1, n) := by
  have none : n / (i : Int) = 0 := Int.ediv_eq_zero_of_lt nonneg less
  have left : n % (i : Int) = n := Int.emod_eq_of_lt nonneg less
  simp only [settleFactor, constant, none, left, ratPow_zero]
  rfl

theorem excesses_eq_nil (below : ∀ f ∈ fs, excess? f.1 f.2 = none) :
    excesses lower fs = .ok [] := by
  induction fs with
  | nil => rfl
  | cons f fs ih =>
    obtain ⟨head, tail⟩ := List.forall_mem_cons.mp below
    rw [excesses, head]
    exact ih tail

theorem dropExcess_eq_self (below : ∀ f ∈ fs, excess? f.1 f.2 = none) : dropExcess fs = fs := by
  induction fs with
  | nil => rfl
  | cons f fs ih =>
    obtain ⟨a, n⟩ := f
    obtain ⟨head, tail⟩ := List.forall_mem_cons.mp below
    rcases Valuation.excess_cases a n with ⟨-, keeps⟩ | ⟨p, k, -, -, -, some, -⟩
    · rw [keeps, ih tail]
    · rw [some] at head
      cases head

theorem settleFactors_eq_self (nonzero : ∀ f ∈ fs, f.2 ≠ 0)
    (settled : ∀ f ∈ fs, settleFactor f.1 f.2 = .ok (1, f.2)) : settleFactors fs = .ok (1, fs) := by
  induction fs with
  | nil => rfl
  | cons f fs ih =>
    obtain ⟨a, n⟩ := f
    obtain ⟨proper, nonzero⟩ := List.forall_mem_cons.mp nonzero
    obtain ⟨head, tail⟩ := List.forall_mem_cons.mp settled
    rw [settleFactors, head, ih nonzero tail]
    change Except.ok ((1 : Rat) * 1, if n = 0 then fs else (a, n) :: fs) = _
    rw [if_neg proper, mul_one]

theorem reduceWith_irreducible (irreducible : m.Irreducible) :
    reduceWith lower m = .ok (.term m 1) := by
  have settled := settleFactors_eq_self irreducible.nonzero irreducible.settled
  unfold reduceWith
  rw [dropExcess_eq_self irreducible.below, settled, excesses_eq_nil irreducible.below, takeTurn,
    irreducible.turned]
  obtain ⟨fs, e⟩ := m
  rfl

/-- Reduction leaves an irreducible monomial alone. -/
theorem reduce_irreducible (irreducible : m.Irreducible) : m.reduce = .ok (.term m 1) := by
  unfold reduce
  cases m.rootDepth with
  | zero => exact reduceWith_irreducible irreducible
  | succ n => exact reduceWith_irreducible irreducible

theorem combine_one (m : Monomial) : m.combine .one = .ok m := by
  obtain ⟨fs, ⟨ts⟩⟩ := m
  simp [combine, one, Poly.add, Poly.zero]

theorem one_combine (m : Monomial) : one.combine m = .ok m := by
  obtain ⟨fs, ⟨ts⟩⟩ := m
  simp [combine, one, Poly.add, Poly.zero]

end Monomial

theorem Poly.add_neg_self (p : Poly) : p.add p.neg = .zero := by
  obtain ⟨ts⟩ := p
  have negated : (Poly.mk ts).neg.terms = ts.map fun t => (t.1, t.2 * -1) := by
    simp [Poly.neg, Poly.scale]
  unfold Poly.add
  rw [negated]
  dsimp only
  congr 1
  induction ts with
  | nil => rfl
  | cons t ts ih =>
    obtain ⟨m, c⟩ := t
    have rest := ih (by simp [Poly.neg, Poly.scale])
    rw [List.map_cons, Poly.mergeTerms_cons_cons, (Monomial.compare_eq_iff m m).mpr rfl]
    dsimp only
    rw [if_pos (by ring), rest]

namespace Monomial

theorem mergeFactors_negated (fs : List (Atom × Int)) :
    mergeFactors fs (fs.map fun f => (f.1, -f.2)) = .ok [] := by
  induction fs with
  | nil => rfl
  | cons f fs ih =>
    obtain ⟨a, n⟩ := f
    have none : n + -n = 0 := by omega
    rw [List.map_cons, mergeFactors_cons_cons, (Atom.compare_eq_iff a a).mpr rfl]
    dsimp only
    rw [none, if_pos (by decide), if_pos rfl, ih]

/-- A monomial and its reciprocal cancel. -/
theorem combine_reciprocal (m : Monomial) : m.combine m.reciprocal = .ok .one := by
  unfold combine
  rw [reciprocal, mergeFactors_negated, Poly.add_neg_self]
  rfl

end Monomial

namespace Poly

open Monomial (Irreducible)

variable {p q : Poly} {m : Monomial} {ts us : List (Monomial × Rat)}

/-- The terms are in order, and none of them can be reduced. -/
structure Reduced (p : Poly) : Prop where
  ordered : p.Ordered
  irreducible : p.All Irreducible

theorem Reduced.zero : Reduced .zero := ⟨.zero, .zero⟩

theorem Reduced.term (irreducible : m.Irreducible) (c : Rat) : Reduced (.term m c) :=
  ⟨.term m c, .term irreducible c⟩

theorem Reduced.constant (c : Rat) : Reduced (.constant c) := .term Monomial.irreducible_one c

theorem Reduced.add (left : Reduced p) (right : Reduced q) : Reduced (p.add q) :=
  ⟨left.ordered.add right.ordered, left.irreducible.add right.irreducible⟩

/-! ## Sums of terms in order -/

theorem term_of_ne_zero {c : Rat} (nonzero : c ≠ 0) : Poly.term m c = ⟨[(m, c)]⟩ := if_neg nonzero

@[simp] theorem term_zero (m : Monomial) : Poly.term m 0 = .zero := if_pos rfl

theorem scale_term (m : Monomial) (c d : Rat) : (Poly.term m c).scale d = .term m (c * d) := by
  by_cases zero : d = 0
  · simp [zero, Poly.scale, Poly.term]
  · by_cases none : c = 0
    · simp [none, Poly.scale, Poly.term, Poly.zero, zero]
    · simp [Poly.scale, Poly.term, zero, none]

/-- Merging puts lists one after the other when the second comes behind. -/
theorem mergeTerms_eq_append (ordered : OrderedTerms (ts ++ us)) :
    mergeTerms ts us = ts ++ us := by
  induction ts with
  | nil => rfl
  | cons t ts ih =>
    obtain ⟨m, c⟩ := t
    obtain ⟨-, after, rest⟩ := ordered_cons.mp ordered
    cases us with
    | nil => simp
    | cons u us =>
      obtain ⟨n, d⟩ := u
      have less : Monomial.compare m n = .lt := after (n, d) (by simp)
      rw [mergeTerms_cons_cons, less]
      dsimp only
      rw [ih rest, List.cons_append]

/-- A polynomial is the sum of its terms. -/
theorem sum_terms (ordered : p.Ordered) : sum (p.terms.map fun t => .term t.1 t.2) = p := by
  have grouped : ∀ ps : List Poly, ∀ ts, ps = ts.map (fun t => Poly.term t.1 t.2) →
      OrderedTerms ts → sum ps = ⟨ts⟩ := by
    intro ps
    refine sum_induction (motive := fun ps p => ∀ ts, ps = ts.map (fun t => Poly.term t.1 t.2) →
      OrderedTerms ts → p = ⟨ts⟩) ?_ ?_ ?_ ps
    · intro ts same ordered
      obtain rfl : ts = [] := List.map_eq_nil_iff.mp same.symm
      rfl
    · intro p ts same ordered
      obtain ⟨t, rfl, rfl⟩ := List.map_eq_singleton_iff.mp same.symm
      exact term_of_ne_zero (ordered.nonzero t List.mem_cons_self)
    · intro ps qs p q left right ts same ordered
      obtain ⟨ts, us, rfl, rfl, rfl⟩ := List.map_eq_append_iff.mp same.symm
      have first : OrderedTerms ts := ⟨ordered.increasing.sublist (List.sublist_append_left _ _),
        fun t member => ordered.nonzero t (List.mem_append_left _ member)⟩
      have second : OrderedTerms us := ⟨ordered.increasing.sublist (List.sublist_append_right _ _),
        fun t member => ordered.nonzero t (List.mem_append_right _ member)⟩
      rw [left ts rfl first, right us rfl second, Poly.add, mergeTerms_eq_append ordered]
  obtain ⟨ts⟩ := p
  exact grouped _ ts rfl ordered

/-! ## Multiplication with one -/

theorem shiftTerms_one (each : ∀ t ∈ ts, t.1.Irreducible) :
    shiftTerms .one ts = .ok (ts.map fun t => .term t.1 t.2) := by
  induction ts with
  | nil => rfl
  | cons t ts ih =>
    obtain ⟨m, c⟩ := t
    obtain ⟨head, tail⟩ := List.forall_mem_cons.mp each
    rw [shiftTerms, Monomial.combine_one, ih tail]
    change (m.reduce >>= fun product => _) = _
    rw [Monomial.reduce_irreducible head]
    change Except.ok ((Poly.term m 1).scale c :: _) = _
    rw [scale_term, one_mul]
    rfl

theorem shift_one (reduced : p.Reduced) : p.shift .one = .ok p := by
  unfold shift
  rw [shiftTerms_one reduced.irreducible]
  exact congrArg Except.ok (sum_terms reduced.ordered)

theorem timesTerm_constant (c : Rat) (each : ∀ t ∈ ts, t.1.Irreducible) :
    timesTerm Monomial.reduce .one c ts = .ok (ts.map fun t => .term t.1 (t.2 * c)) := by
  induction ts with
  | nil => rfl
  | cons t ts ih =>
    obtain ⟨m, d⟩ := t
    obtain ⟨head, tail⟩ := List.forall_mem_cons.mp each
    rw [timesTerm, Monomial.one_combine, ih tail]
    change (m.reduce >>= fun product => _) = _
    rw [Monomial.reduce_irreducible head]
    change Except.ok ((Poly.term m 1).scale (c * d) :: _) = _
    rw [scale_term, one_mul, mul_comm c d]
    rfl

theorem timesTerms_one (each : ∀ t ∈ ts, t.1.Irreducible) :
    timesTerms Monomial.reduce Poly.one.terms ts = .ok (ts.map fun t => .term t.1 t.2) := by
  induction ts with
  | nil => rfl
  | cons t ts ih =>
    obtain ⟨m, c⟩ := t
    obtain ⟨head, tail⟩ := List.forall_mem_cons.mp each
    have row : timesTerm Monomial.reduce m c Poly.one.terms = .ok [.term m c] := by
      change timesTerm Monomial.reduce m c [(.one, 1)] = _
      rw [timesTerm, Monomial.combine_one]
      change (m.reduce >>= fun product => _) = _
      rw [Monomial.reduce_irreducible head]
      change Except.ok ((Poly.term m 1).scale (c * 1) :: _) = _
      rw [scale_term, one_mul, mul_one]
    rw [timesTerms, row, ih tail]
    rfl

/-- A product with one, if it is not too large. -/
theorem mul_of_terms {r : Poly} (products : timesTerms Monomial.reduce q.terms p.terms =
      .ok (r.terms.map fun t => .term t.1 t.2)) (ordered : r.Ordered) :
    Ensures (p.mul q) (· = r) IsTooLarge := by
  unfold mul mulWith
  split
  · exact ⟨_, rfl⟩
  rw [products]
  change Ensures (if _ then _ else _) _ _
  rw [sum_terms ordered]
  split
  · exact ⟨_, rfl⟩
  · rfl

theorem mul_one_ensures (reduced : p.Reduced) : Ensures (p.mul .one) (· = p) IsTooLarge :=
  mul_of_terms (timesTerms_one reduced.irreducible) reduced.ordered

theorem constant_mul_ensures (reduced : p.Reduced) {c : Rat} (nonzero : c ≠ 0) :
    Ensures ((Poly.constant c).mul p) (· = p.scale c) IsTooLarge := by
  refine mul_of_terms ?_ (reduced.ordered.scale c)
  have constant : (Poly.constant c).terms = [(.one, c)] := by
    rw [Poly.constant, Poly.term, if_neg nonzero]
    rfl
  rw [constant, timesTerms, timesTerm_constant c reduced.irreducible, Poly.scale, if_neg nonzero]
  change Except.ok (_ ++ []) = _
  rw [List.append_nil, List.map_map]
  rfl

theorem scale_one (p : Poly) : p.scale 1 = p := by
  obtain ⟨ts⟩ := p
  simp [scale]

theorem one_mul_ensures (reduced : p.Reduced) : Ensures (Poly.one.mul p) (· = p) IsTooLarge := by
  have product := constant_mul_ensures reduced one_ne_zero
  rwa [scale_one] at product

theorem one_mul_one : Poly.one.mul .one = .ok .one := by decide_cbv

/-! ## Single terms -/

/-- A product of two terms whose monomial is reduced to a single term. -/
theorem mul_term_of_reduce {m n k l : Monomial} {e : Rat} (combined : m.combine n = .ok k)
    (reduced : k.reduce = .ok (.term l e)) (nonzero : e ≠ 0) (c d : Rat) :
    (Poly.term m c).mul (.term n d) = .ok (.term l (e * (c * d))) := by
  by_cases right : d = 0
  · rw [right, mul_zero, mul_zero, term_zero, term_zero]
    by_cases left : c = 0
    · rw [left, term_zero]
      rfl
    · rw [term_of_ne_zero left]
      rfl
  by_cases left : c = 0
  · rw [left, zero_mul, mul_zero, term_zero, term_zero, term_of_ne_zero right]
    rfl
  · have row : timesTerm Monomial.reduce m c [(n, d)] = .ok [.term l (e * (c * d))] := by
      rw [timesTerm, combined]
      change (k.reduce >>= fun product => _) = _
      rw [reduced]
      change Except.ok [(Poly.term l e).scale (c * d)] = _
      rw [scale_term]
    have product : timesTerms Monomial.reduce [(n, d)] [(m, c)] = .ok [.term l (e * (c * d))] := by
      rw [timesTerms, row]
      rfl
    have proper := mul_ne_zero nonzero (mul_ne_zero left right)
    rw [term_of_ne_zero left, term_of_ne_zero right, term_of_ne_zero proper]
    rw [term_of_ne_zero proper] at product
    unfold mul mulWith
    rw [product]
    rfl

/-- A product of two terms whose monomial needs no reduction. -/
theorem mul_term {m n k : Monomial} (combined : m.combine n = .ok k) (irreducible : k.Irreducible)
    (c d : Rat) : (Poly.term m c).mul (.term n d) = .ok (.term k (c * d)) := by
  have product :=
    mul_term_of_reduce combined (Monomial.reduce_irreducible irreducible) one_ne_zero c d
  rwa [one_mul] at product

/-- Multiplying a term by a monomial when the product needs no reduction. -/
theorem shift_term {m n k : Monomial} (combined : m.combine n = .ok k)
    (irreducible : k.Irreducible) (c : Rat) : (Poly.term m c).shift n = .ok (.term k c) := by
  by_cases zero : c = 0
  · rw [zero, term_zero, term_zero]
    rfl
  · rw [term_of_ne_zero zero]
    unfold shift shiftTerms
    rw [combined]
    change (k.reduce >>= fun product => _) >>= _ = _
    rw [Monomial.reduce_irreducible irreducible]
    change Except.ok ((Poly.term k 1).scale c) = _
    rw [scale_term, one_mul]

/-- What holds of the products of the terms with a monomial holds of the terms
of the shift, if the products need no reduction. -/
theorem shift_all {P : Monomial → Prop} {r : Poly}
    (each : ∀ t ∈ p.terms, ∀ k, t.1.combine m = .ok k → k.Irreducible ∧ P k)
    (ran : p.shift m = .ok r) : r.All P := by
  obtain ⟨ps, shifted, done⟩ := bind_eq_ok ran
  cases done
  refine .sum ?_
  clear ran
  generalize p.terms = ts at each shifted
  induction ts generalizing ps with
  | nil =>
    cases shifted
    simp
  | cons t ts ih =>
    obtain ⟨n, d⟩ := t
    obtain ⟨k, combined, rest⟩ := bind_eq_ok shifted
    obtain ⟨q, reduced, rest⟩ := bind_eq_ok rest
    obtain ⟨qs, tail, done⟩ := bind_eq_ok rest
    cases done
    obtain ⟨irreducible, holds⟩ := each (n, d) List.mem_cons_self k combined
    rw [Monomial.reduce_irreducible irreducible] at reduced
    cases reduced
    exact List.forall_mem_cons.mpr ⟨(All.term holds 1).scale d,
      ih qs (fun t member => each t (List.mem_cons_of_mem _ member)) tail⟩

end Poly

namespace Fraction

variable {p q : Poly}

/-- A reduced polynomial over one is canonical. -/
theorem make_one (reduced : p.Reduced) : make p .one = .ok (ofPoly p) := by
  by_cases zero : p.isZero = true
  · obtain ⟨ts⟩ := p
    obtain rfl : ts = [] := List.isEmpty_iff.mp zero
    rfl
  · unfold make
    rw [if_neg (by decide), if_neg zero]
    change (p.shift .one >>= fun q => pure (ofPoly (q.scale 1⁻¹))) = _
    rw [Poly.shift_one reduced]
    change Except.ok (ofPoly (p.scale 1⁻¹)) = _
    rw [inv_one, Poly.scale_one]

theorem add_ofPoly (left : p.Reduced) (right : q.Reduced) :
    (ofPoly p).add (ofPoly q) = .ok (ofPoly (p.add q)) := by
  have same : (ofPoly p).den = (ofPoly q).den := rfl
  unfold add
  rw [if_pos same]
  exact make_one (left.add right)

/-- A product of two polynomials over one. -/
theorem mul_ofPoly (p q : Poly) : (ofPoly p).mul (ofPoly q) = p.mul q >>= fun r => make r .one := by
  unfold mul ofPoly
  dsimp only
  rw [Poly.one_mul_one]
  rfl

theorem mul_term {m n k : Monomial} (combined : m.combine n = .ok k) (irreducible : k.Irreducible)
    (c d : Rat) :
    (ofPoly (.term m c)).mul (ofPoly (.term n d)) = .ok (ofPoly (.term k (c * d))) := by
  rw [mul_ofPoly, Poly.mul_term combined irreducible]
  exact make_one (.term irreducible _)

/-! ## Powers of one atom -/

/-- The fraction that is a power of one atom. -/
def ofPower (a : Atom) (n : Int) : Fraction := ofPoly (.term (.ofAtom a n) 1)

end Fraction

namespace Monomial

variable {a : Atom} {i j : Int}

theorem combine_ofAtom (fits : fitsInt64 (i + j) = true) :
    (ofAtom a i).combine (ofAtom a j) = .ok (ofAtom a (i + j)) := by
  have same : Atom.compare a a = .eq := (Atom.compare_eq_iff a a).mpr rfl
  unfold ofAtom
  by_cases left : i = 0
  · rw [if_pos left, left, zero_add]
    exact one_combine _
  by_cases right : j = 0
  · rw [if_pos right, right, add_zero]
    exact combine_one _
  rw [if_neg left, if_neg right]
  unfold combine
  rw [mergeFactors_cons_cons, same]
  simp only [fits, if_true]
  split
  · rfl
  · rfl

end Monomial

namespace Fraction

variable {a : Atom} {i j : Int}

theorem mul_ofPower (fits : fitsInt64 (i + j) = true)
    (irreducible : (Monomial.ofAtom a (i + j)).Irreducible) :
    (ofPower a i).mul (ofPower a j) = .ok (ofPower a (i + j)) := by
  have product := mul_term (Monomial.combine_ofAtom fits) irreducible 1 1
  rwa [mul_one] at product

/-- Repeated squaring adds exponents, as long as all multiples of the exponent
on the way are irreducible. -/
theorem squaring_ofPower (n : Nat) (result : ∀ l : Nat, l ≤ n →
      fitsInt64 (i + j * l) = true ∧ (Monomial.ofAtom a (i + j * l)).Irreducible)
    (base : ∀ l : Nat, l ≤ n →
      fitsInt64 (j * l) = true ∧ (Monomial.ofAtom a (j * l)).Irreducible) :
    squaring mul (ofPower a i) (ofPower a j) n = .ok (ofPower a (i + j * n)) := by
  induction n using Nat.strong_induction_on generalizing i j with
  | _ n ih =>
    rw [squaring_step]
    split
    · rename_i zero
      rw [zero, Nat.cast_zero, mul_zero, add_zero]
    rename_i positive
    -- The last binary digit decides whether the base is multiplied in.
    have digit : (if n % 2 = 1 then (ofPower a i).mul (ofPower a j) else .ok (ofPower a i)) =
        .ok (ofPower a (i + j * (n % 2 : Nat))) := by
      split
      · rename_i odd
        obtain ⟨fits, irreducible⟩ := result 1 (by omega)
        rw [Nat.cast_one, mul_one] at fits irreducible
        rw [odd, Nat.cast_one, mul_one, mul_ofPower fits irreducible]
      · have even : n % 2 = 0 := by omega
        rw [even, Nat.cast_zero, mul_zero, add_zero]
    rw [digit]
    change (if n < 2 then _ else _) = _
    split
    · have small : n % 2 = n := by omega
      rw [small]
    · obtain ⟨fits, irreducible⟩ := base 2 (by omega)
      rw [Nat.cast_two, mul_two] at fits irreducible
      rw [mul_ofPower fits irreducible]
      have rest := ih (n / 2) (by omega) (i := i + j * (n % 2 : Nat)) (j := j + j)
        (fun l le => ?_) fun l le => ?_
      · have total : i + j * (n % 2 : Nat) + (j + j) * (n / 2 : Nat) = i + j * n := by
          have split : (n : Int) = (n % 2 : Nat) + 2 * (n / 2 : Nat) := by omega
          rw [split]
          ring
        rw [total] at rest
        exact rest
      · have within := result (n % 2 + 2 * l) (by omega)
        have same : i + j * (n % 2 : Nat) + (j + j) * l = i + j * (n % 2 + 2 * l : Nat) := by
          push_cast
          ring
        rwa [same]
      · have within := base (2 * l) (by omega)
        have same : (j + j) * (l : Int) = j * (2 * l : Nat) := by
          push_cast
          ring
        rwa [same]

theorem commonMonomial_ofAtom (plain : a.isQuadraticSurd = false) :
    (Poly.ofAtom a).commonMonomial = .ofAtom a 1 := by
  have found : [(a, (1 : Int))].lookup a = some 1 := by simp
  simp [Poly.commonMonomial, Poly.ofAtom, Poly.lowerCounts, Monomial.count, found, plain,
    Monomial.ofAtom]

/-- The reciprocal of an atom that is no surd. -/
theorem inverse_ofAtom (plain : a.isQuadraticSurd = false)
    (irreducible : (Monomial.ofAtom a (-1)).Irreducible) :
    (ofAtom a).inverse = .ok (ofPower a (-1)) := by
  have surdless : (Poly.ofAtom a).firstSurd? = none := by simp [Poly.firstSurd?, Poly.ofAtom, plain]
  have top : Poly.one.shift (.ofAtom a (-1)) = .ok (.term (.ofAtom a (-1)) 1) :=
    Poly.shift_term (Monomial.one_combine _) irreducible 1
  have bottom : (Poly.ofAtom a).shift (.ofAtom a (-1)) = .ok .one :=
    Poly.shift_term (m := .ofAtom a 1) (k := .one)
      (Monomial.combine_ofAtom (i := 1) (j := -1) rfl) Monomial.irreducible_one 1
  have cancelled : cancelMonomial .one (Poly.ofAtom a) =
      .ok (.term (.ofAtom a (-1)) 1, .one) := by
    unfold cancelMonomial
    rw [commonMonomial_ofAtom plain]
    change (Poly.one.shift (.ofAtom a (-1)) >>= fun num => _) = _
    rw [top]
    change ((Poly.ofAtom a).shift (.ofAtom a (-1)) >>= fun den => _) = _
    rw [bottom]
    rfl
  have rationalised : rationalise maxRounds .one (Poly.ofAtom a) = .ok (.one, .ofAtom a) := by
    rw [maxRounds, rationalise, surdless]
  change make .one (.ofAtom a) = _
  unfold make
  change (rationalise maxRounds .one (.ofAtom a) >>= fun q => _) = _
  rw [rationalised]
  change (cancelMonomial .one (.ofAtom a) >>= fun q => _) = _
  rw [cancelled]
  change ((Poly.term (.ofAtom a (-1)) 1).shift .one >>= fun q => pure (ofPoly (q.scale 1⁻¹))) = _
  rw [Poly.shift_one (.term irreducible 1)]
  change Except.ok (ofPoly (Poly.scale _ 1⁻¹)) = _
  rw [inv_one, Poly.scale_one]
  rfl

/-- An integer power of an atom, if the exponent is not too large. -/
theorem powInt_ofAtom {n : Int} (max : Nat) (fits : fitsInt64 n = true)
    (plain : n < 0 → a.isQuadraticSurd = false)
    (irreducible : ∀ k : Int, min n 0 ≤ k → k ≤ Max.max n 0 → (Monomial.ofAtom a k).Irreducible) :
    (ofAtom a).powInt n max =
      if max < n.natAbs then .error (exponentError n max) else .ok (ofPower a n) := by
  rw [Monomial.fitsInt64_iff] at fits
  -- The exponent is one or minus one times its absolute value.
  have power : ∀ s : Int, s = 1 ∨ s = -1 → s * n.natAbs = n →
      squaring mul one (ofPower a s) n.natAbs = .ok (ofPower a n) := by
    intro s sign total
    have within : ∀ l : Nat, l ≤ n.natAbs →
        fitsInt64 (s * l) = true ∧ (Monomial.ofAtom a (s * l)).Irreducible := by
      intro l le
      rw [Monomial.fitsInt64_iff]
      rcases sign with rfl | rfl
      · exact ⟨by omega, irreducible _ (by omega) (by omega)⟩
      · exact ⟨by omega, irreducible _ (by omega) (by omega)⟩
    have run := squaring_ofPower (i := 0) (j := s) n.natAbs (fun l le => by
      rw [zero_add]
      exact within l le) within
    rwa [zero_add, total] at run
  unfold powInt
  dsimp only
  split
  · rfl
  split
  · rename_i negative
    rw [inverse_ofAtom (plain negative) (irreducible (-1) (by omega) (by omega))]
    exact power (-1) (.inr rfl) (by omega)
  · exact power 1 (.inl rfl) (by omega)

end Fraction

end Discharge
