import Discharge.Proofs.Normal.Factors
import Discharge.Proofs.Normal.Valuation
import Discharge.Normal.Reduction

/-! Products of polynomials have the products of their values.

A valuation is lawful when i squares to minus one, every root raised to its
index is the value of its radicand, and exponentials of exact angles have their
exact values; the laws are asked of the atoms that may occur only. Under a
lawful valuation the reduction of a monomial keeps its value, and with it
products, powers and shifts of polynomials have the values they should. What
these operations return is again built from the same atoms, in order, and
their only failure is a size guard. -/

namespace Discharge

open Failure (IsTooLarge IsRefusalIn)

/-! ## Repeated squaring -/

theorem squaring_step {ε α : Type} (mul : α → α → Except ε α) (result base : α) (n : Nat) :
    squaring mul result base n =
      if n = 0 then .ok result
      else (if n % 2 = 1 then mul result base else .ok result) >>= fun next =>
        if n < 2 then .ok next
        else mul base base >>= fun square => squaring mul next square (n / 2) := by
  rw [squaring]
  split
  · rfl
  · by_cases odd : n % 2 = 1
    · simp only [odd, ↓reduceIte]
      rfl
    · simp only [odd, ↓reduceIte]
      rfl

/-- Repeated squaring multiplies by a power, for any product whose value is the
product of the values.  The bases may have weaker properties than the results. -/
theorem squaring_ensures_base {ε α : Type} {M : Type*} [CommMonoid M] {mul : α → α → Except ε α}
    (holds base : α → M → Prop) {bad : ε → Prop}
    (times : ∀ x y a b, holds x a → base y b → Ensures (mul x y) (fun z => holds z (a * b)) bad)
    (squares : ∀ y b, base y b → Ensures (mul y y) (fun z => base z (b * b)) bad)
    (n : Nat) {x y : α} {a b : M} (start : holds x a) (below : base y b) :
    Ensures (squaring mul x y n) (fun z => holds z (a * b ^ n)) bad := by
  induction n using Nat.strong_induction_on generalizing x y a b with
  | _ n ih =>
    rw [squaring_step]
    split
    · rename_i zero
      rw [zero, pow_zero, mul_one]
      exact start
    -- The last binary digit decides whether the base is multiplied in.
    have digit : Ensures (if n % 2 = 1 then mul x y else .ok x)
        (fun z => holds z (a * b ^ (n % 2))) bad := by
      split
      · rename_i odd
        rw [odd, pow_one]
        exact times x y a b start below
      · have even : n % 2 = 0 := by omega
        rw [even, pow_zero, mul_one]
        exact start
    refine .bind digit fun r next => ?_
    split
    · have small : n % 2 = n := by omega
      rwa [small] at next
    · refine .bind (squares y b below) fun s square => ?_
      refine (ih (n / 2) (by omega) next square).mono fun z final => ?_
      rwa [← sq, ← pow_mul, mul_assoc, ← pow_add, Nat.mod_add_div] at final

theorem squaring_ensures {ε α : Type} {M : Type*} [CommMonoid M] {mul : α → α → Except ε α}
    (holds : α → M → Prop) {bad : ε → Prop}
    (times : ∀ x y a b, holds x a → holds y b →
      Ensures (mul x y) (fun z => holds z (a * b)) bad)
    (n : Nat) {x y : α} {a b : M} (start : holds x a) (base : holds y b) :
    Ensures (squaring mul x y n) (fun z => holds z (a * b ^ n)) bad :=
  squaring_ensures_base holds holds times (fun y b below => times y y b b below below) n start base

namespace Valuation

variable {A : Type*} [CommRing A] [Algebra ℚ A] (v : Valuation A)

/-! ## Admitted monomials -/

/-- A factor that may stand in a monomial: an exponent of 64 bits other than
zero on an atom that may occur, and that may be divided by if the exponent is
negative. -/
structure AdmitsFactor (f : Atom × Int) : Prop where
  nonzero : f.2 ≠ 0
  fits : fitsInt64 f.2 = true
  known : v.known f.1
  regular : f.2 < 0 → v.invertible f.1

/-- A monomial of admitted factors in increasing order, with an exponential only
if exponentials may occur, of monomials that may occur in exponents. -/
structure Admits (m : Monomial) : Prop where
  increasing : Monomial.Increasing m.factors
  factor : ∀ f ∈ m.factors, v.AdmitsFactor f
  exponent : m.exp.Ordered
  turning : m.exp = .zero ∨ v.turning
  inner : m.exp.All v.inner

/-- A polynomial of admitted monomials in increasing order. -/
structure AdmitsPoly (p : Poly) : Prop where
  ordered : p.Ordered
  all : p.All v.Admits

/-- The laws of the normal form, for the atoms that may occur. -/
structure Lawful : Prop where
  imaginary : v.known .imaginary → v.atom .imaginary ^ 2 = -1
  root : ∀ p k, v.known (.root p k) → v.atom (.root p k) ^ k = v.poly p
  index : ∀ p k, v.known (.root p k) → fitsInt64 k = true
  radicand : ∀ p k, v.known (.root p k) → p.constant? = none → v.AdmitsPoly p
  turn : v.turning → v.inner Monomial.halfTurn → ∀ q p, Poly.unitRoot? q = some p →
    v.AdmitsPoly p ∧ v.poly p = v.exp (algebraMap ℚ A q * (v.atom .pi * v.atom .imaginary))

variable {v} {m n : Monomial} {p q : Poly} {fs gs : List (Atom × Int)}

theorem AdmitsFactor.isUnit {f : Atom × Int} (admitted : v.AdmitsFactor f) (negative : f.2 < 0) :
    IsUnit (v.atom f.1) :=
  v.isUnit f.1 (admitted.regular negative)

theorem AdmitsPoly.zero : v.AdmitsPoly .zero := ⟨.zero, .zero⟩

theorem AdmitsPoly.add (left : v.AdmitsPoly p) (right : v.AdmitsPoly q) :
    v.AdmitsPoly (p.add q) :=
  ⟨left.ordered.add right.ordered, left.all.add right.all⟩

theorem AdmitsPoly.scale (admitted : v.AdmitsPoly p) (c : Rat) : v.AdmitsPoly (p.scale c) :=
  ⟨admitted.ordered.scale c, admitted.all.scale c⟩

theorem AdmitsPoly.neg (admitted : v.AdmitsPoly p) : v.AdmitsPoly p.neg := admitted.scale (-1)

theorem AdmitsPoly.term (admitted : v.Admits m) (c : Rat) : v.AdmitsPoly (.term m c) :=
  ⟨.term m c, .term admitted c⟩

theorem linear_admits : Poly.Linear v.AdmitsPoly := ⟨.zero, .add, .scale⟩

theorem AdmitsPoly.sum {ps : List Poly} (each : ∀ p ∈ ps, v.AdmitsPoly p) :
    v.AdmitsPoly (.sum ps) :=
  linear_admits.sum each

theorem Admits.one : v.Admits .one :=
  ⟨.nil, fun _ member => absurd member List.not_mem_nil, .zero, .inl rfl, .zero⟩

theorem AdmitsPoly.constant (c : Rat) : v.AdmitsPoly (.constant c) := .term .one c

theorem AdmitsPoly.one : v.AdmitsPoly .one := .constant 1

theorem Admits.ofFactor {f : Atom × Int} (admitted : v.AdmitsFactor f) : v.Admits ⟨[f], .zero⟩ := by
  refine ⟨List.pairwise_singleton _ _, fun g member => ?_, .zero, .inl rfl, .zero⟩
  rw [List.mem_singleton.mp member]
  exact admitted

theorem Admits.ofAtom {a : Atom} (known : v.known a) : v.Admits ⟨[(a, 1)], .zero⟩ :=
  .ofFactor ⟨one_ne_zero, rfl, known, by simp⟩

theorem Admits.power {a : Atom} {n : Int} (admitted : n ≠ 0 → v.AdmitsFactor (a, n)) :
    v.Admits (.ofAtom a n) := by
  unfold Monomial.ofAtom
  split
  · exact .one
  · rename_i nonzero
    exact .ofFactor (admitted nonzero)

theorem AdmitsPoly.ofAtom {a : Atom} (known : v.known a) : v.AdmitsPoly (.ofAtom a) := by
  refine ⟨.ofAtom a, fun t member => ?_⟩
  rw [List.mem_singleton.mp member]
  exact .ofAtom known

/-! ## Combining monomials -/

theorem factors_mergeFactors (fs gs : List (Atom × Int)) :
    Ensures (Monomial.mergeFactors fs gs) (fun hs => (∀ f ∈ fs, v.AdmitsFactor f) →
      (∀ g ∈ gs, v.AdmitsFactor g) → (∀ h ∈ hs, v.AdmitsFactor h) ∧
        v.factors hs = v.factors fs * v.factors gs) IsTooLarge := by
  refine Monomial.merge_induction (motive := fun fs gs hs => (∀ f ∈ fs, v.AdmitsFactor f) →
      (∀ g ∈ gs, v.AdmitsFactor g) → (∀ h ∈ hs, v.AdmitsFactor h) ∧
        v.factors hs = v.factors fs * v.factors gs) ?_ ?_ ?_ ?_ ?_ ?_ fs gs
  · exact fun gs _ right => ⟨right, by simp⟩
  · exact fun fs left _ => ⟨left, by simp⟩
  · intro a n fs b k gs out order ih left right
    obtain ⟨head, tail⟩ := List.forall_mem_cons.mp left
    obtain ⟨rest, value⟩ := ih tail right
    refine ⟨List.forall_mem_cons.mpr ⟨head, rest⟩, ?_⟩
    simp only [factors_cons, value]
    ring
  · intro a n fs b k gs out order ih left right
    obtain ⟨head, tail⟩ := List.forall_mem_cons.mp right
    obtain ⟨rest, value⟩ := ih left tail
    refine ⟨List.forall_mem_cons.mpr ⟨head, rest⟩, ?_⟩
    simp only [factors_cons, value]
    ring
  · intro a n fs k gs out zero ih left right
    obtain ⟨first, left⟩ := List.forall_mem_cons.mp left
    obtain ⟨second, right⟩ := List.forall_mem_cons.mp right
    obtain ⟨rest, value⟩ := ih left right
    have power := intPower_add (x := v.atom a) (m := n) (n := k)
      fun negative => negative.elim first.isUnit second.isUnit
    rw [zero, intPower_zero] at power
    refine ⟨rest, ?_⟩
    simp only [factors_cons, value]
    linear_combination (v.factors fs * v.factors gs) * power
  · intro a n fs k gs out fits nonzero ih left right
    obtain ⟨first, left⟩ := List.forall_mem_cons.mp left
    obtain ⟨second, right⟩ := List.forall_mem_cons.mp right
    obtain ⟨rest, value⟩ := ih left right
    have regular : n < 0 ∨ k < 0 → v.invertible a :=
      fun negative => negative.elim first.regular second.regular
    have head : v.AdmitsFactor (a, n + k) :=
      ⟨nonzero, fits, first.known, fun negative => regular (by dsimp only at negative; omega)⟩
    refine ⟨List.forall_mem_cons.mpr ⟨head, rest⟩, ?_⟩
    simp only [factors_cons, value, intPower_add fun negative => v.isUnit a (regular negative)]
    ring

/-- The product of two admitted monomials, before any reduction. -/
theorem combine_ensures (left : v.Admits m) (right : v.Admits n) :
    Ensures (m.combine n) (fun k => v.Admits k ∧ v.monomial k = v.monomial m * v.monomial n)
      IsTooLarge := by
  have merged := factors_mergeFactors (v := v) m.factors n.factors
  have increasing := Monomial.increasing_mergeFactors m.factors n.factors
  refine .bind (merged.and fun hs ran => increasing.of_ok ran) ?_
  rintro hs ⟨holds, order⟩
  obtain ⟨admitted, value⟩ := holds left.factor right.factor
  refine ⟨⟨order.2 left.increasing right.increasing, admitted, left.exponent.add right.exponent,
    ?_, left.inner.add right.inner⟩, ?_⟩
  · rcases left.turning with zero | turning
    · rcases right.turning with zero' | turning
      · exact .inl (by rw [zero, zero']; rfl)
      · exact .inr turning
    · exact .inr turning
  · simp only [monomial_eq, value, poly_add, v.exp_add]
    ring

/-! ## Products -/

variable {lower : Monomial → Outcome Poly} {P Q : Monomial → Prop} {C : Poly → Prop}
  {bad : Failure → Prop} {x : A}

variable (v) in
/-- The reduced product of a monomial of one kind and one of another kind is of the
class, and its value is the product of theirs, up to a factor. -/
def Multiplies (lower : Monomial → Outcome Poly) (P Q : Monomial → Prop) (C : Poly → Prop) (x : A)
    (bad : Failure → Prop) : Prop :=
  ∀ m n, P m → Q n → Ensures (m.combine n >>= lower)
    (fun r => C r ∧ v.poly r = x * (v.monomial m * v.monomial n)) bad

section Multiplies

variable (multiplies : v.Multiplies lower P Q C x bad) (linear : Poly.Linear C)

include multiplies linear

theorem Multiplies.timesTerm (left : P m) (c : Rat) (ts : List (Monomial × Rat))
    (right : ∀ t ∈ ts, Q t.1) : Ensures (Poly.timesTerm lower m c ts) (fun ps => (∀ p ∈ ps, C p) ∧
      (ps.map v.poly).sum = x * (algebraMap ℚ A c * v.monomial m * v.terms ts)) bad := by
  induction ts with
  | nil => exact ⟨by simp, by simp⟩
  | cons t ts ih =>
    obtain ⟨n, d⟩ := t
    obtain ⟨head, tail⟩ := List.forall_mem_cons.mp right
    unfold Poly.timesTerm
    rw [← bind_assoc]
    refine .bind (multiplies m n left head) ?_
    rintro r ⟨member, value⟩
    refine .bind (ih tail) ?_
    rintro ps ⟨rest, sum⟩
    refine ⟨List.forall_mem_cons.mpr ⟨linear.scale member _, rest⟩, ?_⟩
    simp only [List.map_cons, List.sum_cons, sum, poly_scale, value, terms_cons, map_mul]
    ring

theorem Multiplies.timesTerms (us ts : List (Monomial × Rat)) (right : ∀ t ∈ us, Q t.1)
    (left : ∀ t ∈ ts, P t.1) : Ensures (Poly.timesTerms lower us ts) (fun ps => (∀ p ∈ ps, C p) ∧
      (ps.map v.poly).sum = x * (v.terms ts * v.terms us)) bad := by
  induction ts with
  | nil => exact ⟨by simp, by simp⟩
  | cons t ts ih =>
    obtain ⟨m, c⟩ := t
    obtain ⟨head, tail⟩ := List.forall_mem_cons.mp left
    refine .bind (multiplies.timesTerm linear head c us right) ?_
    rintro row ⟨first, value⟩
    refine .bind (ih tail) ?_
    rintro ps ⟨rest, sum⟩
    refine ⟨List.forall_mem_append.mpr ⟨first, rest⟩, ?_⟩
    rw [List.map_append, List.sum_append, value, sum, terms_cons]
    ring

theorem Multiplies.mulWith (large : ∀ f : Failure, f.IsTooLarge → bad f) (left : p.All P)
    (right : q.All Q) : Ensures (Poly.mulWith lower p q)
      (fun r => C r ∧ v.poly r = x * (v.poly p * v.poly q)) bad := by
  unfold Poly.mulWith
  split
  · exact large _ ⟨_, rfl⟩
  refine .bind (multiplies.timesTerms linear q.terms p.terms right left) ?_
  rintro ps ⟨each, value⟩
  dsimp only
  split
  · exact large _ ⟨_, rfl⟩
  · exact ⟨linear.sum each, by rw [poly_sum, value, poly_eq, poly_eq]⟩

end Multiplies

variable (v) in
/-- A reduction keeps the value of an admitted monomial. -/
def Reduces (lower : Monomial → Outcome Poly) : Prop :=
  ∀ m, v.Admits m →
    Ensures (lower m) (fun r => v.AdmitsPoly r ∧ v.poly r = v.monomial m) (IsRefusalIn A)

theorem Reduces.multiplies (reduces : v.Reduces lower) :
    v.Multiplies lower v.Admits v.Admits v.AdmitsPoly 1 (IsRefusalIn A) := by
  intro m n left right
  refine .bind ((combine_ensures left right).mono_error fun _ large => large.isRefusalIn A) ?_
  rintro k ⟨admitted, value⟩
  rw [← value, one_mul]
  exact reduces k admitted

theorem mulWith_ensures (reduces : v.Reduces lower) (left : v.AdmitsPoly p)
    (right : v.AdmitsPoly q) :
    Ensures (Poly.mulWith lower p q)
      (fun r => v.AdmitsPoly r ∧ v.poly r = v.poly p * v.poly q) (IsRefusalIn A) := by
  have product := reduces.multiplies.mulWith linear_admits
    (fun _ large => large.isRefusalIn A) left.all right.all
  simpa only [one_mul] using product

theorem powWith_ensures (reduces : v.Reduces lower) (admitted : v.AdmitsPoly p) (n : Nat) :
    Ensures (Poly.powWith lower p n)
      (fun r => v.AdmitsPoly r ∧ v.poly r = v.poly p ^ n) (IsRefusalIn A) := by
  have power := squaring_ensures (fun p a => v.AdmitsPoly p ∧ v.poly p = a)
    (fun x y a b left right => by
      rw [← left.2, ← right.2]
      exact mulWith_ensures reduces left.1 right.1)
    n ⟨.one, v.poly_one⟩ ⟨admitted, rfl⟩
  rwa [one_mul] at power

end Valuation

end Discharge
