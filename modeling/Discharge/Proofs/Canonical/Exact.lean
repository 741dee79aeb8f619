import Discharge.Normal.OfExpr
import Discharge.Proofs.Canonical.Class

/-! Fractions with an exact value. If a valuation gives only the empty polynomial
of a class the value zero, then arithmetic in the class that goes through has
divided by nothing that is zero, and its results have the values that they should
without further assumptions. -/

namespace Discharge

open Fraction (Belongs)

namespace Fraction

/-! ## Sums and products -/

variable {A : Type*} [CommRing A] {max : Nat} {r : Fraction} {x : A} {xs : List Expr} {ys : List A}
  (holds : Fraction → A → Prop)

/-- What addition respects holds of the canonical form of a sum. -/
theorem ofSum_yields
    (plus : ∀ r s x y, holds r x → holds s y → Yields (r.add s) (holds · (x + y)))
    (each : List.Forall₂ (fun e y => Yields (ofExpr max e) (holds · y)) xs ys)
    (start : holds r x) : Yields (ofSum max r xs) (holds · (x + ys.sum)) := by
  induction each generalizing r x with
  | nil =>
    rw [ofSum, List.sum_nil, add_zero]
    exact start
  | cons head _ ih =>
    rw [ofSum, List.sum_cons, ← add_assoc]
    exact .bind head fun s first => .bind (plus _ _ _ _ start first) fun t next => ih next

/-- What multiplication respects holds of the canonical form of a product. -/
theorem ofProduct_yields
    (times : ∀ r s x y, holds r x → holds s y → Yields (r.mul s) (holds · (x * y)))
    (each : List.Forall₂ (fun e y => Yields (ofExpr max e) (holds · y)) xs ys)
    (start : holds r x) : Yields (ofProduct max r xs) (holds · (x * ys.prod)) := by
  induction each generalizing r x with
  | nil =>
    rw [ofProduct, List.prod_nil, mul_one]
    exact start
  | cons head _ ih =>
    rw [ofProduct, List.prod_cons, ← mul_assoc]
    exact .bind head fun s first => .bind (times _ _ _ _ start first) fun t next => ih next

end Fraction

namespace Valuation

variable {K : Type*} [Field K] [Algebra ℚ K] {v : Valuation K} {r s : Fraction} {x y : K}
  {num den p : Poly} {C : Poly → Prop}

/-- Fractions of the class can be computed with, and only the empty polynomial of
the class has the value zero. -/
structure Faithful (v : Valuation K) (C : Poly → Prop) : Prop where
  dividing : v.Dividing
  closed : Poly.Class C
  isZero : ∀ p, v.AdmitsPoly p → C p → v.poly p = 0 → p.isZero = true

/-- The fraction belongs to the class and has the value `x`. -/
structure Exact (v : Valuation K) (C : Poly → Prop) (r : Fraction) (x : K) : Prop where
  denotes : v.Denotes r x
  belongs : Belongs C r

theorem Exact.of_poly (cls : Poly.Class C) (admitted : v.AdmitsPoly p) (member : C p) :
    v.Exact C (.ofPoly p) (v.poly p) :=
  ⟨.of_poly admitted, cls.ofPoly member⟩

theorem Exact.constant (cls : Poly.Class C) (q : Rat) :
    v.Exact C (.constant q) (algebraMap ℚ K q) := by
  rw [← v.poly_constant q]
  exact .of_poly cls (.constant q) (cls.constant q)

namespace Faithful

variable (faithful : v.Faithful C)

include faithful

/-- What the denominator was multiplied with is not zero. -/
theorem conjugators_ne_zero (rounds : Nat) {q : Poly × Poly} (bottom : v.AdmitsPoly den)
    (member : C den) (ran : Fraction.rationalise rounds num den = .ok q) :
    ∀ d ∈ Fraction.conjugators rounds den, v.poly d ≠ 0 := by
  induction rounds generalizing num den with
  | zero => exact fun d member => absurd member List.not_mem_nil
  | succ rounds ih =>
    rw [Fraction.rationalise] at ran
    rw [Fraction.conjugators]
    cases found : den.firstSurd? with
    | none => exact fun d member => absurd member List.not_mem_nil
    | some surd =>
      rw [found] at ran
      dsimp only at ran ⊢
      obtain ⟨num', -, ran⟩ := bind_eq_ok ran
      obtain ⟨den', times, ran⟩ := bind_eq_ok ran
      obtain ⟨bottom', below⟩ := (mul_ensures faithful.dividing.lawful bottom
        (conjugator_admitted bottom found)).of_ok times
      have factor := faithful.closed.conjugator member found
      have closed := (faithful.closed.mul member factor).of_ok times
      rw [times]
      by_cases zero : den'.isZero = true
      · rw [zero] at ran
        cases ran
      rw [Bool.not_eq_true] at zero
      rw [zero] at ran
      refine List.forall_mem_cons.mpr ⟨fun vanishes => ?_, ih bottom' closed ran⟩
      rw [vanishes, mul_zero] at below
      rw [faithful.isZero den' bottom' closed below] at zero
      cases zero

theorem make_exact (sides : v.Sides num den x) (above : C num) (below : C den) :
    Yields (Fraction.make num den) (v.Exact C · x) := by
  cases ran : Fraction.make num den with
  | error e => trivial
  | ok r =>
    have regular : v.poly den ≠ 0 := by
      intro vanishes
      unfold Fraction.make at ran
      rw [faithful.isZero den sides.bottom below vanishes] at ran
      cases ran
    have divisors : ∀ d ∈ Fraction.divisors num den, v.poly d ≠ 0 := by
      refine List.forall_mem_cons.mpr ⟨regular, ?_⟩
      split
      · exact fun d member => absurd member List.not_mem_nil
      · rename_i proper
        rcases Fraction.make_cases ran with ⟨empty, -⟩ | ⟨-, q, -, first, -⟩
        · exact absurd empty proper
        · exact faithful.conjugators_ne_zero _ sides.bottom below first
    have made := (make_ensures faithful.dividing sides.top sides.bottom divisors).of_ok ran
    rw [sides.value regular] at made
    exact ⟨made.1, (faithful.closed.make above below).of_ok ran⟩

theorem add_exact (left : v.Exact C r x) (right : v.Exact C s y) :
    Yields (r.add s) (v.Exact C · (x + y)) := by
  rw [Fraction.add_eq_make]
  refine Yields.bind_ok fun q ran => ?_
  have sides := (sumSides_ensures faithful.dividing.lawful left.denotes right.denotes).of_ok ran
  have closed := (faithful.closed.sumSides left.belongs right.belongs).of_ok ran
  exact faithful.make_exact sides.1 closed.1 closed.2

theorem mul_exact (left : v.Exact C r x) (right : v.Exact C s y) :
    Yields (r.mul s) (v.Exact C · (x * y)) := by
  rw [Fraction.mul_eq_make]
  refine Yields.bind_ok fun q ran => ?_
  have sides := (productSides_ensures faithful.dividing.lawful left.denotes
    right.denotes.sides).of_ok ran
  have closed := (faithful.closed.productSides left.belongs right.belongs.num
    right.belongs.den).of_ok ran
  exact faithful.make_exact sides.1 closed.1 closed.2

theorem inverse_exact (exact : v.Exact C r x) : Yields r.inverse (v.Exact C · x⁻¹) := by
  unfold Fraction.inverse
  split
  · trivial
  · exact faithful.make_exact exact.denotes.reciprocal exact.belongs.den exact.belongs.num

theorem powInt_exact (exact : v.Exact C r x) (n : Int) (max : Nat) :
    Yields (r.powInt n max) (v.Exact C · (x ^ n)) := by
  have one : v.Exact C .one 1 := by
    have unit := Exact.constant (v := v) faithful.closed 1
    rwa [map_one] at unit
  have times : ∀ r s x y, v.Exact C r x → v.Exact C s y → Yields (r.mul s) (v.Exact C · (x * y)) :=
    fun r s x y left right => faithful.mul_exact left right
  have power : ∀ b y, v.Exact C b y →
      Yields (squaring Fraction.mul .one b n.natAbs) (v.Exact C · (1 * y ^ n.natAbs)) :=
    fun b y base => squaring_ensures (v.Exact C) times n.natAbs one base
  unfold Fraction.powInt
  dsimp only
  split
  · trivial
  split
  · rename_i negative
    refine .bind (faithful.inverse_exact exact) fun b base => (power b x⁻¹ base).mono ?_
    intro t final
    obtain ⟨k, rfl⟩ := Int.eq_negSucc_of_lt_zero negative
    simpa [Int.natAbs_negSucc, zpow_negSucc] using final
  · rename_i nonneg
    refine Ensures.mono (power r x exact) fun t final => ?_
    obtain ⟨k, rfl⟩ := Int.eq_ofNat_of_zero_le (not_lt.mp nonneg)
    simpa using final

/-- The test for zero is exact. -/
theorem isZero_iff (exact : v.Exact C r x) : r.isZero = true ↔ x = 0 := by
  have value := exact.denotes.value
  constructor
  · intro empty
    rw [poly_of_isZero empty] at value
    exact (mul_eq_zero.mp value.symm).resolve_right exact.denotes.regular
  · intro zero
    rw [zero, zero_mul] at value
    exact faithful.isZero _ exact.denotes.num exact.belongs.num value

end Faithful

/-! ## Trees -/

variable {e : Expr} {xs : List Expr} {ys : List K} {max : Nat}

/-- If the tree has a canonical form, then one that belongs to the class and has
the value `x`. -/
def Normalises (v : Valuation K) (C : Poly → Prop) (max : Nat) (e : Expr) (x : K) : Prop :=
  Yields (Fraction.ofExpr max e) (v.Exact C · x)

theorem Normalises.number (cls : Poly.Class C) (q : Rat) :
    v.Normalises C max (.number q) (algebraMap ℚ K q) := by
  unfold Normalises
  rw [Fraction.ofExpr]
  exact .constant cls q

namespace Faithful

variable (faithful : v.Faithful C)

include faithful

theorem ofSum_exact (each : List.Forall₂ (v.Normalises C max) xs ys) (start : v.Exact C r x) :
    Yields (Fraction.ofSum max r xs) (v.Exact C · (x + ys.sum)) :=
  Fraction.ofSum_yields (v.Exact C) (fun _ _ _ _ left right => faithful.add_exact left right) each
    start

theorem ofProduct_exact (each : List.Forall₂ (v.Normalises C max) xs ys) (start : v.Exact C r x) :
    Yields (Fraction.ofProduct max r xs) (v.Exact C · (x * ys.prod)) :=
  Fraction.ofProduct_yields (v.Exact C) (fun _ _ _ _ left right => faithful.mul_exact left right)
    each start

theorem normalises_sum (each : List.Forall₂ (v.Normalises C max) xs ys) :
    v.Normalises C max (.sum xs) ys.sum := by
  have total := faithful.ofSum_exact each (.constant faithful.closed 0)
  unfold Normalises
  rw [Fraction.ofExpr]
  rwa [map_zero, zero_add] at total

theorem normalises_product (each : List.Forall₂ (v.Normalises C max) xs ys) :
    v.Normalises C max (.product xs) ys.prod := by
  have total := faithful.ofProduct_exact each (.constant faithful.closed 1)
  unfold Normalises
  rw [Fraction.ofExpr]
  rwa [map_one, one_mul] at total

theorem normalises_power (base : v.Normalises C max e x) (n : Int) :
    v.Normalises C max (.power e (.int n)) (x ^ n) := by
  unfold Normalises
  rw [Fraction.ofExpr, Expr.int, Fraction.ofExpr]
  refine .bind base fun r exact => ?_
  change Yields (r.pow (.constant n) max) _
  rw [Fraction.pow_int]
  split
  · exact faithful.powInt_exact exact n max
  · trivial

end Faithful

end Valuation

end Discharge
