import Discharge.Calculus.Antiderivative
import Discharge.Proofs.Normal.Divisors

/-! The divisors of an antiderivative. Integration is repeated with fractions that
carry the polynomials they were divided by, and the fractions that come out are
the same. -/

namespace Discharge

namespace Traced

open Antiderivative

/-! ## Integration -/

def scale (r : Traced) (q : Rat) : Traced := ⟨r.fraction.scale q, r.divisors⟩

def byParts (rate : Traced) (var : String) (k : Nat) (max : Nat) :
    Nat → Nat → Rat → Traced → Outcome Traced
  | 0, _, _, total => .ok total
  | rounds + 1, j, falling, total => do
    let divisor ← rate.powInt (j + 1) max
    let term ← (whole (powerOf var ((k : Int) - j))).div divisor
    let total ← total.add (term.scale (if j % 2 = 0 then falling else -falling))
    byParts rate var k max rounds (j + 1) (falling * ((k : Int) - j)) total

def powerLog (var : String) (k : Int) : Outcome Traced := do
  let log ← lnOf var
  let n ← machineInt "add" (k + 1)
  let lifted := whole (powerOf var n)
  let first ← lifted.mul (whole log)
  let square ← machineInt "multiply" (n * n)
  (first.scale (n : Rat)⁻¹).sub (lifted.scale (square : Rat)⁻¹)

def powerExp (rate : Poly) (var : String) (k : Nat) (max : Nat) : Outcome Traced := do
  if max < k then
    throw (.tooLarge (var ++ "^" ++ toString k ++ " under an exponential"))
  let exponential := Fraction.ofPoly (.term (.exponential (linearTerm rate var)) 1)
  (whole exponential).mul
    (← byParts (whole (.ofPoly rate)) var k max (k + 1) 0 1 (whole .zero))

def ofShape (s : Shape) (var : String) (max : Nat) : Outcome Traced :=
  match s.rate, s.logarithm with
  | none, false =>
    if s.degree = -1 then return whole (← lnOf var)
    else do
      let n ← machineInt "add" (s.degree + 1)
      return (whole (powerOf var n)).scale (n : Rat)⁻¹
  | none, true =>
    if s.degree = -1 then do
      let log ← lnOf var
      return (← (whole log).mul (whole log)).scale (1 / 2)
    else powerLog var s.degree
  | some rate, logarithm =>
    if !logarithm ∧ 0 ≤ s.degree then powerExp rate var s.degree.toNat max
    else .error (.unsupported ("integrand shape " ++ var ++ "^" ++ toString s.degree
      ++ " with logarithm and exponential"))

def ofTerms (var : String) (max : Nat) (total : Traced) :
    List (Monomial × Rat) → Outcome Traced
  | [] => .ok total
  | (m, c) :: ts => do
    let (dependent, free) := m.split var
    let s ← shape dependent var
    let piece ← ofShape s var max
    let product ← (whole (.ofPoly (.term free c))).mul piece
    ofTerms var max (← total.add product) ts

def antiderivative (r : Fraction) (var : String) (max : Nat) : Outcome Traced := do
  if r.den.mentions var then
    throw (.unsupported ("rational function of " ++ var ++ " in the denominator"))
  let total ← ofTerms var max (whole .zero) r.num.terms
  total.div (whole (.ofPoly r.den))

/-! ## The same fractions -/

theorem byParts_erases (rate : Traced) (var : String) (k max rounds j : Nat) (falling : Rat)
    (total : Traced) :
    Erases (byParts rate var k max rounds j falling total)
      (Antiderivative.byParts rate.fraction var k max rounds j falling total.fraction) := by
  induction rounds generalizing j falling total with
  | zero => rfl
  | succ rounds ih =>
    refine .bind (powInt_erases rate _ max) fun divisor => ?_
    refine .bind (div_erases _ divisor) fun term => ?_
    exact .bind (add_erases total _) fun t => ih (j + 1) _ t

theorem powerLog_erases (var : String) (k : Int) :
    Erases (powerLog var k) (Antiderivative.powerLog var k) := by
  refine .step fun log => .step fun n => .bind (mul_erases _ _) fun first => ?_
  exact .step fun square => sub_erases _ _

theorem powerExp_erases (rate : Poly) (var : String) (k max : Nat) :
    Erases (powerExp rate var k max) (Antiderivative.powerExp rate var k max) := by
  refine .ite (fun _ => rfl) fun _ => ?_
  exact .bind (byParts_erases _ var k max _ _ _ _) fun t => mul_erases _ t

theorem ofShape_erases (s : Shape) (var : String) (max : Nat) :
    Erases (ofShape s var max) (Antiderivative.ofShape s var max) := by
  obtain ⟨degree, logarithm, rate⟩ := s
  unfold ofShape Antiderivative.ofShape
  cases rate with
  | some rate => exact .ite (fun _ => powerExp_erases _ var _ max) fun _ => rfl
  | none =>
    cases logarithm with
    | false =>
      refine .ite (fun _ => ?_) fun _ => .step fun n => rfl
      cases lnOf var <;> rfl
    | true =>
      refine .ite (fun _ => .step fun log => ?_) fun _ => powerLog_erases var degree
      exact .bind (mul_erases _ _) fun t => rfl

theorem ofTerms_erases (var : String) (max : Nat) (total : Traced)
    (ts : List (Monomial × Rat)) :
    Erases (ofTerms var max total ts) (Antiderivative.ofTerms var max total.fraction ts) := by
  induction ts generalizing total with
  | nil => rfl
  | cons t ts ih =>
    refine .step fun s => .bind (ofShape_erases s var max) fun piece => ?_
    refine .bind (mul_erases _ piece) fun product => ?_
    exact .bind (add_erases total product) fun next => ih next

theorem antiderivative_erases (r : Fraction) (var : String) (max : Nat) :
    Erases (antiderivative r var max) (r.antiderivative var max) :=
  .ite (fun _ => rfl) fun _ => .bind (ofTerms_erases var max _ _) fun t => div_erases t _

end Traced

/-- All that integrating a canonical form divides by. -/
def Fraction.integrationDivisors (r : Fraction) (var : String) (max : Nat) : List Poly :=
  match Traced.antiderivative r var max with
  | .ok t => t.divisors
  | .error _ => []

/-- An antiderivative comes with the divisors of the integration. -/
theorem Traced.antiderivative_of_ok {r F : Fraction} {var : String} {max : Nat}
    (ran : r.antiderivative var max = .ok F) :
    Traced.antiderivative r var max = .ok ⟨F, r.integrationDivisors var max⟩ := by
  have erased : (Traced.antiderivative r var max).map fraction = .ok F :=
    (antiderivative_erases r var max).trans ran
  obtain ⟨t, traced, rfl⟩ := map_eq_ok erased
  rw [Fraction.integrationDivisors, traced]

end Discharge
