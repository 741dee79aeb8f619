import Discharge.Proofs.Exponents.Normalisation

/-! Integration with recorded exponents. A piece of an antiderivative has the
successor of an exponent, and a piece with a logarithm the square of that. -/

namespace Discharge.Recorded

open Antiderivative (Shape linearTerm linearTerms? powerOf shape)
open Fraction (Belongs)

/-! ## Pieces -/

def byParts (rate : Fraction) (var : String) (k : Nat) (max : Nat) :
    Nat → Nat → Rat → Fraction → Recorded Fraction
  | 0, _, _, total => pure total
  | rounds + 1, j, falling, total => do
    let divisor ← powInt rate (j + 1) max
    let term ← div (powerOf var ((k : Int) - j)) divisor
    let total ← add total (term.scale (if j % 2 = 0 then falling else -falling))
    byParts rate var k max rounds (j + 1) (falling * ((k : Int) - j)) total

def powerLog (var : String) (k : Int) : Recorded Fraction := do
  let log ← ln (.ofAtom (.symbol var))
  let n ← exponent .successor k
  let lifted := powerOf var n
  let first ← mul lifted log
  let square ← exponent .square n
  sub (first.scale (n : Rat)⁻¹) (lifted.scale (square : Rat)⁻¹)

def powerExp (rate : Poly) (var : String) (k : Nat) (max : Nat) : Recorded Fraction := do
  if max < k then
    fail (.tooLarge (var ++ "^" ++ toString k ++ " under an exponential"))
  let exponential := Fraction.ofPoly (.term (.exponential (linearTerm rate var)) 1)
  mul exponential (← byParts (.ofPoly rate) var k max (k + 1) 0 1 .zero)

def ofShape (s : Shape) (var : String) (max : Nat) : Recorded Fraction :=
  match s.rate, s.logarithm with
  | none, false =>
    if s.degree = -1 then ln (.ofAtom (.symbol var))
    else do
      let n ← exponent .successor s.degree
      return (powerOf var n).scale (n : Rat)⁻¹
  | none, true =>
    if s.degree = -1 then do
      let log ← ln (.ofAtom (.symbol var))
      return (← mul log log).scale (1 / 2)
    else powerLog var s.degree
  | some rate, logarithm =>
    if !logarithm ∧ 0 ≤ s.degree then powerExp rate var s.degree.toNat max
    else fail (.unsupported ("integrand shape " ++ var ++ "^" ++ toString s.degree
      ++ " with logarithm and exponential"))

/-! ## Antiderivatives -/

def ofTerms (var : String) (max : Nat) (total : Fraction) :
    List (Monomial × Rat) → Recorded Fraction
  | [] => pure total
  | (m, c) :: ts => do
    let (dependent, free) := m.split var
    let s ← shape dependent var
    let piece ← ofShape s var max
    let product ← mul (.ofPoly (.term free c)) piece
    ofTerms var max (← add total product) ts

def antiderivative (r : Fraction) (var : String) (max : Nat) : Recorded Fraction := do
  if r.den.mentions var then
    fail (.unsupported ("rational function of " ++ var ++ " in the denominator"))
  let total ← ofTerms var max .zero r.num.terms
  div total (.ofPoly r.den)

/-! ## Exponents of pieces -/

variable {max : Nat} {x : String} {m : Monomial} {fs : List (Atom × Int)}
  {ts : List (Monomial × Rat)}

theorem canonical_symbol (max : Nat) (x : String) : Atom.Canonical max (.symbol x) := by
  rw [Atom.Canonical]
  trivial

theorem admits_power (x : String) {n : Int} (fits : fitsInt64 n = true) :
    (Vocabulary.outer max).valuation.Admits (.ofAtom (.symbol x) n) :=
  .power fun nonzero => ⟨nonzero, fits, canonical_symbol max x, fun _ => trivial⟩

theorem powerOf_admitted (x : String) {n : Int} (fits : fitsInt64 n = true) :
    Belongs (Poly.Admitted max) (powerOf x n) :=
  (Poly.admittedClass max).ofPoly (.term (admits_power x fits) 1)

theorem symbol_canonical (max : Nat) (x : String) : (Fraction.ofAtom (.symbol x)).Canonical max :=
  .of_atom (canonical_symbol max x)

theorem shapeFactors_fits {k k' : Int} {b b' : Bool} (fits : fitsInt64 k = true)
    (each : ∀ f ∈ fs, fitsInt64 f.2 = true)
    (ran : Antiderivative.shapeFactors x k b fs = .ok (k', b')) : fitsInt64 k' = true := by
  induction fs generalizing k b with
  | nil =>
    cases ran
    exact fits
  | cons f fs ih =>
    obtain ⟨a, n⟩ := f
    obtain ⟨head, tail⟩ := List.forall_mem_cons.mp each
    rw [Antiderivative.shapeFactors] at ran
    split at ran
    · exact ih head tail ran
    split at ran
    · exact ih fits tail ran
    · cases ran

/-- The terms of the rate of a linear exponent. -/
theorem linearTerms_admitted {qs : List Poly} (each : ∀ t ∈ ts, t.1.Canonical max)
    (found : linearTerms? x ts = some qs) : ∀ q ∈ qs, q.Admitted max := by
  induction ts generalizing qs with
  | nil =>
    cases found
    exact fun _ member => absurd member List.not_mem_nil
  | cons t ts ih =>
    obtain ⟨⟨fs, ⟨us⟩⟩, c⟩ := t
    obtain ⟨head, tail⟩ := List.forall_mem_cons.mp each
    obtain ⟨-, -, rest, others, rfl⟩ := Valuation.linearTerms_cons found
    have whole := Vocabulary.outer_admits (Vocabulary.canonical_monomial.mp head).1
    have part := whole.part (fun f => f.1 ≠ .symbol x) fun _ => true
    rw [List.filter_true] at part
    exact List.forall_mem_cons.mpr ⟨.term part c, ih tail others⟩

theorem shape_admitted (admitted : (Vocabulary.canonical max).valuation.Admits m) {s : Shape}
    (ran : shape m x = .ok s) :
    fitsInt64 s.degree = true ∧ ∀ rate, s.rate = some rate → rate.Admitted max := by
  obtain ⟨⟨degree, logarithm⟩, factors, ran⟩ := bind_eq_ok ran
  have fits := shapeFactors_fits rfl (fun f member => (admitted.factor f member).fits) factors
  dsimp only at ran
  split at ran
  · cases ran
    exact ⟨fits, nofun⟩
  split at ran
  · rename_i rate found
    cases ran
    refine ⟨fits, ?_⟩
    rintro _ ⟨⟩
    obtain ⟨qs, terms, rfl⟩ := Option.map_eq_some_iff.mp found
    exact .sum (linearTerms_admitted admitted.inner terms)
  · cases ran

/-! ## What integration gives -/

variable {r total : Fraction} {rate : Poly} {k : Nat}

theorem scale_admitted (belongs : Belongs (Poly.Admitted max) r) (c : Rat) :
    Belongs (Poly.Admitted max) (r.scale c) := by
  have cls := Poly.admittedClass max
  unfold Fraction.scale
  split
  · exact cls.ofPoly cls.zero
  · exact ⟨cls.scale belongs.num c, belongs.den⟩

theorem byParts_follows (linear : rate.Admitted max) (fits : fitsInt64 k = true)
    (rounds j : Nat) (within : j + rounds ≤ k + 1) (falling : Rat)
    (start : Belongs (Poly.Admitted max) total) :
    Follows (Belongs (Poly.Admitted max)) (byParts (.ofPoly rate) x k max rounds j falling total)
      (Antiderivative.byParts (.ofPoly rate) x k max rounds j falling total) := by
  have cls := Poly.admittedClass max
  induction rounds generalizing j falling total with
  | zero => exact .answer start
  | succ rounds ih =>
    have lower : fitsInt64 ((k : Int) - j) = true := by
      rw [Monomial.fitsInt64_iff] at fits ⊢
      omega
    refine .bind (powInt_follows (cls.ofPoly linear) _ max) fun divisor below => ?_
    refine .bind (div_follows (powerOf_admitted x lower) below) fun term quotient => ?_
    refine .bind (add_follows start (scale_admitted quotient _)) fun next sum => ?_
    exact ih (j + 1) (by omega) _ sum

theorem powerExp_follows (linear : rate.Admitted max) (fits : fitsInt64 k = true) :
    Follows (Belongs (Poly.Admitted max)) (powerExp rate x k max)
      (Antiderivative.powerExp rate x k max) := by
  have cls := Poly.admittedClass max
  refine .ite (fun _ => .fail) fun _ => ?_
  refine .bind (byParts_follows linear fits (k + 1) 0 (by omega) 1 (cls.ofPoly cls.zero))
    fun total parts => mul_follows (cls.ofPoly (.term ?_ 1)) parts
  refine ⟨.nil, fun _ member => absurd member List.not_mem_nil, .sum fun p member => ?_,
    .inr trivial, fun _ _ => trivial⟩
  obtain ⟨t, -, rfl⟩ := List.mem_map.mp member
  exact .term _ _

theorem powerLog_follows {k : Int} (fits : fitsInt64 k = true) :
    Follows (Belongs (Poly.Admitted max)) (powerLog x k) (Antiderivative.powerLog x k) := by
  refine .bind (ln_follows (symbol_canonical max x)) fun log found => ?_
  refine .bind (.exponent .successor fits) fun n lifted => ?_
  have power : Belongs (Poly.Admitted max) (powerOf x n) := powerOf_admitted x lifted.2
  refine .bind (mul_follows power found.admitted) fun first product => ?_
  exact .bind (.exponent .square lifted.2) fun square _ =>
    sub_follows (scale_admitted product _) (scale_admitted power _)

theorem ofShape_follows {s : Shape} (fits : fitsInt64 s.degree = true)
    (rates : ∀ rate, s.rate = some rate → rate.Admitted max) :
    Follows (Belongs (Poly.Admitted max)) (ofShape s x max) (Antiderivative.ofShape s x max) := by
  have log := (ln_follows (symbol_canonical max x)).mono fun _ => Fraction.Canonical.admitted
  obtain ⟨degree, logarithm, rate⟩ := s
  dsimp only at fits rates
  unfold ofShape Antiderivative.ofShape
  cases rate with
  | some rate =>
    refine .ite (fun guards => ?_) fun _ => .fail
    refine powerExp_follows (rates rate rfl) ?_
    rwa [Int.toNat_of_nonneg guards.2]
  | none =>
    cases logarithm with
    | false =>
      refine .ite (fun _ => log) fun _ => .bind (.exponent .successor fits) fun n lifted => ?_
      exact .answer (scale_admitted (powerOf_admitted x lifted.2) _)
    | true =>
      refine .ite (fun _ => ?_) fun _ => powerLog_follows fits
      exact .bind log fun t found => .bind (mul_follows found found) fun u square =>
        .answer (scale_admitted square _)

theorem ofTerms_follows (each : ∀ t ∈ ts, (Vocabulary.canonical max).valuation.Admits t.1)
    (start : Belongs (Poly.Admitted max) total) :
    Follows (Belongs (Poly.Admitted max)) (ofTerms x max total ts)
      (Antiderivative.ofTerms x max total ts) := by
  have cls := Poly.admittedClass max
  induction ts generalizing total with
  | nil => exact .answer start
  | cons t ts ih =>
    obtain ⟨m, c⟩ := t
    obtain ⟨head, tail⟩ := List.forall_mem_cons.mp each
    have dependent : (Vocabulary.canonical max).valuation.Admits (m.split x).1 := by
      rw [Valuation.split_eq]
      exact head.part _ _
    have free : (Vocabulary.outer max).valuation.Admits (m.split x).2 := by
      rw [Valuation.split_eq]
      exact (Vocabulary.outer_admits head).part _ _
    have shaped : Yields (shape (m.split x).1 x) fun s => fitsInt64 s.degree = true ∧
        ∀ rate, s.rate = some rate → rate.Admitted max := by
      cases ran : shape (m.split x).1 x with
      | error e => trivial
      | ok s => exact shape_admitted dependent ran
    refine .bind (.lift shaped) fun s holds => ?_
    refine .bind (ofShape_follows holds.1 holds.2) fun piece found => ?_
    refine .bind (mul_follows (cls.ofPoly (.term free c)) found) fun product sides => ?_
    exact .bind (add_follows start sides) fun next sum => ih tail sum

/-- Integrating a canonical form follows the recorded integration. -/
theorem antiderivative_follows (canonical : r.Canonical max) :
    Follows (Belongs (Poly.Admitted max)) (antiderivative r x max) (r.antiderivative x max) := by
  have cls := Poly.admittedClass max
  have each := (Vocabulary.canonical_poly.mp canonical.belongs.num).1.all
  refine .ite (fun _ => .fail) fun _ => ?_
  refine .bind (ofTerms_follows each (cls.ofPoly cls.zero)) fun total sum => ?_
  exact div_follows sum (cls.ofPoly canonical.admitted.den)

end Discharge.Recorded
