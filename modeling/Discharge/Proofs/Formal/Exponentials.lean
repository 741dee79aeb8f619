import Discharge.Proofs.Formal.Angles

/-! Formal values of exponentials. An exponential takes integer multiples of
logarithms and exact angles out of its exponent, and keeps the rest. All three
parts turn sums into products: the powers where the integer multiples add up,
the angles where the same is kept of their sum, and the rest formally. -/

namespace Discharge

open Monomial (halfTurn)
open Fraction (logarithm?)

/-! ## Parts of an exponent -/

/-- The logarithm as a monomial. -/
def Monomial.ln (r : Fraction) : Monomial := ⟨[(.ln r, 1)], .zero⟩

namespace Poly

variable {p q : Poly} {ts : List (Monomial × Rat)} {l : Fraction × Int} {r : Fraction}

/-- The integer multiples of logarithms among the terms, by their arguments. -/
noncomputable def logarithmsIn (ts : List (Monomial × Rat)) : Fraction →₀ ℤ :=
  ((ts.filterMap logarithm?).map fun l => .single l.1 l.2).sum

/-- The integer multiples of logarithms in a polynomial. -/
noncomputable def logarithms (p : Poly) : Fraction →₀ ℤ := logarithmsIn p.terms

/-- What an exponential takes out of its exponent has formal values: the exact value
of the angle, and powers of arguments of logarithms, of which only those without
adjoined roots among the factors have negative exponents. -/
structure Resolved (R : Set (ℕ × ℕ)) (S : Finset Atom) (p : Poly) : Prop where
  arguments : ∀ r ∈ p.logarithms.support, r.RootsIn R S
  inverses : ∀ r, p.logarithms r < 0 → r.num.All fun m => m.Tame R ∧ m.exp.Every (Nonnegative S)
  inside : p.Every (Nonnegative S)
  angle : TameAngle R p.angle

end Poly

/-! ## Values of the parts -/

namespace Valuation

variable {A : Type*} [CommRing A] [Algebra ℚ A] {v : Valuation A} {C : Poly → Prop}
  {value : Fraction → A} {max : Nat} {r : Fraction} {x : A}

/-- Powers that integer multiples of logarithms stand for. -/
theorem Cancelling.takeLogarithms [Nontrivial A] (cancelling : v.Cancelling C)
    (ls : List (Fraction × Int)) (each : ∀ l ∈ ls, v.Represents C l.1 (value l.1) ∧
      (l.2 < 0 → v.divisible.AdmitsPoly l.1.num)) (start : v.Represents C r x) :
    Yields (Fraction.takeLogarithms max r ls)
      (v.Represents C · (x * (ls.map fun l => intPower (value l.1) l.2).prod)) := by
  induction ls generalizing r x with
  | nil =>
    rw [List.map_nil, List.prod_nil, mul_one]
    exact start
  | cons l ls ih =>
    obtain ⟨argument, n⟩ := l
    obtain ⟨⟨head, divisible⟩, tail⟩ := List.forall_mem_cons.mp each
    unfold Fraction.takeLogarithms
    dsimp only
    split
    · trivial
    refine .bind (head.powInt cancelling divisible max) fun power raised => ?_
    refine .bind (start.mul cancelling raised) fun product multiplied => ?_
    rw [List.map_cons, List.prod_cons, ← mul_assoc]
    exact ih tail multiplied

end Valuation

/-! ## Exponentials -/

namespace Formal.Adjunction

open Discharge.Poly (keptAngle TameAngle)

variable {R : Set (ℕ × ℕ)} {S : Finset Atom} {max : Nat} {p q : Poly} {ts : List (Monomial × Rat)}
  {r : Fraction} {A : Type} [CommRing A] [Algebra ℚ A] [Algebra Formal A] (E : Adjunction S A)

/-- What is left of an exponent without logarithms. -/
noncomputable def remainder (R : Set (ℕ × ℕ)) (max : Nat) (p : Poly) : A :=
  (E.valuation R max).poly p -
    p.logarithms.sum fun r n => n • (E.valuation R max).monomial (.ln r)

/-- The powers that an exponential takes out of its exponent. -/
noncomputable def powers (R : Set (ℕ × ℕ)) (max : Nat) (p : Poly) : A :=
  p.logarithms.prod fun r n => intPower (E.quotient R max r) n

/-- The value of the exponential of a polynomial, at the angle that is kept. -/
noncomputable def exponential (R : Set (ℕ × ℕ)) (max : Nat) (p : Poly) : A :=
  E.powers R max p *
    (E.twist R max (p.angle - keptAngle p.angle) * (E.valuation R max).exp (E.remainder R max p))

section Values

variable (system : Radical.Independent R) (adjoinable : Adjoinable R S) (rooted : E.Rooted R max)

include system adjoinable rooted

end Values

end Formal.Adjunction

end Discharge
