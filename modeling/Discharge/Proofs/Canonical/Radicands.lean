import Mathlib
import Discharge.Proofs.Canonical.Roots

/-! What occurs in a canonical form, however deep. All atoms of a canonical form are
canonical, so that a constant radicand of a square root is one that trial division
leaves as it is: a prime, or a number beyond its reach that is no square. -/

namespace Discharge

variable {max : Nat} {a : Atom} {p q : Poly} {r : Fraction}

/-! ## Atoms of canonical forms -/

/-- The polynomials that the operation of an atom is applied to. -/
def Atom.arguments : Atom → List Poly
  | .root p _ => [p]
  | .ln r | .exp r => [r.num, r.den]
  | .power b e => [b.num, b.den, e.num, e.den]
  | .symbol _ | .pi | .imaginary => []

/-- The atom is a factor, or occurs in an exponent or in an argument of a factor. -/
inductive Atom.OccursIn (a : Atom) : Poly → Prop
  | factor {p : Poly} {t : Monomial × Rat} {n : Int} (term : t ∈ p.terms)
      (member : (a, n) ∈ t.1.factors) : OccursIn a p
  | exponent {p : Poly} {t : Monomial × Rat} (term : t ∈ p.terms) (inside : OccursIn a t.1.exp) :
      OccursIn a p
  | argument {p q : Poly} {t : Monomial × Rat} {b : Atom} {n : Int} (term : t ∈ p.terms)
      (member : (b, n) ∈ t.1.factors) (operand : q ∈ b.arguments) (inside : OccursIn a q) :
      OccursIn a p

/-- The atom occurs above or below. -/
def Atom.Occurs (a : Atom) (r : Fraction) : Prop := a.OccursIn r.num ∨ a.OccursIn r.den

theorem Poly.Canonical.monomial (canonical : p.Canonical max) {t : Monomial × Rat}
    (term : t ∈ p.terms) : (Vocabulary.canonical max).valuation.Admits t.1 ∧ t.1.Irreducible :=
  ⟨(Vocabulary.canonical_poly.mp canonical).1.all t term,
    (Vocabulary.canonical_poly.mp canonical).2 t term⟩

theorem Poly.Canonical.factor (canonical : p.Canonical max) {t : Monomial × Rat}
    (term : t ∈ p.terms) {n : Int} (member : (a, n) ∈ t.1.factors) : a.Canonical max :=
  ((canonical.monomial term).1.factor _ member).known

theorem Poly.Canonical.exponent (canonical : p.Canonical max) {t : Monomial × Rat}
    (term : t ∈ p.terms) : t.1.exp.Canonical max := by
  obtain ⟨admitted, -⟩ := canonical.monomial term
  refine Vocabulary.canonical_poly.mpr ⟨⟨admitted.exponent, fun u member => ?_⟩,
    fun u member => ?_⟩
  · exact (Vocabulary.canonical_monomial.mp (admitted.inner u member)).1
  · exact (Vocabulary.canonical_monomial.mp (admitted.inner u member)).2

theorem Fraction.Canonical.sides (canonical : r.Canonical max) :
    ∀ q ∈ [r.num, r.den], q.Canonical max :=
  List.forall_mem_cons.mpr
    ⟨canonical.belongs.num, List.forall_mem_singleton.mpr canonical.belongs.den⟩

theorem Atom.canonical_arguments (canonical : a.Canonical max) :
    ∀ q ∈ a.arguments, q.Canonical max := by
  cases a with
  | root p k => exact List.forall_mem_singleton.mpr (Atom.canonical_root.mp canonical).2.2.1
  | ln r =>
    rw [Atom.Canonical] at canonical
    exact canonical.1.sides
  | exp r =>
    rw [Atom.Canonical] at canonical
    exact canonical.1.sides
  | power b e =>
    rw [Atom.Canonical] at canonical
    have both := List.forall_mem_append.mpr ⟨canonical.1.sides, canonical.2.1.sides⟩
    exact both
  | symbol s => exact fun q member => absurd member List.not_mem_nil
  | pi => exact fun q member => absurd member List.not_mem_nil
  | imaginary => exact fun q member => absurd member List.not_mem_nil

/-- Whatever occurs in a canonical polynomial is canonical. -/
theorem Atom.canonical_of_occursIn (occurs : a.OccursIn p) (canonical : p.Canonical max) :
    a.Canonical max := by
  induction occurs with
  | factor term member => exact canonical.factor term member
  | exponent term inside ih => exact ih (canonical.exponent term)
  | argument term member operand inside ih =>
    exact ih (Atom.canonical_arguments (canonical.factor term member) _ operand)

theorem Atom.canonical_of_occurs (occurs : a.Occurs r) (canonical : r.Canonical max) :
    a.Canonical max :=
  occurs.elim (canonical_of_occursIn · canonical.belongs.num)
    (canonical_of_occursIn · canonical.belongs.den)

/-! ## Constant radicands -/

theorem Poly.eq_of_term_eq {k l : Monomial} {c d : Rat} (first : c ≠ 0) (second : d ≠ 0)
    (same : term k c = term l d) : k = l := by
  rw [term_of_ne_zero first, term_of_ne_zero second] at same
  exact (Prod.mk.inj (List.cons.inj (Poly.mk.inj same)).1).1

/-- A radical that is a single root is one that is not split. -/
theorem Poly.radicand_of_positiveRadical {k : Nat} {c : Rat}
    (single : positiveRadical c k = .ofAtom (.root p k)) :
    ∃ n ∈ (Radical.integerRoot (c.num.natAbs * Nat.pow c.den (k - 1)) k).2,
      p = .constant (n : Nat) := by
  unfold positiveRadical integerRadical at single
  rw [scale_term] at single
  have roots := @mem_setCounts (Radical.integerRoot (c.num.natAbs * Nat.pow c.den (k - 1)) k).2 k []
  generalize (Radical.integerRoot (c.num.natAbs * Nat.pow c.den (k - 1)) k).2.foldl _ [] = fs
    at single roots
  have member : (.root p k, 1) ∈ fs := by
    have nonzero : (((Radical.integerRoot
        (c.num.natAbs * Nat.pow c.den (k - 1)) k).1 : Nat) : Rat) * mkRat 1 c.den ≠ 0 := by
      intro zero
      rw [zero, term_zero] at single
      cases single
    rw [(Monomial.mk.inj (eq_of_term_eq nonzero one_ne_zero single)).1]
    exact List.mem_singleton_self _
  obtain ⟨n, inside, same⟩ := (roots _ member).resolve_left List.not_mem_nil
  exact ⟨n, inside, (Atom.root.inj (Prod.mk.inj same).1).1⟩

/-- A constant radicand of a square root is a prime, or beyond the reach of trial
division and no square. -/
theorem Atom.squareRadicand_of_canonical {c : Rat} (canonical : Atom.Canonical max (.root p 2))
    (constant : p.constant? = some c) (above : 1 < c) :
    ∃ n : Nat, c = n ∧ (n.Prime ∨ Radical.Large n ∧ ¬ IsSquare n) := by
  obtain ⟨-, -, -, kept⟩ := Atom.canonical_root.mp canonical
  have root := kept fun d same => by
    rw [constant] at same
    cases same
    exact above
  have positive : 0 < c := zero_lt_one.trans above
  have constant' : (Fraction.ofPoly p).constant? = some c :=
    (Fraction.constant_ofPoly p).trans constant
  rw [Fraction.root_of_constant le_rfl constant', Poly.rationalRadical, if_neg positive.ne',
    if_neg positive.not_gt] at root
  have single : Poly.positiveRadical c 2 = .ofAtom (.root p 2) :=
    congrArg Fraction.num (Except.ok.inj root)
  obtain ⟨n, member, rfl⟩ := Poly.radicand_of_positiveRadical single
  rw [Poly.constant?_constant] at constant
  cases constant
  refine ⟨n, rfl, (Radical.radicand_prime_or_unsplit le_rfl
    (Radical.radicand_pos positive 2) n member).imp_right fun unsplit => ?_⟩
  have large := unsplit.single rfl
  refine ⟨large, ?_⟩
  rintro ⟨r, rfl⟩
  have one := unsplit.large 1 r (by rw [Nat.one_mul, Nat.pow_two])
    (fun q prime divides => absurd divides prime.not_dvd_one)
    (fun q prime divides => large q prime (divides.mul_left r))
  rw [one] at above
  norm_num at above

end Discharge
