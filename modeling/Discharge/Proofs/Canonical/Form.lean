import Discharge.Proofs.Canonical.Content
import Discharge.Proofs.Canonical.Reduction
import Discharge.Proofs.Denominator.Functions
import Discharge.Proofs.Radical.TrialDivision

/-! Canonical forms. In the canonical form of an expression all lists are in
order, no monomial can be reduced further, every atom is what its own operation
makes of its arguments, and the denominator has its shape and is no divisor of
the numerator; all of that holds inside the atoms and the exponents again. -/

namespace Discharge

theorem Poly.scale_scale (p : Poly) (c d : Rat) : (p.scale c).scale d = p.scale (c * d) := by
  by_cases first : c = 0
  · rw [first, zero_mul, scale, scale, if_pos rfl]
    split <;> rfl
  by_cases second : d = 0
  · rw [second, mul_zero, scale, if_pos rfl, scale, if_pos rfl]
  · simp [scale, first, second, mul_assoc]

theorem Poly.rationalRadical_natCast {n : Nat} (positive : 0 < n) (k : Nat) :
    rationalRadical (n : Nat) k = .ok (integerRadical n k) := by
  have above : (0 : Rat) < (n : Nat) := Nat.cast_pos.mpr positive
  have radicand : (n : Rat).num.natAbs * Nat.pow (n : Rat).den (k - 1) = n := by simp
  have unit : mkRat 1 (n : Rat).den = 1 := by
    rw [Rat.den_natCast]
    rfl
  rw [rationalRadical, if_neg above.ne', if_neg above.not_gt, positiveRadical, radicand, unit,
    scale_one]

/-- The root of a number that is not split is an atom. -/
theorem Poly.rationalRadical_of_unsplit {n k : Nat} (positive : 0 < n)
    (unsplit : Radical.integerRoot n k = (1, [n])) :
    rationalRadical (n : Nat) k = .ok (.ofAtom (.root (constant (n : Nat)) k)) := by
  rw [rationalRadical_natCast positive, integerRadical, unsplit]
  rfl

/-! ## Finished fractions -/

namespace Fraction

/-- The denominator has its shape, and the numerator is no multiple of it. -/
structure Finished (r : Fraction) : Prop where
  shaped : r.Shaped
  lowest : r.den ≠ .zero → r.Lowest

variable {r s t : Fraction} {num den : Poly}

theorem finished_ofPoly (p : Poly) : (ofPoly p).Finished := ⟨.one rfl, fun _ => .inl rfl⟩

theorem monic_sides (num den : Poly) : (∃ q, monic num den = .constant q) ∨
    monic num den = ⟨num.scale (den.leading?.getD 1)⁻¹, den.scale (den.leading?.getD 1)⁻¹⟩ := by
  unfold monic
  dsimp only
  split
  · split
    · exact .inl ⟨_, rfl⟩
    · exact .inr rfl
  · exact .inr rfl

theorem make_lowest (ran : make num den = .ok r) (proper : r.den ≠ .zero) : r.Lowest := by
  rcases make_cases ran with ⟨-, rfl⟩ | ⟨-, q, ⟨num', ⟨ts⟩⟩, -, -, last⟩
  · exact .inl rfl
  rcases last with ⟨m, c, p, -, -, -, rfl⟩ | ⟨-, rfl⟩
  · exact .inl rfl
  rcases monic_sides num' ⟨ts⟩ with ⟨ratio, constant⟩ | sides
  · dsimp only
    rw [constant]
    exact .inl rfl
  dsimp only at proper ⊢
  cases ts with
  | nil =>
    refine absurd ?_ proper
    rw [sides]
    dsimp only
    rw [Poly.scale]
    split <;> rfl
  | cons t ts =>
    obtain ⟨m, c⟩ := t
    by_cases coefficient : c = 0
    · refine absurd ?_ proper
      rw [sides, coefficient]
      exact if_pos inv_zero
    · rcases Valuation.monic_cases num' m coefficient ts with ⟨ratio, constant, -⟩ | ⟨same, lowest⟩
      · rw [constant]
        exact .inl rfl
      · rw [same]
        exact .inr lowest

theorem make_finished (num den : Poly) : Yields (make num den) Finished := by
  cases ran : make num den with
  | error e => trivial
  | ok r => exact ⟨make_shaped ran, make_lowest ran⟩

theorem Finished.neg (finished : r.Finished) : r.neg.Finished := by
  obtain ⟨num, den⟩ := r
  obtain ⟨shaped, lowest⟩ := finished
  refine ⟨?_, fun proper => ?_⟩
  · cases shaped with
    | zero zero => exact .zero zero
    | one one => exact .one one
    | several length leading => exact .several length leading
  · rcases lowest proper with one | multiple
    · exact .inl one
    · refine .inr fun c nonzero same => multiple (c * -1) (by simpa using nonzero) ?_
      have twice : num.neg.neg = num := by
        rw [Poly.neg, Poly.neg, Poly.scale_scale, neg_mul_neg, mul_one, Poly.scale_one]
      have same' : num.neg = den.scale c := same
      dsimp only
      rw [← Poly.scale_scale, ← same']
      exact twice.symm

theorem sum_finished (r s : Fraction) : Yields (r.add s) Finished := by
  rw [add_eq_make]
  exact Yields.bind_ok fun q _ => make_finished _ _

theorem product_finished (r s : Fraction) : Yields (r.mul s) Finished := by
  rw [mul_eq_make]
  exact Yields.bind_ok fun q _ => make_finished _ _

theorem quotient_finished (r s : Fraction) : Yields (r.div s) Finished := by
  rw [div_eq_make]
  split
  · trivial
  · exact Yields.bind_ok fun q _ => make_finished _ _

theorem power_finished (r : Fraction) (n : Int) (max : Nat) : Yields (r.powInt n max) Finished := by
  have run : ∀ b, Yields (squaring mul one b n.natAbs) Finished := fun b =>
    squaring_ensures_base (M := Unit) (fun r _ => r.Finished) (fun _ _ => True)
      (fun r s _ _ _ _ => product_finished r s) (fun r _ _ => (product_finished r r).mono fun _ _ => trivial)
      n.natAbs (a := ()) (b := ()) (finished_ofPoly .one) trivial
  unfold powInt
  dsimp only
  split
  · trivial
  split
  · exact Yields.bind_ok fun b _ => run b
  · exact run r

end Fraction

section Canonical

variable (max : Nat)

mutual
/-- The atom is what its operation makes of canonical arguments. Only the radicand
that a quotient leaves behind may be no more than zero, one or minus one. -/
def Atom.Canonical : Atom → Prop
  | .symbol _ | .pi | .imaginary => True
  | .root p k => 2 ≤ k ∧ fitsInt64 k = true ∧ Poly.Canonical p ∧
    ((∀ c, p.constant? = some c → 1 < c) → (Fraction.ofPoly p).root k = .ok (.ofAtom (.root p k)))
  | .ln r => Fraction.Canonical r ∧ r.ln = .ok (.ofAtom (.ln r))
  | .power b e => Fraction.Canonical b ∧ Fraction.Canonical e ∧
    b.pow e max = .ok (.ofAtom (.power b e))
  | .exp r => Fraction.Canonical r ∧ r.exp max = .ok (.ofAtom (.exp r))

/-- An irreducible monomial of canonical factors in order. -/
def Monomial.Canonical : Monomial → Prop
  | ⟨fs, e⟩ => Monomial.Irreducible ⟨fs, e⟩ ∧ Monomial.Increasing fs ∧ factorsCanonical fs ∧
    Poly.Canonical e

/-- A polynomial of canonical terms in order. -/
def Poly.Canonical : Poly → Prop
  | ⟨ts⟩ => Poly.OrderedTerms ts ∧ termsCanonical ts

/-- A finished fraction of canonical polynomials. -/
def Fraction.Canonical : Fraction → Prop
  | ⟨num, den⟩ => Poly.Canonical num ∧ Poly.Canonical den ∧ Fraction.Finished ⟨num, den⟩

/-- The exponents are machine integers. -/
def factorsCanonical : List (Atom × Int) → Prop
  | [] => True
  | (a, n) :: fs => fitsInt64 n = true ∧ Atom.Canonical a ∧ factorsCanonical fs

/-- The monomials of the terms are canonical. -/
def termsCanonical : List (Monomial × Rat) → Prop
  | [] => True
  | (m, _) :: ts => Monomial.Canonical m ∧ termsCanonical ts
end

end Canonical

/-! ## The vocabulary of canonical forms -/

theorem Atom.canonical_imaginary {max : Nat} : Atom.Canonical max .imaginary := trivial

theorem Atom.canonical_root {max k : Nat} {p : Poly} : Atom.Canonical max (.root p k) ↔
    2 ≤ k ∧ fitsInt64 k = true ∧ p.Canonical max ∧
      ((∀ c, p.constant? = some c → 1 < c) →
        (Fraction.ofPoly p).root k = .ok (.ofAtom (.root p k))) := .rfl

/-- The atoms and the exponents of canonical forms. -/
def Vocabulary.canonical (max : Nat) : Vocabulary where
  known := Atom.Canonical max
  inner := Monomial.Canonical max

namespace Vocabulary

variable {max : Nat} {m : Monomial} {p : Poly} {r : Fraction}

theorem canonical_factors (fs : List (Atom × Int)) : factorsCanonical max fs ↔
    ∀ f ∈ fs, fitsInt64 f.2 = true ∧ f.1.Canonical max := by
  induction fs with
  | nil => exact iff_of_true trivial nofun
  | cons f fs ih =>
    obtain ⟨a, n⟩ := f
    change fitsInt64 n = true ∧ a.Canonical max ∧ factorsCanonical max fs ↔ _
    rw [ih, List.forall_mem_cons, and_assoc]

theorem canonical_terms (ts : List (Monomial × Rat)) :
    termsCanonical max ts ↔ ∀ t ∈ ts, t.1.Canonical max := by
  induction ts with
  | nil => exact iff_of_true trivial nofun
  | cons t ts ih =>
    obtain ⟨m, c⟩ := t
    change m.Canonical max ∧ termsCanonical max ts ↔ _
    rw [ih, List.forall_mem_cons]

theorem canonical_monomial :
    m.Canonical max ↔ (canonical max).valuation.Admits m ∧ m.Irreducible := by
  obtain ⟨fs, ⟨ts⟩⟩ := m
  change Monomial.Irreducible ⟨fs, ⟨ts⟩⟩ ∧ Monomial.Increasing fs ∧ factorsCanonical max fs ∧
    Poly.OrderedTerms ts ∧ termsCanonical max ts ↔ _
  rw [canonical_terms, canonical_factors]
  constructor
  · rintro ⟨irreducible, increasing, factors, ordered, inner⟩
    refine ⟨⟨increasing, fun f member => ?_, ordered, .inr trivial, inner⟩, irreducible⟩
    exact ⟨irreducible.nonzero f member, (factors f member).1, (factors f member).2, fun _ => trivial⟩
  · rintro ⟨⟨increasing, factors, ordered, -, inner⟩, irreducible⟩
    exact ⟨irreducible, increasing, fun f member => ⟨(factors f member).fits, (factors f member).known⟩,
      ordered, inner⟩

theorem canonical_poly :
    p.Canonical max ↔ (canonical max).valuation.AdmitsPoly p ∧ p.All Monomial.Irreducible := by
  obtain ⟨ts⟩ := p
  change Poly.OrderedTerms ts ∧ termsCanonical max ts ↔ _
  rw [canonical_terms]
  constructor
  · rintro ⟨ordered, terms⟩
    exact ⟨⟨ordered, fun t member => (canonical_monomial.mp (terms t member)).1⟩,
      fun t member => (canonical_monomial.mp (terms t member)).2⟩
  · rintro ⟨⟨ordered, terms⟩, irreducible⟩
    exact ⟨ordered, fun t member => canonical_monomial.mpr ⟨terms t member, irreducible t member⟩⟩

/-! ## Arithmetic of canonical forms -/

theorem canonical_constant (c : Rat) : (Poly.constant c).Canonical max :=
  canonical_poly.mpr ⟨.constant c, .term Monomial.irreducible_one c⟩

/-- The root of a number that is not split. -/
theorem root_canonical {n k : Nat} (proper : 2 ≤ k) (fits : fitsInt64 k = true) (positive : 0 < n)
    (unsplit : Radical.integerRoot n k = (1, [n])) :
    Atom.Canonical max (.root (.constant (n : Nat)) k) := by
  refine Atom.canonical_root.mpr ⟨proper, fits, canonical_constant _, fun _ => ?_⟩
  have whole : (Fraction.ofPoly (.constant (n : Nat))).constant? = some (n : Rat) :=
    Poly.constant?_constant _
  unfold Fraction.root
  rw [if_neg (by omega), if_neg (by omega), whole]
  dsimp only
  rw [Poly.rationalRadical_of_unsplit positive unsplit]
  rfl

theorem canonical_closed (max : Nat) : (canonical max).Closed where
  angles :=
    { imaginary := @Atom.canonical_imaginary max
      surd := fun n surd => root_canonical le_rfl rfl (Valuation.prime_of_surd surd).pos
        (Radical.integerRoot_of_prime (Valuation.prime_of_surd surd) le_rfl) }
  index p k known := by
    have root := Atom.canonical_root.mp known
    exact ⟨by omega, root.2.1⟩
  radicand p k known _ := (canonical_poly.mp (Atom.canonical_root.mp known).2.2.1).1

theorem reduce_canonical (admitted : (canonical max).valuation.Admits m) :
    Yields m.reduce (Poly.Canonical max) := by
  have closed := canonical_closed max
  refine (((Valuation.reduce_reduces closed.lawful m admitted).mono_error fun _ _ => trivial).and
    fun p ran => (reduce_irreducible closed admitted).of_ok ran).mono ?_
  rintro p ⟨⟨reduced, -⟩, irreducible⟩
  exact canonical_poly.mpr ⟨reduced, irreducible⟩

/-- One step of multiplying terms. -/
theorem combine_canonical {n k : Monomial} (left : (canonical max).valuation.Admits m)
    (right : (canonical max).valuation.Admits n) (combined : m.combine n = .ok k) :
    Yields k.reduce (·.All Monomial.Irreducible) :=
  reduce_irreducible (canonical_closed max) ((Valuation.combine_ensures left right).of_ok combined).1

theorem shift_canonical (canonical : p.Canonical max)
    (admitted : (Vocabulary.canonical max).valuation.Admits m) :
    Yields (p.shift m) (Poly.Canonical max) := by
  obtain ⟨reduced, -⟩ := canonical_poly.mp canonical
  have shifted := Valuation.shift_ensures (canonical_closed max).lawful reduced admitted
  refine ((shifted.mono_error fun _ _ => trivial).and fun q ran =>
    (Poly.shift_yields fun t member k combined =>
      combine_canonical (reduced.all t member) admitted combined).of_ok ran).mono ?_
  rintro q ⟨⟨final, -⟩, irreducible⟩
  exact canonical_poly.mpr ⟨final, irreducible⟩

/-- An exponent of one is below every index. -/
theorem irreducible_ofAtom {a : Atom} (proper : ∀ p k, a = .root p k → 2 ≤ k) :
    (⟨[(a, 1)], .zero⟩ : Monomial).Irreducible := by
  have settled : Monomial.settleFactor a 1 = .ok (1, 1) := by
    cases a with
    | root p k =>
      have index := proper p k rfl
      cases constant : p.constant? with
      | none => simp [Monomial.settleFactor, constant]
      | some c => exact Monomial.settleFactor_root constant (by decide) (by omega)
    | _ => rfl
  have below : Monomial.excess? a 1 = none := by
    cases a with
    | root p k =>
      have index := proper p k rfl
      simp only [Monomial.excess?, ite_eq_right_iff]
      rintro ⟨-, reached⟩
      omega
    | _ => rfl
  refine ⟨?_, ?_, ?_, rfl⟩
  · simp
  · simpa using settled
  · simpa using below

theorem index_of_canonical {a : Atom} (canonical : a.Canonical max) :
    ∀ p k, a = .root p k → 2 ≤ k := by
  rintro p k rfl
  exact (Atom.canonical_root.mp canonical).1

theorem canonical_ofAtom {a : Atom} (canonical : a.Canonical max) :
    (Poly.ofAtom a).Canonical max := by
  refine canonical_poly.mpr ⟨.ofAtom canonical, fun t member => ?_⟩
  rw [List.mem_singleton.mp member]
  exact irreducible_ofAtom (index_of_canonical canonical)

/-- Canonical polynomials are what arithmetic computes with. -/
theorem canonicalClass (max : Nat) : Poly.Class (Poly.Canonical max) where
  constant := canonical_constant
  add left right := by
    rw [canonical_poly] at left right ⊢
    exact ⟨left.1.add right.1, left.2.add right.2⟩
  scale canonical c := by
    rw [canonical_poly] at canonical ⊢
    exact ⟨canonical.1.scale c, canonical.2.scale c⟩
  mul left right := by
    obtain ⟨left, -⟩ := canonical_poly.mp left
    obtain ⟨right, -⟩ := canonical_poly.mp right
    have product := Valuation.mul_ensures (canonical_closed max).lawful left right
    refine ((product.mono_error fun _ _ => trivial).and fun r ran =>
      (Poly.mulWith_yields fun s first t second k combined =>
        combine_canonical (left.all s first) (right.all t second) combined).of_ok ran).mono ?_
    rintro r ⟨⟨final, -⟩, irreducible⟩
    exact canonical_poly.mpr ⟨final, irreducible⟩
  conjugator canonical found := by
    obtain ⟨admitted, irreducible⟩ := canonical_poly.mp canonical
    refine canonical_poly.mpr ⟨Valuation.conjugator_admitted admitted found, ?_⟩
    unfold Fraction.conjugator
    split
    · exact (canonical_poly.mp (canonical_ofAtom (Valuation.firstSurd_known admitted found))).2
    · exact irreducible.conjugate _
  common canonical divisor invertible := by
    obtain ⟨admitted, -⟩ := canonical_poly.mp divisor
    exact shift_canonical canonical (admitted.commonMonomial.reciprocal invertible fun _ _ => trivial)
  single canonical divisor invertible := by
    obtain ⟨admitted, -⟩ := canonical_poly.mp divisor
    exact shift_canonical canonical
      ((admitted.all _ List.mem_cons_self).reciprocal invertible fun _ _ => trivial)

end Vocabulary

end Discharge
