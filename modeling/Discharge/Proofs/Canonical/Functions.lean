import Mathlib
import Discharge.Proofs.Canonical.Form

/-! The canonical form of an expression is canonical: every operation gives
canonical forms, and where it makes a new atom, it is the operation of that atom
on its arguments. -/

namespace Discharge

open Fraction (Belongs Finished)
open Vocabulary (canonicalClass canonical_poly canonical_closed canonical_ofAtom)

variable {max : Nat} {r s : Fraction} {p num den : Poly} {a : Atom}

/-! ## Arithmetic -/

namespace Fraction

theorem canonical_iff :
    r.Canonical max ↔ Belongs (Poly.Canonical max) r ∧ r.Finished := by
  obtain ⟨num, den⟩ := r
  rw [Canonical]
  constructor
  · rintro ⟨top, bottom, finished⟩
    exact ⟨⟨top, bottom⟩, finished⟩
  · rintro ⟨⟨top, bottom⟩, finished⟩
    exact ⟨top, bottom, finished⟩

namespace Canonical

theorem belongs (canonical : r.Canonical max) : Belongs (Poly.Canonical max) r :=
  (canonical_iff.mp canonical).1

theorem finished (canonical : r.Canonical max) : r.Finished := (canonical_iff.mp canonical).2

theorem of_poly (canonical : p.Canonical max) : (ofPoly p).Canonical max :=
  canonical_iff.mpr ⟨(canonicalClass max).ofPoly canonical, finished_ofPoly p⟩

theorem of_atom (canonical : a.Canonical max) : (ofAtom a).Canonical max :=
  of_poly (canonical_ofAtom canonical)

theorem constant (q : Rat) : (constant q).Canonical max :=
  of_poly (Vocabulary.canonical_constant q)

theorem neg (canonical : r.Canonical max) : r.neg.Canonical max :=
  canonical_iff.mpr ⟨(canonicalClass max).neg canonical.belongs, canonical.finished.neg⟩

/-- What belongs to canonical forms and is finished. -/
theorem both {x : Outcome Fraction} (belongs : Yields x (Belongs (Poly.Canonical max)))
    (finished : Yields x Finished) : Yields x (Canonical max) :=
  (belongs.and fun _ ran => finished.of_ok ran).mono fun _ holds => canonical_iff.mpr holds

theorem add (left : r.Canonical max) (right : s.Canonical max) :
    Yields (r.add s) (Canonical max) :=
  both ((canonicalClass max).sum left.belongs right.belongs) (sum_finished r s)

theorem sub (left : r.Canonical max) (right : s.Canonical max) :
    Yields (r.sub s) (Canonical max) := left.add right.neg

theorem mul (left : r.Canonical max) (right : s.Canonical max) :
    Yields (r.mul s) (Canonical max) :=
  both ((canonicalClass max).product left.belongs right.belongs) (product_finished r s)

theorem div (left : r.Canonical max) (right : s.Canonical max) :
    Yields (r.div s) (Canonical max) :=
  both ((canonicalClass max).quotient left.belongs right.belongs) (quotient_finished r s)

theorem powInt (canonical : r.Canonical max) (n : Int) (limit : Nat) :
    Yields (r.powInt n limit) (Canonical max) :=
  both ((canonicalClass max).power canonical.belongs n limit) (power_finished r n limit)

end Canonical

end Fraction

/-! ## Roots -/

namespace Poly

theorem mem_setCounts (ns : List Nat) {k : Nat} {fs : List (Atom × Int)} :
    ∀ f ∈ ns.foldl (fun fs n => Monomial.setCount (.root (constant (n : Nat)) k) 1 fs) fs,
      f ∈ fs ∨ ∃ n ∈ ns, f = (.root (constant (n : Nat)) k, 1) := by
  induction ns generalizing fs with
  | nil => exact fun f member => .inl member
  | cons n ns ih =>
    intro f member
    rcases ih f member with old | ⟨m, later, rfl⟩
    · rcases Monomial.mem_setCount old with rfl | before
      · exact .inr ⟨n, List.mem_cons_self, rfl⟩
      · exact .inl before
    · exact .inr ⟨m, List.mem_cons_of_mem n later, rfl⟩

theorem irreducible_ones {fs : List (Atom × Int)}
    (each : ∀ f ∈ fs, f.2 = 1 ∧ ∀ p k, f.1 = .root p k → 2 ≤ k) :
    (⟨fs, .zero⟩ : Monomial).Irreducible := by
  have single : ∀ f ∈ fs, (⟨[(f.1, f.2)], .zero⟩ : Monomial).Irreducible := by
    intro f member
    obtain ⟨one, proper⟩ := each f member
    rw [one]
    exact Vocabulary.irreducible_ofAtom proper
  refine ⟨fun f member => ?_, fun f member => ?_, fun f member => ?_, rfl⟩
  · exact (single f member).nonzero _ List.mem_cons_self
  · exact (single f member).settled _ List.mem_cons_self
  · exact (single f member).below _ List.mem_cons_self

theorem positiveRadical_canonical {k : Nat} (proper : 2 ≤ k) (fits : fitsInt64 k = true) {q : Rat}
    (positive : 0 < q) : (positiveRadical q k).Canonical max := by
  have radicand := Radical.radicand_pos positive k
  have roots : ∀ n ∈ (Radical.integerRoot (q.num.natAbs * Nat.pow q.den (k - 1)) k).2,
      (Vocabulary.canonical max).known (.root (constant (n : Nat)) k) := fun n member =>
    Vocabulary.root_canonical proper fits
      (zero_lt_one.trans ((Radical.integerRoot_split k radicand).2.2 n member))
      (Radical.integerRoot_radicand proper radicand n member)
  have admitted := (Valuation.integerRadical_value (v := (Vocabulary.canonical max).valuation)
    radicand roots).1
  refine canonical_poly.mpr ⟨admitted.scale _, ?_⟩
  unfold positiveRadical integerRadical
  refine .scale (.term (irreducible_ones fun f member => ?_) _) _
  obtain ⟨n, -, rfl⟩ := (mem_setCounts _ f member).resolve_left List.not_mem_nil
  refine ⟨rfl, fun p j same => ?_⟩
  rw [← (Atom.root.inj same).2]
  exact proper

theorem rationalRadical_canonical {k : Nat} (proper : 2 ≤ k) (fits : fitsInt64 k = true)
    (q : Rat) : Yields (rationalRadical q k) (Poly.Canonical max) := by
  have root {q : Rat} (positive : 0 < q) : (positiveRadical q k).Canonical max :=
    positiveRadical_canonical proper fits positive
  unfold rationalRadical
  split
  · exact (canonicalClass max).zero
  rename_i nonzero
  split
  · rename_i negative
    have positive := neg_pos.mpr negative
    split
    · exact (canonicalClass max).mul (root positive)
        (canonical_ofAtom (canonical_closed max).angles.imaginary)
    split
    · exact (canonicalClass max).scale (root positive) _
    · trivial
  · rename_i positive
    exact root (lt_of_le_of_ne (not_lt.mp positive) (Ne.symm nonzero))

end Poly

theorem Radical.integerRoot_one (k : Nat) : integerRoot 1 k = (1, []) := by
  have stops : trialDivision k divisionLimit 2 1 ⟨1, [], 1⟩ = (⟨1, [], 1⟩, 1) := by
    rw [show divisionLimit = 99999 + 1 from rfl, trialDivision, if_neg (by decide)]
  unfold integerRoot
  rw [stops]
  simp [Split.takeCofactor]

theorem Poly.rationalRadical_one (k : Nat) : rationalRadical 1 k = .ok .one := by
  have radicand : (1 : Rat).num.natAbs * Nat.pow (1 : Rat).den (k - 1) = 1 := by simp
  have positive : ¬ (1 : Rat) < 0 := by norm_num
  rw [rationalRadical, if_neg one_ne_zero, if_neg positive, positiveRadical, radicand,
    integerRadical, Radical.integerRoot_one]
  exact congrArg Except.ok (scale_one _)

namespace Fraction

theorem ofAtom_mul_one (proper : ∀ p k, a = .root p k → 2 ≤ k) :
    one.mul (ofAtom a) = .ok (ofAtom a) := by
  have irreducible := Vocabulary.irreducible_ofAtom proper
  have product := mul_term (Monomial.one_combine ⟨[(a, 1)], .zero⟩) irreducible 1 1
  rwa [one_mul] at product

/-- The root of a polynomial of content one is an atom. -/
theorem root_ofPoly {k : Nat} (proper : 2 ≤ k) (symbolic : p.constant? = none)
    (primitive : p.content = 1) : (ofPoly p).root k = .ok (ofAtom (.root p k)) := by
  have whole : (ofPoly p).den.isOne = true := rfl
  unfold root
  rw [if_neg (by omega), if_neg (by omega), constant?, if_pos whole, ofPoly]
  dsimp only
  rw [symbolic]
  dsimp only
  rw [if_pos (by rfl)]
  change (Poly.rationalRadical p.content k >>= fun outside => _) = _
  rw [primitive, Poly.rationalRadical_one]
  change ((ofPoly .one).mul (ofAtom (.root (p.scale 1⁻¹) k)) >>= fun root => _) = _
  have product := ofAtom_mul_one (a := .root p k) fun q j same => by
    rw [← (Atom.root.inj same).2]
    exact proper
  rw [inv_one, Poly.scale_one]
  change (one.mul (ofAtom (.root p k)) >>= fun root => _) = _
  rw [product]
  rfl

theorem nonzero_of_term {t : Monomial × Rat} {ts : List (Monomial × Rat)}
    (canonical : (Poly.mk (t :: ts)).Canonical max) : ∃ u ∈ (Poly.mk (t :: ts)).terms, u.2 ≠ 0 :=
  ⟨t, List.mem_cons_self, (canonical_poly.mp canonical).1.ordered.nonzero t List.mem_cons_self⟩

/-- A constant of content one is not above one. -/
theorem le_one_of_primitive {c : Rat} (constant : p.constant? = some c) (primitive : p.content = 1) :
    c ≤ 1 := by
  unfold Poly.constant? at constant
  split at constant
  · cases constant
    exact zero_le_one
  · rename_i d single
    cases constant
    obtain ⟨ts⟩ := p
    obtain rfl : ts = [(⟨[], ⟨[]⟩⟩, c)] := single
    by_cases zero : c = 0
    · rw [zero]
      exact zero_le_one
    · rw [Poly.content_single _ zero] at primitive
      exact (le_abs_self c).trans_eq primitive
  · cases constant

/-- A polynomial without its content is a radicand. -/
theorem radicand_canonical {k : Nat} (proper : 2 ≤ k) (fits : fitsInt64 k = true)
    {lifted : Poly} (canonical : lifted.Canonical max) :
    Atom.Canonical max (.root (lifted.scale lifted.content⁻¹) k) := by
  have positive := lifted.content_pos
  have inverse := inv_ne_zero positive.ne'
  rw [Atom.Canonical]
  refine ⟨proper, fits, (canonicalClass max).scale canonical _, fun above => ?_⟩
  obtain ⟨ts⟩ := lifted
  cases ts with
  | nil =>
    have zero : ((Poly.mk []).scale (Poly.mk []).content⁻¹).constant? = some 0 := by
      rw [Poly.scale, if_neg inverse]
      rfl
    exact absurd (above 0 zero) (by norm_num)
  | cons t ts =>
    have primitive : ((Poly.mk (t :: ts)).scale (Poly.mk (t :: ts)).content⁻¹).content = 1 := by
      rw [Poly.content_scale (nonzero_of_term canonical) inverse, abs_of_pos (inv_pos.mpr positive),
        mul_inv_cancel₀ positive.ne']
    refine root_ofPoly proper ?_ primitive
    refine Option.eq_none_iff_forall_ne_some.mpr fun c constant => ?_
    exact absurd (above c constant) (not_lt.mpr (le_one_of_primitive constant primitive))

/-- The root of a radicand, with the root of its content in front. -/
theorem contentRoot_canonical {k : Nat} (proper : 2 ≤ k) (fits : fitsInt64 k = true)
    {lifted outside : Poly} (canonical : lifted.Canonical max)
    (ran : Poly.rationalRadical lifted.content k = .ok outside) :
    Yields ((ofPoly outside).mul (ofAtom (.root (lifted.scale lifted.content⁻¹) k)))
      (Canonical max) := by
  have first : outside.Canonical max := (Poly.rationalRadical_canonical proper fits _).of_ok ran
  exact (Canonical.of_poly first).mul (.of_atom (radicand_canonical proper fits canonical))

theorem Canonical.root (canonical : r.Canonical max) {k : Nat} (fits : fitsInt64 k = true) :
    Yields (r.root k) (Canonical max) := by
  unfold Fraction.root
  dsimp only
  split
  · trivial
  split
  · exact canonical
  have proper : 2 ≤ k := by omega
  split
  · have constant (q : Rat) : Yields (Poly.rationalRadical q k) (Poly.Canonical max) :=
      Poly.rationalRadical_canonical proper fits q
    exact .bind (constant _) fun p root => .of_poly root
  split
  · change Yields (Poly.rationalRadical r.num.content k >>= fun outside => _) _
    refine Yields.bind_ok fun outside ran => ?_
    exact .bind (contentRoot_canonical proper fits canonical.belongs.num ran) fun t root => root
  · -- The denominator is moved into the radicand and divided by afterwards.
    refine .bind ((canonicalClass max).pow canonical.belongs.den (k - 1)) fun below raised => ?_
    refine .bind ((canonicalClass max).mul canonical.belongs.num raised) fun lifted product => ?_
    refine Yields.bind_ok fun outside ran => ?_
    refine .bind (contentRoot_canonical proper fits product ran) fun t root => ?_
    exact root.div (.of_poly canonical.belongs.den)

theorem Canonical.powRat (canonical : r.Canonical max) (q : Rat) (fits : fitsInt64 max = true) :
    Yields (r.powRat q max) (Canonical max) := by
  unfold Fraction.powRat
  dsimp only
  split
  · split
    · trivial
    · exact canonical.powInt _ _
  split
  · trivial
  rename_i bounded
  split
  · trivial
  split
  · trivial
  have index : fitsInt64 (q - q.floor).den = true := by
    rw [Monomial.fitsInt64_iff] at fits ⊢
    omega
  refine .bind (canonical.root index) fun root first => ?_
  refine .bind (first.powInt _ _) fun fractional second => ?_
  exact .bind (canonical.powInt _ _) fun whole third => second.mul third

/-! ## Exponentials -/

theorem logarithm_canonical (canonical : p.Canonical max) :
    ∀ l ∈ p.terms.filterMap logarithm?, l.1.Canonical max := by
  intro l member
  obtain ⟨t, term, found⟩ := List.mem_filterMap.mp member
  have factors := ((canonical_poly.mp canonical).1.all t term).factor
  unfold logarithm? at found
  split at found
  · rename_i argument c
    split at found
    · cases found
      have known : Atom.Canonical max (.ln argument) := (factors _ List.mem_cons_self).known
      rw [Atom.Canonical] at known
      exact known.1
    · cases found
  · cases found

theorem takeLogarithms_canonical (ls : List (Fraction × Int)) (canonical : r.Canonical max)
    (each : ∀ l ∈ ls, l.1.Canonical max) :
    Yields (takeLogarithms max r ls) (Canonical max) := by
  induction ls generalizing r with
  | nil => exact canonical
  | cons l ls ih =>
    obtain ⟨argument, n⟩ := l
    obtain ⟨head, tail⟩ := List.forall_mem_cons.mp each
    unfold takeLogarithms
    dsimp only
    split
    · trivial
    refine .bind (head.powInt n max) fun power raised => ?_
    exact .bind (canonical.mul raised) fun product multiplied => ih multiplied tail

/-- Some of the terms of a canonical polynomial may stand in an exponent. -/
theorem exponential_admitted (canonical : p.Canonical max) {ts : List (Monomial × Rat)}
    (part : ts.Sublist p.terms) :
    (Vocabulary.canonical max).valuation.Admits (.exponential ⟨ts⟩) := by
  obtain ⟨⟨ordered, admitted⟩, irreducible⟩ := canonical_poly.mp canonical
  refine ⟨.nil, fun _ member => absurd member List.not_mem_nil, ?_, .inr trivial, ?_⟩
  · exact ⟨ordered.increasing.sublist part, fun t member => ordered.nonzero t (part.subset member)⟩
  · exact fun t member => Vocabulary.canonical_monomial.mpr
      ⟨admitted t (part.subset member), irreducible t (part.subset member)⟩

theorem exp_eq_atom (proper : r.isZero = false) (quotient : r.den.isOne = false) :
    r.exp max = .ok (ofAtom (.exp r)) := by
  unfold exp
  rw [if_neg (by rw [proper]; decide), if_pos (by rw [quotient]; rfl)]
  rfl

theorem Canonical.exp (canonical : r.Canonical max) : Yields (r.exp max) (Canonical max) := by
  cases zero : r.isZero with
  | true =>
    unfold Fraction.exp
    rw [if_pos zero]
    exact .constant 1
  | false =>
    cases one : r.den.isOne with
    | false =>
      have atom : r.exp max = _ := exp_eq_atom zero one
      rw [atom]
      refine .of_atom ?_
      rw [Atom.Canonical]
      exact ⟨canonical, atom⟩
    | true =>
      unfold Fraction.exp
      rw [if_neg (by rw [zero]; decide), if_neg (by rw [one]; decide)]
      refine .bind (takeLogarithms_canonical _ (.constant 1)
        (logarithm_canonical canonical.belongs.num)) fun t taken => ?_
      refine .bind (Vocabulary.reduce_canonical
        (exponential_admitted canonical.belongs.num List.filter_sublist)) fun q reduced => ?_
      exact taken.mul (.of_poly reduced)

/-! ## Logarithms -/

theorem constant_ne_zero (canonical : r.Canonical max) (proper : r.isZero = false) {q : Rat}
    (constant : r.constant? = some q) : q ≠ 0 := by
  rintro rfl
  have num : r.num.constant? = some 0 := by
    unfold constant? at constant
    split at constant
    · exact constant
    · cases constant
  have ordered := (canonical_poly.mp canonical.belongs.num).1.ordered
  unfold isZero at proper
  unfold Poly.constant? at num
  split at num
  · rename_i empty
    rw [Poly.isZero, empty] at proper
    cases proper
  · rename_i c single
    cases num
    exact ordered.nonzero _ (single ▸ List.mem_singleton.mpr rfl) rfl
  · cases num

theorem lnPositive_canonical {q : Rat} (positive : 0 < q) : (lnPositive q).Canonical max := by
  unfold lnPositive
  split
  · exact .constant 0
  rename_i other
  refine .of_atom ?_
  rw [Atom.Canonical]
  refine ⟨.constant q, ?_⟩
  have nonzero : Fraction.constant q = ⟨⟨[(.one, q)]⟩, .one⟩ :=
    congrArg ofPoly (Poly.term_of_ne_zero positive.ne')
  have unfolded : (Fraction.constant q).ln = lnConstant q := by
    rw [nonzero]
    rfl
  rw [unfolded, lnConstant, if_neg positive.not_gt, lnPositive, if_neg other]

theorem halfTurn_canonical : (ofPoly (.term Monomial.halfTurn 1)).Canonical max := by
  refine .of_poly (canonical_poly.mpr ⟨.term ⟨?_, fun f member => ?_, .zero, .inl rfl, .zero⟩ 1,
    .term ?_ 1⟩)
  · exact List.pairwise_pair.mpr (by simp [Atom.compare, Atom.kind, compareInt])
  · rcases List.mem_pair.mp member with rfl | rfl
    · refine ⟨one_ne_zero, rfl, ?_, fun negative => absurd negative (by decide)⟩
      change Atom.Canonical max .pi
      rw [Atom.Canonical]
      trivial
    · exact ⟨one_ne_zero, rfl, (canonical_closed max).angles.imaginary,
        fun negative => absurd negative (by decide)⟩
  · refine Poly.irreducible_ones fun f member => ?_
    rcases List.mem_pair.mp member with rfl | rfl
    · exact ⟨rfl, fun _ _ root => by cases root⟩
    · exact ⟨rfl, fun _ _ root => by cases root⟩

theorem lnPlain_canonical (canonical : r.Canonical max) (proper : r.isZero = false)
    (plain : r.realExponential? = none) : Yields r.lnPlain (Canonical max) := by
  unfold lnPlain
  split
  · rename_i q constant
    have nonzero := constant_ne_zero canonical proper constant
    unfold lnConstant
    split
    · rename_i negative
      exact (lnPositive_canonical (neg_pos.mpr negative)).add halfTurn_canonical
    · exact lnPositive_canonical (lt_of_le_of_ne (not_lt.mp ‹_›) nonzero.symm)
  · rename_i symbolic
    refine .of_atom ?_
    rw [Atom.Canonical]
    refine ⟨canonical, ?_⟩
    unfold ln
    rw [if_neg (by rw [proper]; decide), plain]
    dsimp only
    rw [lnPlain, symbolic]

/-- Taking the exponential out of a single term. -/
theorem realExponential_canonical {rest : Fraction} {exponent : Poly} (canonical : r.Canonical max)
    (found : r.realExponential? = some (rest, exponent)) :
    rest.Canonical max ∧ rest.isZero = false ∧ rest.realExponential? = none ∧
      exponent.Canonical max := by
  unfold realExponential? at found
  split at found
  · rename_i m c one single
    split at found
    · cases found
      have terms := Valuation.singleTerm_eq single
      have member : (m, c) ∈ r.num.terms := by
        rw [terms]
        exact List.mem_singleton.mpr rfl
      obtain ⟨⟨ordered, admitted⟩, irreducible⟩ := canonical_poly.mp canonical.belongs.num
      have term := irreducible _ member
      have nonzero : c ≠ 0 := ordered.nonzero _ member
      have inside := admitted _ member
      refine ⟨.of_poly (canonical_poly.mpr ⟨.term ?_ c, .term ?_ c⟩), ?_, ?_, ?_⟩
      · exact ⟨inside.increasing, inside.factor, .zero, .inl rfl, .zero⟩
      · exact ⟨term.nonzero, term.settled, term.below, rfl⟩
      · rw [Poly.term_of_ne_zero nonzero]
        rfl
      · rw [Poly.term_of_ne_zero nonzero]
        rfl
      · refine canonical_poly.mpr ⟨⟨inside.exponent, fun t member => ?_⟩, fun t member => ?_⟩
        · exact (Vocabulary.canonical_monomial.mp (inside.inner t member)).1
        · exact (Vocabulary.canonical_monomial.mp (inside.inner t member)).2
    · cases found
  · cases found

theorem Canonical.ln (canonical : r.Canonical max) : Yields r.ln (Canonical max) := by
  unfold Fraction.ln
  cases proper : r.isZero with
  | true => trivial
  | false =>
    rw [if_neg (by decide)]
    split
    · rename_i rest exponent found
      obtain ⟨first, nonzero, plain, second⟩ := realExponential_canonical canonical found
      exact .bind (lnPlain_canonical first nonzero plain) fun t logarithm =>
        logarithm.add (.of_poly second)
    · rename_i plain
      exact lnPlain_canonical canonical proper plain

/-! ## Symbolic powers -/

/-- The unit is positive or negative as the first coefficient is. -/
theorem exponentUnit_eq (p : Poly) : ∃ w : Int, 0 < w ∧
    (exponentUnit p : Rat) = (if p.leading?.getD 1 < 0 then -1 else 1) * w ∧
    (p.content.den = 1 ∧ (w : Rat) = p.content ∨ p.content.den ≠ 1 ∧ w = 1) := by
  have positive : 0 < p.content.num := Rat.num_pos.mpr p.content_pos
  unfold exponentUnit
  dsimp only
  by_cases whole : p.content.den = 1
  · refine ⟨p.content.num, positive, ?_, .inl ⟨whole, Rat.coe_int_num_of_den_eq_one whole⟩⟩
    rw [if_pos whole]
    split <;> push_cast <;> ring
  · refine ⟨1, one_pos, ?_, .inr ⟨whole, rfl⟩⟩
    rw [if_neg whole]
    split <;> push_cast <;> ring

theorem exponentUnit_ne_zero (p : Poly) : exponentUnit p ≠ 0 := by
  obtain ⟨w, positive, same, -⟩ := exponentUnit_eq p
  have proper : (w : Rat) ≠ 0 := Int.cast_ne_zero.mpr positive.ne'
  have unit : (exponentUnit p : Rat) ≠ 0 := by
    rw [same]
    split
    · simpa using proper
    · simpa using proper
  exact Int.cast_ne_zero.mp unit

/-- An exponent without its unit has the unit one. -/
theorem exponentUnit_scale (nonzero : ∃ t ∈ p.terms, t.2 ≠ 0) :
    exponentUnit (p.scale (exponentUnit p : Rat)⁻¹) = 1 := by
  have inverse : ((exponentUnit p : Rat))⁻¹ ≠ 0 :=
    inv_ne_zero (Int.cast_ne_zero.mpr (exponentUnit_ne_zero p))
  have content := Poly.content_scale nonzero inverse
  obtain ⟨w, positive, same, size⟩ := exponentUnit_eq p
  have above : (0 : Rat) < w := Int.cast_pos.mpr positive
  have absolute : |((exponentUnit p : Rat))⁻¹| = (w : Rat)⁻¹ := by
    rw [same]
    split
    · rw [neg_one_mul, inv_neg, abs_neg, abs_of_pos (inv_pos.mpr above)]
    · rw [one_mul, abs_of_pos (inv_pos.mpr above)]
  rw [absolute] at content
  -- The first coefficient is no longer negative.
  have leading : ¬ (p.scale (exponentUnit p : Rat)⁻¹).leading?.getD 1 < 0 := by
    obtain ⟨ts⟩ := p
    cases ts with
    | nil =>
      obtain ⟨t, member, -⟩ := nonzero
      cases member
    | cons t ts =>
      have first : ((Poly.mk (t :: ts)).scale (exponentUnit ⟨t :: ts⟩ : Rat)⁻¹).leading?.getD 1 =
          t.2 * (exponentUnit ⟨t :: ts⟩ : Rat)⁻¹ := by
        rw [Poly.leading?, Poly.terms_scale inverse]
        rfl
      have old : (Poly.mk (t :: ts)).leading?.getD 1 = t.2 := rfl
      rw [first, same, old, not_lt]
      split
      · rename_i negative
        rw [neg_one_mul, inv_neg]
        exact (mul_pos_of_neg_of_neg negative (neg_neg_of_pos (inv_pos.mpr above))).le
      · rename_i negative
        rw [one_mul]
        exact mul_nonneg (not_lt.mp negative) (inv_pos.mpr above).le
  unfold exponentUnit at leading ⊢
  dsimp only at leading ⊢
  rw [if_neg leading]
  rcases size with ⟨-, whole⟩ | ⟨whole, rfl⟩
  · have one : (p.scale (exponentUnit p : Rat)⁻¹).content = 1 := by
      rw [content, whole, mul_inv_cancel₀ p.content_pos.ne']
    unfold exponentUnit at one
    dsimp only at one
    rw [one]
    rfl
  · have kept : (p.scale (exponentUnit p : Rat)⁻¹).content = p.content := by
      rw [content, Int.cast_one, inv_one, mul_one]
    unfold exponentUnit at kept
    dsimp only at kept
    rw [kept, if_neg whole]

/-- A power with a polynomial exponent without constant term and unit. -/
theorem powPoly_eq_atom (proper : ∀ t ∈ p.terms, t.1 ≠ .one) (unit : exponentUnit p = 1) :
    r.powPoly p max = .ok (ofAtom (.power r (ofPoly p))) := by
  have none : (p.coefficient? .one).getD 0 = 0 := by
    have missing : p.coefficient? .one = none := by
      refine List.lookup_eq_none_iff.mpr fun t member => ?_
      exact bne_iff_ne.mpr (proper t member).symm
    rw [missing]
    rfl
  have all : p.erase .one = p := by
    obtain ⟨ts⟩ := p
    refine congrArg Poly.mk (List.filter_eq_self.mpr fun t member => ?_)
    exact decide_eq_true (proper t member)
  have atom : (Monomial.ofAtom (.power r (ofPoly p)) 1).reduce =
      .ok (.ofAtom (.power r (ofPoly p))) :=
    Monomial.reduce_irreducible (Vocabulary.irreducible_ofAtom nofun)
  unfold powPoly
  dsimp only
  rw [none, all, unit, if_neg (by decide), Int.cast_one, inv_one, Poly.scale_one, atom]
  rfl

theorem constant_ofPoly (p : Poly) : (ofPoly p).constant? = p.constant? := rfl

theorem pow_eq_powPoly (symbolic : s.constant? = none) (proper : r.isZero = false)
    (other : r.isOne = false) (plain : r.pureExponential? = none) (whole : s.den.isOne = true) :
    r.pow s max = r.powPoly s.num max := by
  unfold pow
  rw [symbolic, proper, other, plain, whole]
  rfl

theorem pow_eq_atom (symbolic : s.constant? = none) (proper : r.isZero = false)
    (other : r.isOne = false) (plain : r.pureExponential? = none) (quotient : s.den.isOne = false) :
    r.pow s max = .ok (ofAtom (.power r s)) := by
  unfold pow
  rw [symbolic, proper, other, plain, quotient]
  rfl

/-- The integer power in front of a power with a polynomial exponent. -/
theorem unitPower_canonical (canonical : r.Canonical max) (exponent : p.Canonical max)
    (symbolic : p.constant? = none) (proper : r.isZero = false) (other : r.isOne = false)
    (plain : r.pureExponential? = none) (bounded : fitsInt64 (exponentUnit (p.erase .one)) = true) :
    Yields (Monomial.ofAtom
      (.power r (ofPoly ((p.erase .one).scale (exponentUnit (p.erase .one) : Rat)⁻¹)))
      (exponentUnit (p.erase .one))).reduce (Poly.Canonical max) := by
  have unit := exponentUnit_ne_zero (p.erase .one)
  have inverse : ((exponentUnit (p.erase .one) : Rat))⁻¹ ≠ 0 := inv_ne_zero (Int.cast_ne_zero.mpr unit)
  obtain ⟨⟨ordered, admitted⟩, irreducible⟩ := canonical_poly.mp exponent
  have rest : (p.erase .one).Canonical max := canonical_poly.mpr
    ⟨⟨ordered.erase _, fun t member => admitted t (List.mem_filter.mp member).1⟩,
      fun t member => irreducible t (List.mem_filter.mp member).1⟩
  have primitive := (canonicalClass max).scale rest (exponentUnit (p.erase .one) : Rat)⁻¹
  have symbolic := Valuation.constant_symbolic ordered symbolic inverse
  rw [← constant_ofPoly] at symbolic
  have nonzero : ∃ t ∈ (p.erase .one).terms, t.2 ≠ 0 := by
    generalize p.erase .one = q at rest symbolic inverse
    obtain ⟨ts⟩ := q
    cases ts with
    | nil =>
      rw [constant_ofPoly, Poly.scale, if_neg inverse] at symbolic
      cases symbolic
    | cons t ts => exact nonzero_of_term rest
  have atom : Atom.Canonical max
      (.power r (ofPoly ((p.erase .one).scale (exponentUnit (p.erase .one) : Rat)⁻¹))) := by
    rw [Atom.Canonical]
    refine ⟨canonical, .of_poly primitive, ?_⟩
    rw [pow_eq_powPoly symbolic proper other plain rfl]
    refine powPoly_eq_atom (fun t member => ?_) (exponentUnit_scale nonzero)
    dsimp only [ofPoly] at member
    rw [Poly.terms_scale inverse] at member
    obtain ⟨u, old, rfl⟩ := List.mem_map.mp member
    exact of_decide_eq_true (List.mem_filter.mp old).2
  refine Vocabulary.reduce_canonical ?_
  rw [Monomial.ofAtom, if_neg unit]
  refine ⟨List.pairwise_singleton _ _, fun f member => ?_, .zero, .inl rfl, .zero⟩
  rw [List.mem_singleton.mp member]
  exact ⟨unit, bounded, atom, fun _ => trivial⟩

theorem Canonical.powPoly (canonical : r.Canonical max) (exponent : p.Canonical max)
    (fits : fitsInt64 max = true) (symbolic : p.constant? = none) (proper : r.isZero = false)
    (other : r.isOne = false) (plain : r.pureExponential? = none) :
    Yields (r.powPoly p max) (Canonical max) := by
  unfold Fraction.powPoly
  dsimp only
  split
  · trivial
  rename_i bounded
  refine .bind (unitPower_canonical canonical exponent symbolic proper other plain
    (by simpa using bounded)) fun power raised => ?_
  split
  · exact .of_poly raised
  · exact .bind (canonical.powRat _ fits) fun t second => (Canonical.of_poly raised).mul second

theorem pureExponential_canonical {exponent : Poly} (canonical : r.Canonical max)
    (found : r.pureExponential? = some exponent) : exponent.Canonical max := by
  unfold pureExponential? at found
  split at found
  · rename_i e c one single
    split at found
    · cases found
      have member : (⟨[], exponent⟩, c) ∈ r.num.terms := by
        rw [Valuation.singleTerm_eq single]
        exact List.mem_singleton.mpr rfl
      have inside := (canonical_poly.mp canonical.belongs.num).1.all _ member
      refine canonical_poly.mpr ⟨⟨inside.exponent, fun t member => ?_⟩, fun t member => ?_⟩
      · exact (Vocabulary.canonical_monomial.mp (inside.inner t member)).1
      · exact (Vocabulary.canonical_monomial.mp (inside.inner t member)).2
    · cases found
  · cases found

theorem Canonical.pow (left : r.Canonical max) (right : s.Canonical max)
    (fits : fitsInt64 max = true) : Yields (r.pow s max) (Canonical max) := by
  cases constant : s.constant? with
  | some q =>
    unfold Fraction.pow
    rw [constant]
    exact left.powRat q fits
  | none =>
    cases trivialBase : r.isZero || r.isOne with
    | true =>
      unfold Fraction.pow
      rw [constant, trivialBase]
      exact left
    | false =>
      obtain ⟨proper, other⟩ := Bool.or_eq_false_iff.mp trivialBase
      cases plain : r.pureExponential? with
      | some e =>
        unfold Fraction.pow
        rw [constant, trivialBase, plain]
        exact .bind ((Canonical.of_poly (pureExponential_canonical left plain)).mul right)
          fun t product => product.exp
      | none =>
        cases whole : s.den.isOne with
        | true =>
          rw [pow_eq_powPoly constant proper other plain whole]
          refine left.powPoly right.belongs.num fits ?_ proper other plain
          rwa [constant?, if_pos whole] at constant
        | false =>
          have atom : r.pow s max = _ := pow_eq_atom constant proper other plain whole
          rw [atom]
          refine .of_atom ?_
          rw [Atom.Canonical]
          exact ⟨left, right, atom⟩

/-! ## Functions -/

theorem half_canonical : half.Canonical max := .constant _

theorem imaginary_canonical : imaginary.Canonical max :=
  .of_atom (canonical_closed max).angles.imaginary

theorem Canonical.sin (canonical : r.Canonical max) : Yields (r.sin max) (Canonical max) := by
  refine .bind (imaginary_canonical.mul canonical) fun turned around => ?_
  refine .bind around.exp fun up first => .bind around.neg.exp fun down second => ?_
  refine .bind (first.sub second) fun diff third => ?_
  exact .bind (third.mul imaginary_canonical.neg) fun t fourth => fourth.mul half_canonical

theorem Canonical.cos (canonical : r.Canonical max) : Yields (r.cos max) (Canonical max) := by
  refine .bind (imaginary_canonical.mul canonical) fun turned around => ?_
  refine .bind around.exp fun up first => .bind around.neg.exp fun down second => ?_
  exact .bind (first.add second) fun t third => third.mul half_canonical

theorem Canonical.apply (f : Function) (canonical : r.Canonical max) :
    Yields (r.apply f max) (Canonical max) := by
  cases f with
  | exp => exact canonical.exp
  | ln => exact canonical.ln
  | sqrt => exact canonical.root (k := 2) rfl
  | sin => exact canonical.sin
  | cos => exact canonical.cos
  | tan =>
    refine .bind canonical.sin fun s first => .bind canonical.cos fun c second => ?_
    dsimp only
    split
    · trivial
    · exact first.div second
  | sinh =>
    refine .bind canonical.exp fun up first => .bind canonical.neg.exp fun down second => ?_
    exact .bind (first.sub second) fun t third => third.mul half_canonical
  | cosh =>
    refine .bind canonical.exp fun up first => .bind canonical.neg.exp fun down second => ?_
    exact .bind (first.add second) fun t third => third.mul half_canonical

/-! ## Expressions -/

mutual
/-- The canonical form of an expression is canonical. -/
theorem ofExpr_canonical (fits : fitsInt64 max = true) :
    ∀ e, Yields (ofExpr max e) (Canonical max)
  | .number q => by
    rw [ofExpr]
    exact Canonical.constant q
  | .symbol s => by
    rw [ofExpr]
    refine Canonical.of_atom ?_
    rw [Atom.Canonical]
    trivial
  | .constant .pi => by
    rw [ofExpr]
    refine Canonical.of_atom ?_
    rw [Atom.Canonical]
    trivial
  | .constant .imaginary => by
    rw [ofExpr]
    exact imaginary_canonical
  | .constant .euler => by
    rw [ofExpr]
    refine Canonical.of_poly (canonical_poly.mpr ⟨.term
      (exponential_admitted (canonicalClass max).one (List.Sublist.refl _)) 1, .term ?_ 1⟩)
    have none : Poly.one.coefficient? Monomial.halfTurn = none := by decide_cbv
    refine ⟨by simp [Monomial.exponential], by simp [Monomial.exponential],
      by simp [Monomial.exponential], ?_⟩
    rw [Monomial.exponential, none]
    rfl
  | .sum xs => by
    rw [ofExpr]
    exact ofSum_canonical fits xs (.constant 0)
  | .product xs => by
    rw [ofExpr]
    exact ofProduct_canonical fits xs (.constant 1)
  | .power b e => by
    rw [ofExpr]
    exact .bind (ofExpr_canonical fits b) fun r left =>
      .bind (ofExpr_canonical fits e) fun s right => left.pow right fits
  | .apply f x => by
    rw [ofExpr]
    exact .bind (ofExpr_canonical fits x) fun r canonical => canonical.apply f

theorem ofSum_canonical (fits : fitsInt64 max = true) {total : Fraction} :
    ∀ xs, total.Canonical max → Yields (ofSum max total xs) (Canonical max)
  | [], canonical => by
    rw [ofSum]
    exact canonical
  | x :: xs, canonical => by
    rw [ofSum]
    refine .bind (ofExpr_canonical fits x) fun r first => ?_
    exact .bind (canonical.add first) fun t next => ofSum_canonical fits xs next

theorem ofProduct_canonical (fits : fitsInt64 max = true) {total : Fraction} :
    ∀ xs, total.Canonical max → Yields (ofProduct max total xs) (Canonical max)
  | [], canonical => by
    rw [ofProduct]
    exact canonical
  | x :: xs, canonical => by
    rw [ofProduct]
    refine .bind (ofExpr_canonical fits x) fun r first => ?_
    exact .bind (canonical.mul first) fun t next => ofProduct_canonical fits xs next
end

end Fraction

end Discharge
