import Discharge.Proofs.Canonical.Tree

/-! Simplification twice. The tree of a canonical form has that form again, as long
as no logarithm is left in an exponent with an integer factor, no root is left of
a number that has none, and no denominator asks for another round. It is found
again exactly if what the tree shows is within the guards: the first round may
reach exponents and lengths that the second one refuses. -/

namespace Discharge

/-! ## Stable forms -/

mutual
/-- The atom has nothing inside that a second round takes out. -/
def Atom.isStable : Atom → Bool
  | .symbol _ | .pi | .imaginary => true
  | .root p _ => Poly.isStable p && p.constant?.all (1 < ·)
  | .ln r | .exp r => Fraction.isStable r
  | .power b e => Fraction.isStable b && Fraction.isStable e

/-- No integer multiple of a logarithm is left in the exponent. -/
def Monomial.isStable : Monomial → Bool
  | ⟨fs, e⟩ =>
    factorsStable fs && Poly.isStable e && e.terms.all fun t => (Fraction.logarithm? t).isNone

/-- All terms are stable. -/
def Poly.isStable : Poly → Bool
  | ⟨ts⟩ => termsStable ts

/-- The denominator is one, or has neither a surd nor a common monomial. -/
def Fraction.isStable : Fraction → Bool
  | ⟨num, den⟩ => Poly.isStable num && Poly.isStable den &&
    (den.isOne || !num.isZero && den.firstSurd?.isNone && den.commonMonomial.isOne)

/-- All factors are stable. -/
def factorsStable : List (Atom × Int) → Bool
  | [] => true
  | (a, _) :: fs => Atom.isStable a && factorsStable fs

/-- The monomials of all terms are stable. -/
def termsStable : List (Monomial × Rat) → Bool
  | [] => true
  | (m, _) :: ts => Monomial.isStable m && termsStable ts
end

/-! ## Forms within the guards -/

variable (max : Nat)

mutual
/-- The atom can be read from its tree: no exponent and no index of a root in it
is greater than `max`, apart from those that the tree leaves out. -/
def Atom.isWithin : Atom → Bool
  | .symbol _ | .pi | .imaginary => true
  | .root p k => Poly.isWithin p && (k == 2 || k ≤ max)
  | .ln r | .exp r => Fraction.isWithin r
  | .power b e => Fraction.isWithin b && Fraction.isWithin e

/-- The factors and the exponent are within the guards. -/
def Monomial.isWithin : Monomial → Bool
  | ⟨fs, e⟩ => factorsWithin fs && Poly.isWithin e

/-- All terms are within the guards. -/
def Poly.isWithin : Poly → Bool
  | ⟨ts⟩ => termsWithin ts

/-- Both sides are within the guards, and not too long to be multiplied by one
another unless the denominator is one. -/
def Fraction.isWithin : Fraction → Bool
  | ⟨num, den⟩ => Poly.isWithin num && (den.isOne ||
    Poly.isWithin den && !den.isZero && 1 ≤ max && num.terms.length ≤ maxTerms &&
      den.terms.length ≤ maxTerms)

/-- All factors and their exponents are within the guards. -/
def factorsWithin : List (Atom × Int) → Bool
  | [] => true
  | (a, n) :: fs => Atom.isWithin a && (n == 1 || n.natAbs ≤ max) && factorsWithin fs

/-- The monomials of all terms are within the guards. -/
def termsWithin : List (Monomial × Rat) → Bool
  | [] => true
  | (m, _) :: ts => Monomial.isWithin m && termsWithin ts
end

variable {max : Nat}

theorem factorsWithin_iff (fs : List (Atom × Int)) : factorsWithin max fs = true ↔
    ∀ f ∈ fs, f.1.isWithin max = true ∧ (f.2 = 1 ∨ f.2.natAbs ≤ max) := by
  induction fs with
  | nil => simp [factorsWithin]
  | cons f fs ih =>
    obtain ⟨a, n⟩ := f
    simp [factorsWithin, ih]

theorem termsWithin_iff (ts : List (Monomial × Rat)) :
    termsWithin max ts = true ↔ ∀ t ∈ ts, t.1.isWithin max = true := by
  induction ts with
  | nil => simp [termsWithin]
  | cons t ts ih => simp [termsWithin, ih]

/-! ## Trees of canonical forms -/

theorem Poly.Canonical.reduced {p : Poly} (canonical : p.Canonical max) : p.Reduced :=
  ⟨(Vocabulary.canonical_poly.mp canonical).1.ordered, (Vocabulary.canonical_poly.mp canonical).2⟩

/-- The denominator of a stable canonical form is one or zero, or it has at least two
terms, the first with coefficient one, and nothing to rationalise or to cancel. -/
inductive Fraction.Settled (r : Fraction) : Prop
  | one (one : r.den.isOne = true)
  | zero (zero : r.den = .zero)
  | several (length : 2 ≤ r.den.terms.length) (leading : r.den.leading? = some 1)
      (surdless : r.den.firstSurd? = none) (common : r.den.commonMonomial.isOne = true)
      (made : Fraction.make r.num r.den = .ok r)

theorem Fraction.settled {r : Fraction} (canonical : r.Canonical max) (stable : r.isStable = true) :
    r.Settled := by
  obtain ⟨num, den⟩ := r
  rw [Fraction.Canonical] at canonical
  rw [Fraction.isStable, Bool.and_eq_true] at stable
  obtain ⟨-, -, finished⟩ := canonical
  by_cases one : den.isOne = true
  · exact .one one
  have apart := stable.2
  simp only [one, Bool.false_or, Bool.and_eq_true, Option.isNone_iff_eq_none,
    Bool.not_eq_true'] at apart
  obtain ⟨⟨nonzero, surdless⟩, common⟩ := apart
  have other : den ≠ .one := by
    rintro rfl
    exact one rfl
  cases finished.shaped with
  | one unit => exact absurd unit other
  | zero zero => exact .zero zero
  | several length leading =>
    have proper : den ≠ .zero := by
      rintro rfl
      cases length
    have lowest := (finished.lowest proper).resolve_left other
    exact .several length leading surdless common
      (Expr.make_stable length leading nonzero surdless common lowest)

mutual
theorem Atom.becomes : ∀ a : Atom, a.Canonical max → a.isStable = true →
    a.toExpr.Becomes max (.ofAtom a) (a.isWithin max = true)
  | .symbol s, _, _ => by
    rw [Atom.toExpr, Expr.Becomes, Fraction.ofExpr]
    exact (Returns.of_eq rfl).congr (by simp [Atom.isWithin])
  | .pi, _, _ => by
    rw [Atom.toExpr, Expr.Becomes, Fraction.ofExpr]
    exact (Returns.of_eq rfl).congr (by simp [Atom.isWithin])
  | .imaginary, _, _ => by
    rw [Atom.toExpr, Expr.Becomes, Fraction.ofExpr]
    exact (Returns.of_eq rfl).congr (by simp [Atom.isWithin])
  | .root p k, canonical, stable => by
    rw [Atom.Canonical] at canonical
    rw [Atom.isStable, Bool.and_eq_true, Option.all_eq_true] at stable
    obtain ⟨proper, fits, radicand, root⟩ := canonical
    have root := root fun c constant => by simpa using stable.2 c constant
    have inner := Poly.becomes p radicand stable.1
    have index : ∀ q i, Atom.root p k = .root q i → 2 ≤ i := by
      rintro q i same
      cases same
      exact proper
    rw [Atom.toExpr]
    split
    · rename_i two
      rw [Expr.Becomes, Fraction.ofExpr]
      refine (inner.bind_eq fun _ => ?_).congr (by simp [Atom.isWithin, two])
      change (Fraction.ofPoly p).root 2 = _
      rw [← two, root]
    · rename_i other
      refine Returns.congr (Expr.becomes_power (v := k ≤ max) inner ?_) (by simp [Atom.isWithin, other])
      unfold Fraction.pow
      rw [Fraction.constant?_constant]
      obtain ⟨left, right⟩ := Expr.ofAtom_unit index
      exact Expr.powRat_reciprocal proper root left right
  | .ln r, canonical, stable => by
    rw [Atom.Canonical] at canonical
    rw [Atom.isStable] at stable
    rw [Atom.toExpr, Expr.Becomes, Fraction.ofExpr, Atom.isWithin]
    exact (Fraction.becomes r canonical.1 stable).bind_eq fun _ => canonical.2
  | .power b e, canonical, stable => by
    rw [Atom.Canonical] at canonical
    rw [Atom.isStable, Bool.and_eq_true] at stable
    rw [Atom.toExpr, Expr.Becomes, Fraction.ofExpr, Atom.isWithin, Bool.and_eq_true]
    refine (Fraction.becomes b canonical.1 stable.1).bind fun _ => ?_
    exact (Fraction.becomes e canonical.2.1 stable.2).bind_eq fun _ => canonical.2.2
  | .exp r, canonical, stable => by
    rw [Atom.Canonical] at canonical
    rw [Atom.isStable] at stable
    rw [Atom.toExpr, Expr.Becomes, Fraction.ofExpr, Atom.isWithin]
    exact (Fraction.becomes r canonical.1 stable).bind_eq fun _ => canonical.2

theorem Poly.becomes : ∀ p : Poly, p.Canonical max → p.isStable = true →
    p.toExpr.Becomes max (.ofPoly p) (p.isWithin max = true)
  | ⟨ts⟩, canonical, stable => by
    have reduced := canonical.reduced
    rw [Poly.Canonical] at canonical
    rw [Poly.isStable] at stable
    rw [Poly.isWithin, termsWithin_iff]
    exact Expr.becomes_poly reduced (terms_become ts canonical.2 stable)

theorem Fraction.becomes : ∀ r : Fraction, r.Canonical max → r.isStable = true →
    r.toExpr.Becomes max r (r.isWithin max = true)
  | ⟨num, den⟩, canonical, stable => by
    have settled := Fraction.settled canonical stable
    rw [Fraction.Canonical] at canonical
    rw [Fraction.isStable, Bool.and_eq_true, Bool.and_eq_true] at stable
    obtain ⟨top, bottom, -⟩ := canonical
    have above := Poly.becomes num top stable.1.1
    have below := Poly.becomes den bottom stable.1.2
    rw [Fraction.toExpr]
    split
    · rename_i one
      have unit : Poly.one.isOne = true := rfl
      rw [Poly.eq_one_of_isOne one]
      exact Returns.congr above (by simp [Fraction.isWithin, unit])
    rename_i quotient
    cases settled with
    | one one => exact absurd one quotient
    | zero zero =>
      obtain rfl : den = .zero := zero
      refine Returns.congr (Expr.becomes_quotient top.reduced bottom.reduced above
        (Expr.reciprocal_zero below) False.elim False.elim) ?_
      have improper : Poly.zero.isOne = false := rfl
      have empty : Poly.zero.isZero = true := rfl
      simp [Fraction.isWithin, improper, empty]
    | several length leading surdless common made =>
      have regular : den.isZero = false := by
        obtain ⟨ts⟩ := den
        cases ts with
        | nil => cases length
        | cons t ts => rfl
      refine Returns.congr (Expr.becomes_quotient top.reduced bottom.reduced above
        (Expr.becomes_reciprocal length leading bottom.reduced surdless common below)
        (fun _ => made) fun within => within.2.2) ?_
      simp only [Fraction.isWithin, quotient, regular, Bool.and_eq_true, decide_eq_true_eq,
        Bool.false_or, Bool.not_false]
      tauto

theorem exponentials_become : ∀ e : Poly, e.Canonical max → e.isStable = true →
    (e.coefficient? Monomial.halfTurn).bind Poly.unitRoot? = none →
    (e.terms.all fun t => (Fraction.logarithm? t).isNone) = true →
    ∀ x ∈ exponentialToExprs e,
      x.Becomes max (.ofPoly (.term (.exponential e) 1)) (e.isWithin max = true)
  | ⟨[]⟩, _, _, _, _ => by
    rw [exponentialToExprs]
    exact fun _ member => absurd member List.not_mem_nil
  | ⟨t :: ts⟩, canonical, stable, turned, plain => by
    have reduced := canonical.reduced
    rw [Poly.Canonical] at canonical
    rw [Poly.isStable] at stable
    have inner := Expr.becomes_poly reduced (terms_become (t :: ts) canonical.2 stable)
    rw [Poly.toExpr] at inner
    rw [exponentialToExprs, Poly.isWithin, termsWithin_iff]
    split
    · rename_i one
      have unit : (⟨t :: ts⟩ : Poly) = .one := Poly.eq_one_of_isOne one
      have single : t :: ts = Poly.one.terms := congrArg Poly.terms unit
      rw [List.forall_mem_singleton, Expr.Becomes, Fraction.ofExpr, unit, single]
      exact (Returns.of_eq rfl).congr (iff_of_true trivial ((termsWithin_iff _).mp rfl))
    · rw [List.forall_mem_singleton]
      rw [Expr.Becomes, Fraction.ofExpr]
      refine inner.bind_eq fun _ => ?_
      exact Expr.exp_stable (List.cons_ne_nil t ts) turned plain

theorem factors_become : ∀ fs : List (Atom × Int), factorsCanonical max fs →
    factorsStable fs = true → (∀ f ∈ fs, Monomial.settleFactor f.1 f.2 = .ok (1, f.2)) →
    (∀ f ∈ fs, Monomial.excess? f.1 f.2 = none) →
    ∀ f ∈ fs, (f.1.toExpr.raised f.2).Becomes max (Fraction.ofPower f.1 f.2)
      (f.1.isWithin max = true ∧ (f.2 = 1 ∨ f.2.natAbs ≤ max))
  | [], _, _, _, _ => fun _ member => absurd member List.not_mem_nil
  | (a, n) :: fs, canonical, stable, settled, below => by
    rw [factorsCanonical] at canonical
    rw [factorsStable, Bool.and_eq_true] at stable
    obtain ⟨fits, atom, rest⟩ := canonical
    obtain ⟨settled, tail⟩ := List.forall_mem_cons.mp settled
    obtain ⟨below, tail'⟩ := List.forall_mem_cons.mp below
    refine List.forall_mem_cons.mpr ⟨?_, factors_become fs rest stable.2 tail tail'⟩
    exact Expr.becomes_raised (Atom.becomes a atom stable.1) fits
      (Vocabulary.index_of_canonical atom) settled below

theorem terms_become : ∀ ts : List (Monomial × Rat), termsCanonical max ts →
    termsStable ts = true → ∀ t ∈ ts, Expr.TermBecomes max t (t.1.isWithin max = true)
  | [], _, _ => fun _ member => absurd member List.not_mem_nil
  | (⟨fs, e⟩, c) :: ts, canonical, stable => by
    rw [termsCanonical, Monomial.Canonical] at canonical
    rw [termsStable, Monomial.isStable, Bool.and_eq_true, Bool.and_eq_true, Bool.and_eq_true] at stable
    obtain ⟨⟨irreducible, increasing, factors, exponent⟩, rest⟩ := canonical
    obtain ⟨⟨⟨first, second⟩, plain⟩, rest'⟩ := stable
    refine List.forall_mem_cons.mpr ⟨?_, terms_become ts rest rest'⟩
    rw [Monomial.isWithin, Bool.and_eq_true, factorsWithin_iff]
    refine Expr.becomes_ofTerm increasing irreducible
      (factors_become fs factors first irreducible.settled irreducible.below)
      (exponentials_become e exponent second irreducible.turned plain) ?_
    rintro rfl
    rfl
end

/-! ## Simplification twice -/

/-- The tree of a stable canonical form is its own simplified form, if it has one
within the guards. -/
theorem simplify_idempotent (guards : Guards) (bounded : guards.maxPower ≤ 4294967295)
    {e s t : Expr} {r : Fraction} (ran : Fraction.ofExpr guards.maxPower e = .ok r)
    (stable : r.isStable = true) (first : (Oracle.exact guards).simplify e = .ok s)
    (second : (Oracle.exact guards).simplify s = .ok t) : t = s := by
  have fits : fitsInt64 guards.maxPower = true := by
    rw [Monomial.fitsInt64_iff]
    omega
  have canonical := (Fraction.ofExpr_canonical fits e).of_ok ran
  obtain ⟨r', ran', rfl⟩ := map_eq_ok first
  obtain ⟨r'', again, rfl⟩ := map_eq_ok second
  rw [ran] at ran'
  cases ran'
  rw [(Fraction.becomes r canonical stable).yields.of_ok again]

/-- `(2*x^y*exp(x) + exp(1/(1 + x))*exp(x))/(sqrt(1 + x) + ln(x))`. -/
def mixedQuotient : Expr :=
  let x := Expr.symbol "x"
  let above := Expr.sum [.number 1, x]
  .product [
    .sum [.product [.number 2, .power x (.symbol "y"), .apply .exp x],
      .product [.apply .exp (.power above (.int (-1))), .apply .exp x]],
    .power (.sum [.apply .sqrt above, .apply .ln x]) (.int (-1))]

/-- The same, with the exponential outside of the sum. -/
def factoredQuotient : Expr :=
  let x := Expr.symbol "x"
  let above := Expr.sum [.number 1, x]
  .product [
    .sum [.product [.number 2, .power x (.symbol "y")], .apply .exp (.power above (.int (-1)))],
    .apply .exp x,
    .power (.sum [.apply .ln x, .apply .sqrt above]) (.int (-1))]

theorem simplify_idempotent_factoredQuotient : ∃ s t,
    (Oracle.exact {}).simplify factoredQuotient = .ok s ∧ (Oracle.exact {}).simplify s = .ok t ∧
      s = mixedQuotient ∧ t = s := by
  have stable : (Fraction.ofExpr 64 factoredQuotient).map Fraction.isStable = .ok true := by
    decide_cbv
  have first : (Oracle.exact {}).simplify factoredQuotient = .ok mixedQuotient := by decide_cbv
  have second : (Oracle.exact {}).simplify mixedQuotient = .ok mixedQuotient := by decide_cbv
  obtain ⟨r, ran, stable⟩ := map_eq_ok stable
  exact ⟨_, _, first, second, rfl, simplify_idempotent {} (by decide) ran stable first second⟩

/-- `exp(ln(x) / 2) * exp(ln(x) / 2)`. -/
def halfLogarithms : Expr :=
  let half := Expr.apply .exp (.product [.apply .ln (.symbol "x"), .power (.number 2) (.int (-1))])
  .product [half, half]

/-- A sum of exponents is a logarithm, which only the second round takes out. -/
theorem halfLogarithms_simplify_twice : ∃ s t, (Oracle.exact {}).simplify halfLogarithms = .ok s ∧
    (Oracle.exact {}).simplify s = .ok t ∧ t ≠ s :=
  ⟨.apply .exp (.apply .ln (.symbol "x")), .symbol "x", by decide_cbv, by decide +kernel, nofun⟩

end Discharge
