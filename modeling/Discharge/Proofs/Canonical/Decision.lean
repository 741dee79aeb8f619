import Discharge.Proofs.Canonical.Factoring
import Discharge.Proofs.Canonical.RoundTrip
import Discharge.Proofs.Tree

/-! When a simplified residual gets a verdict. The distributed and the factored form
are computed from the tree of the residual, so they are found only if the tree can
be read again and the numerator can be divided by its common monomial. -/

namespace Discharge

variable {max : Nat} {oracle : Oracle} {ob : Obligation} {hypothesis conclusion simplified : Expr}

/-! ## The course of a simplification -/

namespace Strategy

theorem simplification_takes_sides :
    (simplification.attempt oracle ob).Concludes (· ≠ .inconclusive) := by
  refine .bind (.probe _) fun hypothesis _ => .bind (.probe _) fun conclusion _ => ?_
  refine .bind (.ask _) fun simplified _ => .bind (.step _) fun _ _ => ?_
  split
  · exact .bind (.step _) fun _ _ => .pure nofun
  refine .bind (.ask _) fun expanded _ => ?_
  split
  · exact .bind (.step _) fun _ _ => .bind (.step _) fun _ _ => .pure nofun
  refine .bind (.ask _) fun factored _ => ?_
  split
  · exact .bind (.step _) fun _ _ => .bind (.step _) fun _ _ => .pure nofun
  · exact .bind (.step _) fun _ _ => .pure nofun

/-- After a simplification, the verdict is a matter of the two further forms. -/
theorem simplification_decides_iff (left : ob.hypothesis = .expr hypothesis)
    (right : ob.conclusion = .expr conclusion)
    (ran : oracle.simplify (hypothesis - conclusion) = .ok simplified) :
    (simplification.run oracle ob).Decides ↔
      simplified.isLiteralZero = true ∨ ∃ x, oracle.expand simplified = .ok x ∧
        (x.isLiteralZero = true ∨ ∃ y, oracle.factor simplified = .ok y) := by
  have first : expectExpr ob.hypothesis "hypothesis" = .ok hypothesis := by
    rw [left]
    rfl
  have second : expectExpr ob.conclusion "conclusion" = .ok conclusion := by
    rw [right]
    rfl
  have course : (simplification.attempt oracle ob).Completes
      (∃ a, oracle.simplify (hypothesis - conclusion) = .ok a ∧
        if a.isLiteralZero = true then True else ∃ x, oracle.expand a = .ok x ∧
          if x.isLiteralZero = true then True else ∃ y, oracle.factor a = .ok y ∧
            if y.isLiteralZero = true then True else True) := by
    refine .probe first <| .probe second <| .ask _ fun a _ => .step _ <| .ite (fun _ => ?_) fun _ => ?_
    · exact .step _ (.pure _)
    refine .ask _ fun x _ => .ite (fun _ => ?_) fun _ => ?_
    · exact .step _ <| .step _ (.pure _)
    refine .ask _ fun y _ => .ite (fun _ => ?_) fun _ => ?_
    · exact .step _ <| .step _ (.pure _)
    · exact .step _ (.pure _)
  rw [decides_iff course simplification_takes_sides, ran]
  simp [or_iff_not_imp_left]

end Strategy

/-! ## Forms that can be presented -/

/-- A polynomial without zero terms is a constant zero only if it has none. -/
theorem Poly.Ordered.isZero_of_constant {p : Poly} (ordered : p.Ordered)
    (constant : p.constant? = some 0) : p.isZero = true := by
  obtain ⟨ts⟩ := p
  unfold Poly.constant? at constant
  split at constant
  · rename_i empty
    exact List.isEmpty_iff.mpr empty
  · rename_i single
    cases constant
    exact absurd rfl (ordered.nonzero _ (single ▸ List.mem_singleton_self _))
  · cases constant

/-- The numerator can be divided by its common monomial. -/
def Poly.Divisible (p : Poly) : Prop :=
  ∃ k q, p.commonMonomial.inverse = .ok k ∧ p.shift k = .ok q

namespace Fraction

variable {r : Fraction}

/-- Both the distributed and the factored form can be found: there is a reciprocal of
the denominator, and the numerator is zero or can be divided by its common monomial. -/
structure Presentable (r : Fraction) : Prop where
  reciprocal : r.den.isOne = true ∨ ∃ s, make .one r.den = .ok s
  divisible : r.isZero = true ∨ r.num.Divisible

theorem presentable_iff :
    r.Presentable ↔ (∃ x, r.expanded = .ok x) ∧ ∃ y, r.factored = .ok y := by
  rw [expanded_ok_iff, factored_ok_iff]
  exact ⟨fun ⟨reciprocal, divisible⟩ => ⟨reciprocal, divisible⟩,
    fun ⟨reciprocal, divisible⟩ => ⟨reciprocal, divisible⟩⟩

theorem isZero_of_isLiteralZero (canonical : r.Canonical max)
    (zero : r.toExpr.isLiteralZero = true) : r.isZero = true := by
  have constant := constant_of_toExpr (Expr.isLiteralZero_iff.mp zero)
  obtain ⟨num, den⟩ := r
  rw [Fraction.Canonical] at canonical
  unfold constant? at constant
  split at constant
  · exact canonical.1.reduced.ordered.isZero_of_constant constant
  · cases constant

/-- A stable form is zero exactly if its tree is. -/
theorem isLiteralZero_toExpr (canonical : r.Canonical max) (stable : r.isStable = true) :
    r.toExpr.isLiteralZero = true ↔ r.isZero = true := by
  refine ⟨isZero_of_isLiteralZero canonical, fun empty => ?_⟩
  obtain ⟨⟨ts⟩, den⟩ := r
  obtain rfl : ts = [] := List.isEmpty_iff.mp empty
  have one : den.isOne = true := by
    rw [isStable, Bool.and_eq_true] at stable
    simpa [Poly.isZero] using stable.2
  rw [toExpr, if_pos one, Poly.toExpr, termsToExprs]
  rfl

/-- A stable form within the guards has a reciprocal of its denominator. -/
theorem presentable_of_isWithin (canonical : r.Canonical max) (stable : r.isStable = true)
    (within : r.isWithin max = true) : r.Presentable ↔ r.isZero = true ∨ r.num.Divisible := by
  refine ⟨Presentable.divisible, fun divisible => ⟨?_, divisible⟩⟩
  cases settled canonical stable with
  | one one => exact .inl one
  | zero zero =>
    obtain ⟨num, den⟩ := r
    obtain rfl : den = .zero := zero
    have improper : Poly.zero.isOne = false := rfl
    have empty : Poly.zero.isZero = true := rfl
    simp [isWithin, improper, empty] at within
  | several length leading surdless common =>
    exact .inr ⟨_, Expr.make_reciprocal length leading surdless common⟩

end Fraction

/-! ## Division by the common monomial -/

namespace Poly

open Monomial (settleFactor excess?)

variable {p : Poly} {a : Atom} {k : Monomial} {t : Monomial × Rat}

/-- Divided by the common monomial, no term has the root of a proper polynomial to a
power that reaches the index. -/
def levelRoots (p : Poly) : Bool :=
  p.terms.all fun t => (t.1.factors ++ p.commonMonomial.factors).all fun f =>
    (excess? f.1 (t.1.count f.1 - p.commonMonomial.count f.1)).isNone

theorem natAbs_count_le (bounded : max ≤ 4294967295) (within : p.isWithin max = true)
    (member : t ∈ p.terms) (a : Atom) : (t.1.count a).natAbs ≤ 4294967295 := by
  obtain ⟨ts⟩ := p
  obtain ⟨⟨fs, e⟩, c⟩ := t
  rw [isWithin, termsWithin_iff] at within
  have factors := within _ member
  rw [Monomial.isWithin, Bool.and_eq_true, factorsWithin_iff] at factors
  change (Monomial.exponentIn fs a).natAbs ≤ 4294967295
  by_cases zero : Monomial.exponentIn fs a = 0
  · rw [zero]
    decide
  · rcases (factors.1 _ (Monomial.mem_of_exponentIn zero)).2 with one | le
    · exact (congrArg Int.natAbs one).trans_le (by decide)
    · exact le.trans bounded

/-- The exponent of an atom in the common monomial is zero, or that of an atom in
one of the terms that is no surd. -/
theorem count_commonMonomial_cases (each : p.All fun m => Monomial.Increasing m.factors) (a : Atom) :
    p.commonMonomial.count a = 0 ∨
      a.isQuadraticSurd = false ∧ ∃ t ∈ p.terms, t.1.count a = p.commonMonomial.count a := by
  refine or_iff_not_imp_left.mpr fun nonzero => ?_
  exact (mem_commonMonomial each (Monomial.mem_of_exponentIn nonzero)).2

theorem natAbs_commonMonomial_le (canonical : p.Canonical max) (bounded : max ≤ 4294967295)
    (within : p.isWithin max = true) (a : Atom) :
    (p.commonMonomial.count a).natAbs ≤ 4294967295 := by
  have admitted := (Vocabulary.canonical_poly.mp canonical).1
  rcases count_commonMonomial_cases (admitted.all.mono fun m holds => holds.increasing) a
    with zero | ⟨-, t, member, same⟩
  · rw [zero]
    decide
  · rw [← same]
    exact natAbs_count_le bounded within member a

theorem excess_quotient (level : p.levelRoots = true) (member : t ∈ p.terms) {n : Int} (nonzero : n ≠ 0)
    (quotient : n = t.1.count a - p.commonMonomial.count a) : excess? a n = none := by
  rw [levelRoots, List.all_eq_true] at level
  have each := List.all_eq_true.mp (level t member)
  have present : t.1.count a ≠ 0 ∨ p.commonMonomial.count a ≠ 0 := by omega
  rw [quotient]
  rcases present with term | common
  · exact Option.isNone_iff_eq_none.mp
      (each _ (List.mem_append_left _ (Monomial.mem_of_exponentIn term)))
  · exact Option.isNone_iff_eq_none.mp
      (each _ (List.mem_append_right _ (Monomial.mem_of_exponentIn common)))

/-- A power of i is not divided out, and one of the root of a constant stays below
its index. -/
theorem settled_quotient (canonical : p.Canonical max) (member : t ∈ p.terms)
    (known : a.Canonical max) {n : Int} (nonzero : n ≠ 0)
    (quotient : n = t.1.count a - p.commonMonomial.count a) :
    settleFactor a n = .ok (1, n) := by
  obtain ⟨admitted, irreducible⟩ := Vocabulary.canonical_poly.mp canonical
  have increasing := admitted.all.mono fun m holds => holds.increasing
  have least := count_commonMonomial_cases increasing a
  cases a with
  | imaginary =>
    rcases least with zero | ⟨plain, -⟩
    · obtain rfl : n = t.1.count .imaginary := by omega
      exact (irreducible t member).settled _ (Monomial.mem_of_exponentIn nonzero)
    · cases plain
  | root q i =>
    cases constant : q.constant? with
    | none => simp only [settleFactor, constant]
    | some c =>
      have proper := Vocabulary.index_of_canonical known q i rfl
      have bounds : ∀ u ∈ p.terms, 0 ≤ u.1.count (.root q i) ∧ u.1.count (.root q i) < i := by
        intro u old
        by_cases zero : u.1.count (.root q i) = 0
        · omega
        · exact Monomial.settled_root constant proper
            ((irreducible u old).settled _ (Monomial.mem_of_exponentIn zero))
      have above := bounds t member
      rcases least with zero | ⟨plain, u, old, same⟩
      · exact Monomial.settleFactor_root constant (by omega) (by omega)
      · have below := count_commonMonomial_le increasing plain member
        have positive := bounds u old
        exact Monomial.settleFactor_root constant (by omega) (by omega)
  | _ => rfl

/-- With level roots, a term divided by the common monomial is irreducible. -/
theorem irreducible_quotient (canonical : p.Canonical max) (level : p.levelRoots = true)
    (inverse : (Vocabulary.canonical max).valuation.Admits p.commonMonomial.reciprocal)
    (member : t ∈ p.terms) (combined : t.1.combine p.commonMonomial.reciprocal = .ok k) :
    k.Irreducible := by
  obtain ⟨admitted, irreducible⟩ := Vocabulary.canonical_poly.mp canonical
  obtain ⟨product, -⟩ := (Valuation.combine_ensures (admitted.all t member) inverse).of_ok combined
  have factors : ∀ f ∈ k.factors, f.2 = t.1.count f.1 - p.commonMonomial.count f.1 := by
    intro f factor
    have sum := Valuation.count_combine (admitted.all t member) inverse combined f.1
    rw [Monomial.count_reciprocal, Monomial.count_eq,
      Monomial.exponentIn_of_mem product.increasing factor] at sum
    omega
  constructor
  case nonzero => exact fun f factor => (product.factor f factor).nonzero
  case settled =>
    intro f factor
    have admits := product.factor f factor
    exact settled_quotient canonical member admits.known admits.nonzero (factors f factor)
  case below =>
    intro f factor
    exact excess_quotient level member (product.factor f factor).nonzero (factors f factor)
  case turned =>
    -- The exact exponential of the term is left as it is.
    obtain ⟨fs, -, rfl⟩ := map_eq_ok combined
    have rest : p.commonMonomial.reciprocal.exp = .zero := by
      rw [Monomial.reciprocal, commonMonomial_exp]
      rfl
    have same : t.1.exp.add p.commonMonomial.reciprocal.exp = t.1.exp := by
      obtain ⟨ts⟩ := t.1.exp
      rw [rest]
      simp [add, zero]
    rw [same]
    exact (irreducible t member).turned

/-- Within the guards and with level roots, a numerator can be divided by its common
monomial: no exponent overflows, and no power of a radicand is to be multiplied out. -/
theorem divisible_of_levelRoots (canonical : p.Canonical max) (bounded : max ≤ 4294967295)
    (within : p.isWithin max = true) (level : p.levelRoots = true) : p.Divisible := by
  have admitted := (Vocabulary.canonical_poly.mp canonical).1
  have below (a : Atom) := natAbs_commonMonomial_le canonical bounded within a
  have invertible : p.commonMonomial.isInvertible = true := by
    refine Monomial.isInvertible_iff.mpr fun f member => ?_
    have small := below f.1
    rw [Monomial.count_eq, Monomial.exponentIn_of_mem admitted.commonMonomial.increasing member]
      at small
    rw [Monomial.fitsInt64_iff]
    omega
  have inverse : (Vocabulary.canonical max).valuation.Admits p.commonMonomial.reciprocal :=
    admitted.commonMonomial.reciprocal invertible fun _ _ => trivial
  have combines : ∀ t ∈ p.terms, ∃ k, t.1.combine p.commonMonomial.reciprocal = .ok k := by
    refine fun t member => (Monomial.combine_ok_iff (admitted.all t member) inverse).mpr fun a => ?_
    have above := natAbs_count_le bounded within member a
    have small := below a
    rw [Monomial.count_reciprocal, Monomial.fitsInt64_iff]
    omega
  obtain ⟨q, ran⟩ := (shift_irreducible_ok_iff fun t member k combined =>
    irreducible_quotient canonical level inverse member combined).mpr combines
  exact ⟨_, q, Monomial.inverse_of_invertible invertible, ran⟩

end Poly

/-! ## Verdicts -/

namespace Strategy

variable {guards : Guards} {r : Fraction}

/-- A residual is decided exactly if it is zero or if its tree can be read again, as
a form that can be presented. -/
theorem simplification_decides_again (left : ob.hypothesis = .expr hypothesis)
    (right : ob.conclusion = .expr conclusion) (fits : fitsInt64 guards.maxPower = true)
    (ran : Fraction.ofExpr guards.maxPower (hypothesis - conclusion) = .ok r) :
    (simplification.run (.exact guards) ob).Decides ↔ r.toExpr.isLiteralZero = true ∨
      ∃ s, Fraction.ofExpr guards.maxPower r.toExpr = .ok s ∧ s.Presentable := by
  have simplified : (Oracle.exact guards).simplify (hypothesis - conclusion) = .ok r.toExpr := by
    simp only [Oracle.exact, ran]
    rfl
  rw [simplification_decides_iff left right simplified]
  refine or_congr_right ⟨?_, ?_⟩
  · rintro ⟨x, expanded, sides⟩
    obtain ⟨s, again, distributed⟩ := bind_eq_ok expanded
    refine ⟨s, again, Fraction.presentable_iff.mpr ⟨⟨x, distributed⟩, ?_⟩⟩
    rcases sides with zero | ⟨y, factored⟩
    · have canonical := (Fraction.ofExpr_canonical fits _).of_ok again
      exact Fraction.factored_ok_iff.mpr <| .inl <|
        Fraction.isZero_of_isLiteralZero canonical (Fraction.isLiteralZero_of_expanded distributed zero)
    · obtain ⟨s', again', found⟩ := bind_eq_ok factored
      rw [again] at again'
      cases again'
      exact ⟨y, found⟩
  · rintro ⟨s, again, presentable⟩
    obtain ⟨⟨x, distributed⟩, y, factored⟩ := Fraction.presentable_iff.mp presentable
    refine ⟨x, ?_, .inr ⟨y, ?_⟩⟩
    · simp only [Oracle.exact, again, bind, Except.bind, distributed]
    · simp only [Oracle.exact, again, bind, Except.bind, factored]

/-- A residual is decided exactly if it is zero, or if its tree can be read again as a
form that can be presented. The tree of a stable form can, exactly if it is within the
guards, and gives that form again; what remains is to divide the numerator by its common
monomial, which goes as long as the roots are level. -/
theorem simplification_decides (guards : Guards) (bounded : guards.maxPower ≤ 4294967295)
    (left : ob.hypothesis = .expr hypothesis) (right : ob.conclusion = .expr conclusion)
    (ran : Fraction.ofExpr guards.maxPower (hypothesis - conclusion) = .ok r) :
    ((simplification.run (.exact guards) ob).Decides ↔ r.toExpr.isLiteralZero = true ∨
      ∃ s, Fraction.ofExpr guards.maxPower r.toExpr = .ok s ∧ s.Presentable) ∧
    (r.isStable = true → ((simplification.run (.exact guards) ob).Decides ↔
      r.isZero = true ∨ r.isWithin guards.maxPower = true ∧ r.num.Divisible)) ∧
    (r.num.isWithin guards.maxPower = true → r.num.levelRoots = true → r.num.Divisible) := by
  have fits : fitsInt64 guards.maxPower = true := by
    rw [Monomial.fitsInt64_iff]
    omega
  have canonical := (Fraction.ofExpr_canonical fits _).of_ok ran
  have decides := simplification_decides_again left right fits ran
  refine ⟨decides, fun stable => ?_, fun within => ?_⟩
  · have becomes := Fraction.becomes r canonical stable
    rw [decides, Fraction.isLiteralZero_toExpr canonical stable]
    constructor
    · rintro (zero | ⟨s, again, presentable⟩)
      · exact .inl zero
      · obtain ⟨within, rfl⟩ := (becomes s).mp again
        exact presentable.divisible.imp_right fun divisible => ⟨within, divisible⟩
    · rintro (zero | ⟨within, divisible⟩)
      · exact .inl zero
      · refine .inr ⟨r, becomes.eq_ok_iff.mpr within, ?_⟩
        exact (Fraction.presentable_of_isWithin canonical stable within).mpr (.inr divisible)
  · obtain ⟨num, den⟩ := r
    rw [Fraction.Canonical] at canonical
    exact Poly.divisible_of_levelRoots canonical.1 bounded within

theorem simplification_decides_factoredQuotient :
    let ob : Obligation := ⟨"quotient", .expr factoredQuotient, .expr (.symbol "x"), "", .unknown, []⟩
    ∃ r, Fraction.ofExpr 64 (factoredQuotient - .symbol "x") = .ok r ∧ r.isStable = true ∧
      r.isWithin 64 = true ∧ r.num.levelRoots = true ∧
      (simplification.run (.exact {}) ob).Decides := by
  intro ob
  have checked : (Fraction.ofExpr 64 (factoredQuotient - .symbol "x")).map (fun r =>
      (r.isStable, r.isWithin 64, r.num.isWithin 64, r.num.levelRoots)) =
      .ok (true, true, true, true) := by decide_cbv
  obtain ⟨r, ran, all⟩ := map_eq_ok checked
  simp only [Prod.mk.injEq] at all
  obtain ⟨stable, within, above, level⟩ := all
  have left : ob.hypothesis = .expr factoredQuotient := rfl
  have right : ob.conclusion = .expr (.symbol "x") := rfl
  obtain ⟨-, exactly, divisible⟩ := simplification_decides {} (by decide) left right ran
  exact ⟨r, ran, stable, within, level,
    (exactly stable).mpr (.inr ⟨within, divisible above level⟩)⟩

/-- A product has an exponent that cannot be read again. -/
theorem simplification_undecided_power :
    let power := Expr.power (.symbol "x") (.int 40)
    let ob : Obligation := ⟨"power", .expr (.product [power, power]), .expr .zero, "", .unknown, []⟩
    (Oracle.exact {}).simplify (.product [power, power] - .zero) =
        .ok (.power (.symbol "x") (.int 80)) ∧
      (simplification.run (.exact {}) ob).obligation.status = .unknown := by
  decide +kernel

end Strategy

end Discharge
