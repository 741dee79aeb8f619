import Discharge.Proofs.Rational.Tree
import Discharge.Proofs.Trail

/-! Verification of rational identities is exact. The oracle decides whether a
rational expression is zero and whether it is constant whenever it can normalise
it, and a verdict on two rational expressions tells whether they denote the same
rational function. -/

namespace Discharge

open RationalFunction
open Failure (IsRefusal IsDivisionByZero)

namespace RationalFunction

variable {guards : Guards} {e : Expr} {f : RationalFunction}

/-- What a simplified rational expression denotes is zero exactly if it is the
literal zero, and further forms of it do not change that. -/
theorem simplify_isLiteralZero {simplified : Expr} (rational : e.IsRational)
    (ran : (Oracle.exact guards).simplify e = .ok simplified) :
    ∃ f, e.denote = some f ∧ simplified.denote = some f ∧
      (simplified.isLiteralZero = true ↔ f = 0) := by
  obtain ⟨r, normalised, rfl⟩ := map_eq_ok ran
  obtain ⟨f, denotes, represents⟩ := (normalises guards.maxPower rational).of_ok normalised
  exact ⟨f, denotes, denote_toExpr represents.denotes, represents.isLiteralZero_iff⟩

theorem expand_isLiteralZero {expanded : Expr} (denotes : e.denote = some f)
    (ran : (Oracle.exact guards).expand e = .ok expanded)
    (zero : expanded.isLiteralZero = true) : f = 0 := by
  obtain ⟨r, normalised, rest⟩ := bind_eq_ok ran
  obtain ⟨g, denotes', represents⟩ :=
    (normalises guards.maxPower (Expr.isRational_of_denote denotes)).of_ok normalised
  obtain rfl : f = g := Option.some.inj (denotes.symm.trans denotes')
  exact expanded_isLiteralZero represents rest zero

theorem factor_isLiteralZero {factored : Expr} (denotes : e.denote = some f)
    (ran : (Oracle.exact guards).factor e = .ok factored)
    (zero : factored.isLiteralZero = true) : f = 0 := by
  obtain ⟨r, normalised, rest⟩ := bind_eq_ok ran
  obtain ⟨g, denotes', represents⟩ :=
    (normalises guards.maxPower (Expr.isRational_of_denote denotes)).of_ok normalised
  obtain rfl : f = g := Option.some.inj (denotes.symm.trans denotes')
  exact factored_isLiteralZero represents rest zero

theorem expectExpr_eq_ok {claim : Claim} {role : String} {e : Expr}
    (expected : Strategy.expectExpr claim role = .ok e) : claim = .expr e := by
  cases claim with
  | expr x =>
    cases expected
    rfl
  | equation lhs rhs => cases expected
  | text s => cases expected

/-- What a verdict on two expressions has to mean: both denote a rational
function, the same one if proven and different ones if refuted. -/
def Justifies (hypothesis conclusion : Expr) : Verdict → Prop
  | .proven => ∃ f, hypothesis.denote = some f ∧ conclusion.denote = some f
  | .refuted => ∃ f g, hypothesis.denote = some f ∧ conclusion.denote = some g ∧ f ≠ g
  | .inconclusive => True

/-- The verdict of a simplification on two rational expressions is right. -/
theorem simplification_concludes (guards : Guards) {ob : Obligation} {hypothesis conclusion : Expr}
    (left : ob.hypothesis = .expr hypothesis) (right : ob.conclusion = .expr conclusion)
    (rational : hypothesis.IsRational) (rational' : conclusion.IsRational) :
    (Strategy.simplification.attempt (Oracle.exact guards) ob).Concludes
      (Justifies hypothesis conclusion) := by
  refine .bind (.probe _) fun a first => ?_
  obtain rfl : hypothesis = a := Claim.expr.inj (left.symm.trans (expectExpr_eq_ok first))
  refine .bind (.probe _) fun b second => ?_
  obtain rfl : conclusion = b := Claim.expr.inj (right.symm.trans (expectExpr_eq_ok second))
  refine .bind (.ask _) fun simplified ran => ?_
  obtain ⟨d, difference, denotes, literal⟩ :=
    simplify_isLiteralZero (Expr.IsRational.closed.sub rational rational') ran
  obtain ⟨x, y, hx, hy, rfl⟩ := Expr.denote_of_sub difference
  have equal : x - y = 0 → Justifies hypothesis conclusion .proven := fun zero =>
    ⟨x, hx, by rw [hy, sub_eq_zero.mp zero]⟩
  refine .bind (.step _) fun _ _ => ?_
  split
  · rename_i zero
    exact .bind (.step _) fun _ _ => .pure (equal (literal.mp zero))
  rename_i nonzero
  refine .bind (.ask _) fun expanded expands => ?_
  split
  · rename_i zero
    exact .bind (.step _) fun _ _ => .bind (.step _) fun _ _ =>
      .pure (equal (expand_isLiteralZero denotes expands zero))
  refine .bind (.ask _) fun factored factors => ?_
  split
  · rename_i zero
    exact .bind (.step _) fun _ _ => .bind (.step _) fun _ _ =>
      .pure (equal (factor_isLiteralZero denotes factors zero))
  · refine .bind (.step _) fun _ _ => .pure ⟨x, y, hx, hy, fun same => nonzero ?_⟩
    exact literal.mpr (sub_eq_zero.mpr same)

/-- The oracle is exact on rational expressions.  If it can normalise one, then
that denotes a rational function, and the tests for zero and for a constant tell
whether that is zero and whether it is a rational number; otherwise the error is
that a size guard was exceeded, or that the base of a negative power in it denotes
zero, unless there is no error because an exponent left the machine integers.  Of
two rational expressions, those are proven equal that denote the same rational
function, and those refuted that denote different ones. -/
theorem rational_oracle_exact (guards : Guards) :
    (∀ e : Expr, e.IsRational →
      (∀ r, Fraction.ofExpr guards.maxPower e = .ok r → ∃ f isZero isConstant,
        e.denote = some f ∧
        (Oracle.exact guards).isZero e = .ok isZero ∧ (isZero = true ↔ f = 0) ∧
        (Oracle.exact guards).isConstant e = .ok isConstant ∧
          (isConstant = true ↔ ∃ q : ℚ, f = algebraMap ℚ RationalFunction q)) ∧
      (∀ failure, Fraction.ofExpr guards.maxPower e = .error failure →
        failure.IsTooLarge ∨ failure.IsOverflow ∨ failure.IsDivisionByZero ∧
          ∃ b n, Expr.Subterm (.power b (.int n)) e ∧ n < 0 ∧ b.denote = some 0)) ∧
    ∀ (ob : Obligation) (hypothesis conclusion : Expr), hypothesis.IsRational →
      conclusion.IsRational → ob.hypothesis = .expr hypothesis → ob.conclusion = .expr conclusion →
      ((Strategy.simplification.run (Oracle.exact guards) ob).obligation.status = .proven →
        ∃ f, hypothesis.denote = some f ∧ conclusion.denote = some f) ∧
      ((Strategy.simplification.run (Oracle.exact guards) ob).obligation.status = .refuted →
        ∃ f g, hypothesis.denote = some f ∧ conclusion.denote = some g ∧ f ≠ g) := by
  refine ⟨fun e rational => ⟨fun r ran => ?_, fun failure failed => ?_⟩, ?_⟩
  · obtain ⟨f, denotes, represents⟩ := (normalises guards.maxPower rational).of_ok ran
    refine ⟨f, r.isZero, !r.hasSymbols, denotes, ?_, represents.isZero_iff, ?_, ?_⟩
    · simp only [Oracle.exact, ran]
      rfl
    · simp only [Oracle.exact, ran]
      rfl
    · rw [Bool.not_eq_true', represents.hasSymbols_iff]
  · exact or_assoc.mp ((normalises guards.maxPower rational).of_error failed)
  · intro ob hypothesis conclusion rational rational' left right
    have concludes := simplification_concludes guards left right rational rational'
    exact ⟨Strategy.verdict_of_status concludes .proven nofun,
      Strategy.verdict_of_status concludes .refuted nofun⟩

/-- `x / (x + 1) + 1 / (x + 1)`. -/
def wholeQuotient : Expr :=
  let reciprocal := Expr.power (.sum [.symbol "x", .number 1]) (.int (-1))
  .sum [.product [.symbol "x", reciprocal], reciprocal]

theorem wholeQuotient_isRational : wholeQuotient.IsRational := by
  have reciprocal : (Expr.power (.sum [.symbol "x", .number 1]) (.int (-1))).IsRational :=
    .power (-1) (.sum (by simpa using ⟨.symbol "x", .number 1⟩))
  exact .sum (by simpa using ⟨.product (by simpa using ⟨.symbol "x", reciprocal⟩), reciprocal⟩)

theorem rational_oracle_exact_wholeQuotient :
    (∃ f isZero isConstant, wholeQuotient.denote = some f ∧
      (Oracle.exact {}).isZero wholeQuotient = .ok isZero ∧ (isZero = true ↔ f = 0) ∧
      (Oracle.exact {}).isConstant wholeQuotient = .ok isConstant ∧
        (isConstant = true ↔ ∃ q : ℚ, f = algebraMap ℚ RationalFunction q)) ∧
    ∃ f, wholeQuotient.denote = some f ∧ (Expr.number 1).denote = some f := by
  have ran : Fraction.ofExpr 64 wholeQuotient = .ok (.constant 1) := by decide_cbv
  have proven : (Strategy.simplification.run (Oracle.exact {})
      { name := "sum", hypothesis := .expr wholeQuotient, conclusion := .expr (.number 1),
        methodLabel := "" }).obligation.status = .proven := by decide_cbv
  exact ⟨((rational_oracle_exact {}).1 _ wholeQuotient_isRational).1 _ ran,
    ((rational_oracle_exact {}).2 _ _ _ wholeQuotient_isRational (.number 1) rfl rfl).1 proven⟩

end RationalFunction

end Discharge
