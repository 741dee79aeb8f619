import Discharge.Proofs.Rational.Primitive

/-! The distributed and the factored form of a rational expression. Both denote
the rational function that the expression denotes. The distributed form is
always found; the factored form is, exactly if the numerator can be divided by
its common monomial. It is a product of the content with that monomial, of a
polynomial from which nothing more can be taken, and of the reciprocal of the
denominator. -/

namespace Discharge

open RationalFunction

namespace Expr

variable {e : Expr} {xs : List Expr} {fs : List RationalFunction} {f g : RationalFunction}

/-- The product of trees; a single one stands for itself. -/
def productOf : List Expr → Expr
  | [] => .one
  | [x] => x
  | xs => .product xs

theorem denote_productOf (denotes : denoteAll xs = some fs) :
    denote (productOf xs) = some fs.prod := by
  unfold productOf
  split
  · rw [denoteAll_nil] at denotes
    cases denotes
    exact (denote_number 1).trans (by rw [map_one, List.prod_nil])
  · obtain ⟨f, single, rfl⟩ := denoteAll_singleton_eq_some.mp denotes
    simpa using single
  · exact denote_product_eq_some.mpr ⟨fs, denotes, rfl⟩

/-- A factor of a product, left out if it stands for the polynomial one. -/
def unlessOne (p : Poly) (e : Expr) : List Expr := if p = .one then [] else [e]

theorem denoteAll_unlessOne {p : Poly} (denotes : denote e = some f) (unit : p = .one → f = 1) :
    ∃ fs, denoteAll (unlessOne p e) = some fs ∧ fs.prod = f := by
  unfold unlessOne
  split
  · rename_i one
    exact ⟨[], denoteAll_nil, (unit one).symm⟩
  · exact ⟨[f], denoteAll_singleton_eq_some.mpr ⟨f, denotes, rfl⟩, List.prod_singleton⟩

end Expr

namespace RationalFunction

variable {p q inner : Poly} {m : Monomial} {c : ℚ} {r : Fraction} {f : RationalFunction} {y : Expr}

/-! ## The distributed form -/

theorem denoteAll_distributed {ts : List (Monomial × Rat)} {d : Expr} {g : RationalFunction}
    (each : ∀ t ∈ ts, valuation.Admits t.1) (denotes : d.denote = some g) :
    ∃ gs, Expr.denoteAll (ts.map fun t => (Fraction.ofPoly (.term t.1 t.2)).toExpr * d) = some gs ∧
      gs.sum = valuation.terms ts * g := by
  induction ts with
  | nil => exact ⟨[], Expr.denoteAll_nil, by simp⟩
  | cons t ts ih =>
    obtain ⟨head, tail⟩ := List.forall_mem_cons.mp each
    obtain ⟨gs, rest, sum⟩ := ih tail
    have term := denote_toExpr (Represents.of_poly (.term head t.2)).denotes
    refine ⟨_ :: gs, Expr.denoteAll_cons_eq_some.mpr
      ⟨_, gs, Expr.denote_mul term denotes, rest, rfl⟩, ?_⟩
    rw [List.sum_cons, sum, Valuation.poly_term, ← add_mul, ← Valuation.terms_cons]

theorem expanded_denotes (represents : Represents r f) (trimmed : Trimmed r) :
    ∃ x, r.expanded = .ok x ∧ x.denote = some f := by
  unfold Fraction.expanded
  cases one : r.den.isOne with
  | true => exact ⟨r.toExpr, rfl, denote_toExpr represents.denotes⟩
  | false =>
    have regular := represents.denotes.regular
    have reciprocal : (Fraction.mk .one r.den).toExpr.denote = some (1 / valuation.poly r.den) :=
      denote_toExpr ⟨.one, represents.denotes.den, regular, by simp [regular]⟩
    obtain ⟨gs, all, sum⟩ := denoteAll_distributed represents.denotes.num.all reciprocal
    have value : gs.sum = f := by
      rw [sum, ← Valuation.poly_eq, represents.denotes.eq_div, mul_one_div]
    rw [trimmed.reciprocal represents one]
    simp only [bind, Except.bind, Bool.false_eq_true, ↓reduceIte]
    split
    · rename_i x single
      rw [single] at all
      obtain ⟨g, denotes, rfl⟩ := Expr.denoteAll_singleton_eq_some.mp all
      exact ⟨x, rfl, by rw [denotes, ← value, List.sum_singleton]⟩
    · exact ⟨_, rfl, Expr.denote_sum_eq_some.mpr ⟨gs, all, value⟩⟩

/-! ## The factored form -/

/-- The tree `y` is the product of `c · m`, of `inner` and of the reciprocal of
`den`, factors one left out: a factorisation of `f` in which `inner` has integer
coefficients without a common divisor, no negative exponents, and no symbol in
all of its terms. -/
structure Factorisation (f : RationalFunction) (y : Expr) (c : ℚ) (m : Monomial) (inner den : Poly) :
    Prop where
  tree : y = Expr.productOf (Expr.unlessOne (.term m c) (Poly.term m c).toExpr ++
    (Expr.unlessOne inner inner.toExpr ++ Expr.unlessOne den (.power den.toExpr (.int (-1)))))
  value : f = algebraMap ℚ RationalFunction c * valuation.monomial m * valuation.poly inner /
    valuation.poly den
  monomial : valuation.Admits m
  rest : valuation.AdmitsPoly inner
  primitive : inner.Primitive
  coprime : inner.Coprime

theorem Factorisation.denotes (factorisation : Factorisation f y c m inner r.den)
    (denominator : valuation.AdmitsPoly r.den) (regular : valuation.poly r.den ≠ 0) :
    y.denote = some f := by
  obtain ⟨fs, outer, outer'⟩ := Expr.denoteAll_unlessOne (p := .term m c)
    (denote_poly_toExpr (.term factorisation.monomial c)) fun one => by rw [one, Valuation.poly_one]
  obtain ⟨gs, middle, middle'⟩ := Expr.denoteAll_unlessOne (p := inner)
    (denote_poly_toExpr factorisation.rest) fun one => by rw [one, Valuation.poly_one]
  obtain ⟨hs, last, last'⟩ := Expr.denoteAll_unlessOne (p := r.den)
    (Expr.denote_power_of_ne_zero (denote_poly_toExpr denominator) regular (-1))
    fun one => by rw [one, Valuation.poly_one, one_zpow]
  have all := Expr.denoteAll_append_eq_some.mpr ⟨fs, gs ++ hs, outer,
    Expr.denoteAll_append_eq_some.mpr ⟨gs, hs, middle, last, rfl⟩, rfl⟩
  rw [factorisation.tree, Expr.denote_productOf all, List.prod_append, List.prod_append, outer',
    middle', last', Valuation.poly_term, zpow_neg_one, ← mul_assoc, ← div_eq_mul_inv,
    ← factorisation.value]

theorem rational_toExpr (admitted : valuation.AdmitsPoly p) :
    p.toExpr.rational? = some 1 ↔ p = .one := by
  constructor
  · intro literal
    have one : p.toExpr = .number 1 := by
      revert literal
      cases p.toExpr <;> simp [Expr.rational?]
    have denotes := denote_poly_toExpr admitted
    rw [one, Expr.denote_number, map_one] at denotes
    refine poly_injective admitted .one ?_
    rw [Valuation.poly_one]
    exact (Option.some.inj denotes).symm
  · rintro rfl
    rfl

theorem isOne_iff : p.isOne = true ↔ p = .one :=
  ⟨Poly.eq_one_of_isOne, fun one => by rw [one]; rfl⟩

/-- What is left out of a factored form are the factors one. -/
theorem filter_toExpr (admitted : valuation.AdmitsPoly p) :
    [p.toExpr].filter (fun e => e.rational? ≠ some 1) = Expr.unlessOne p p.toExpr := by
  unfold Expr.unlessOne
  split
  · rename_i one
    exact List.filter_eq_nil_iff.mpr fun e member => by
      simp [List.mem_singleton.mp member, (rational_toExpr admitted).mpr one]
  · rename_i other
    exact List.filter_eq_self.mpr fun e member => by
      simp [List.mem_singleton.mp member, mt (rational_toExpr admitted).mp other]

theorem filter_factors (outer : valuation.AdmitsPoly p) (rest : valuation.AdmitsPoly inner) (den : Poly) :
    ((Fraction.ofPoly p).toExpr :: ((if inner.isOne then [] else [(Fraction.ofPoly inner).toExpr]) ++
      (if den.isOne then [] else [Expr.power (Fraction.ofPoly den).toExpr (.int (-1))]))).filter
        (fun e => e.rational? ≠ some 1) =
      Expr.unlessOne p p.toExpr ++
        (Expr.unlessOne inner inner.toExpr ++ Expr.unlessOne den (.power den.toExpr (.int (-1)))) := by
  have tree : ∀ q : Poly, (Fraction.ofPoly q).toExpr = q.toExpr := fun q => by
    rw [Fraction.ofPoly, Fraction.toExpr, if_pos (by decide)]
  have middle : (Expr.unlessOne inner inner.toExpr).filter (fun e => e.rational? ≠ some 1) =
      Expr.unlessOne inner inner.toExpr := by
    rw [← filter_toExpr rest, List.filter_filter]
    simp only [Bool.and_self]
  have last : (Expr.unlessOne den (.power den.toExpr (.int (-1)))).filter
      (fun e => e.rational? ≠ some 1) = Expr.unlessOne den (.power den.toExpr (.int (-1))) := by
    unfold Expr.unlessOne
    split <;> rfl
  simp only [tree, isOne_iff]
  rw [← List.singleton_append]
  change (_ ++ (Expr.unlessOne inner inner.toExpr ++ Expr.unlessOne den _)).filter _ = _
  rw [List.filter_append, List.filter_append, filter_toExpr outer, middle, last]

/-! ## Answers -/

theorem nonzero_of_represents (represents : Represents r f) (proper : f ≠ 0) :
    ∃ t ∈ r.num.terms, t.2 ≠ 0 := by
  have empty : ¬ r.isZero = true := mt represents.isZero_iff.mp proper
  obtain ⟨t, member⟩ := List.exists_mem_of_ne_nil r.num.terms (mt List.isEmpty_iff.mpr empty)
  exact ⟨t, member, represents.denotes.num.ordered.nonzero t member⟩

/-- The numerator without its content. -/
theorem signedContent_abs (r : Fraction) : |r.signedContent| = r.num.content := by
  unfold Fraction.signedContent
  split
  · rw [abs_neg, abs_of_pos (Poly.content_pos _)]
  · exact abs_of_pos (Poly.content_pos _)

/-- The factored form, once the numerator has been divided. -/
theorem factored_eq (represents : Represents r f) (proper : f ≠ 0) :
    r.factored = (r.num.commonMonomial.inverse >>= (r.num.scale r.signedContent⁻¹).shift) >>=
      fun inner => .ok (.productOf (Expr.unlessOne (.term r.num.commonMonomial r.signedContent)
          (Poly.term r.num.commonMonomial r.signedContent).toExpr ++
        (Expr.unlessOne inner inner.toExpr ++
          Expr.unlessOne r.den (.power r.den.toExpr (.int (-1)))))) := by
  have admitted := represents.denotes.num
  unfold Fraction.factored
  rw [if_neg (mt represents.isZero_iff.mp proper)]
  cases inverted : r.num.commonMonomial.inverse with
  | error e => simp only [inverted]; rfl
  | ok k =>
    obtain ⟨invertible, rfl⟩ := Monomial.inverse_eq_ok inverted
    simp only [inverted, bind, Except.bind]
    cases shifted : (r.num.scale r.signedContent⁻¹).shift r.num.commonMonomial.reciprocal with
    | error e => rfl
    | ok inner =>
      have inverse := admits_reciprocal admitted.commonMonomial invertible
      have rest := ((Valuation.shift_ensures dividing.lawful (admitted.scale _) inverse).of_ok
        shifted).1
      dsimp only
      rw [← filter_factors (.term admitted.commonMonomial r.signedContent) rest r.den]
      generalize List.filter _ _ = factors
      rcases factors with _ | ⟨x, _ | ⟨y, xs⟩⟩ <;> rfl

/-- A factored form is found exactly if the numerator can be divided by its
common monomial. -/
theorem factored_ok_iff (represents : Represents r f) :
    (∃ y, r.factored = .ok y) ↔ r.num.DivisionFits := by
  rw [Fraction.factored_ok_iff, ← shift_commonMonomial_ok_iff represents.denotes.num]
  refine or_iff_right_of_imp fun empty => ?_
  obtain ⟨⟨ts⟩, den⟩ := r
  obtain rfl : ts = [] := List.isEmpty_iff.mp empty
  exact ⟨.one, .zero, rfl, rfl⟩

/-- It factorises the rational function. -/
theorem factored_factorises (represents : Represents r f) (proper : f ≠ 0)
    (ran : r.factored = .ok y) : ∃ c m inner, Factorisation f y c m inner r.den := by
  have coefficient := r.signedContent_ne_zero
  have content := inv_ne_zero coefficient
  have admitted := represents.denotes.num
  have common := admitted.commonMonomial
  have nonzero := nonzero_of_represents represents proper
  rw [factored_eq represents proper] at ran
  obtain ⟨inner, divided, tree⟩ := bind_eq_ok ran
  obtain ⟨k, inverted, shifted⟩ := bind_eq_ok divided
  obtain ⟨invertible, rfl⟩ := Monomial.inverse_eq_ok inverted
  have inverse := admits_reciprocal common invertible
  obtain ⟨rest, value⟩ :=
    (Valuation.shift_ensures dividing.lawful (admitted.scale _) inverse).of_ok shifted
  have scaled : (r.num.scale r.signedContent⁻¹).Primitive :=
    Poly.primitive_scale nonzero (signedContent_abs r)
  have unit : valuation.monomial r.num.commonMonomial ≠ 0 := by
    refine Valuation.monomial_ne_zero fun f member => ?_
    obtain ⟨s, symbol⟩ := (common.factor f member).known
    rw [symbol]
    exact var_ne_zero s
  refine ⟨r.signedContent, r.num.commonMonomial, inner, (Except.ok.inj tree).symm, ?_, common, rest,
    ?_, ?_⟩
  · have constant := (map_ne_zero (algebraMap ℚ RationalFunction)).mpr coefficient
    rw [value, Valuation.poly_scale, Valuation.monomial_reciprocal, map_inv₀,
      represents.denotes.eq_div]
    field_simp
  · -- The coefficients are those of the numerator.
    have moved := Poly.mem_shift (admitted.scale _) inverse
      (combine_irreducible (admitted.scale _) inverse) shifted
    obtain ⟨integral, coprime⟩ := Poly.primitive_scale nonzero (signedContent_abs r)
    refine ⟨fun u member => ?_, fun d divides => coprime d fun t member => ?_⟩
    · obtain ⟨s, old, -⟩ := (moved u).mp member
      exact integral (s, u.2) old
    · obtain ⟨ps, products, -⟩ := bind_eq_ok shifted
      obtain ⟨k, combined⟩ := Valuation.shiftTerms_combines products t member
      exact divides (k, t.2) ((moved (k, t.2)).mpr ⟨t.1, member, combined⟩)
  · have nonempty : (r.num.scale r.signedContent⁻¹).terms ≠ [] := by
      obtain ⟨t, member, -⟩ := nonzero
      rw [Poly.terms_scale content]
      exact List.ne_nil_of_mem (List.mem_map_of_mem member)
    rw [← Poly.commonMonomial_scale content] at invertible shifted
    exact coprime_shift (admitted.scale _) nonempty invertible shifted

/-- A factored form that is found denotes the rational function. -/
theorem factored_denotes (represents : Represents r f) (ran : r.factored = .ok y) :
    y.denote = some f := by
  by_cases proper : f = 0
  · rw [Fraction.factored, if_pos (represents.isZero_iff.mpr proper)] at ran
    cases ran
    rw [proper, ← map_zero (algebraMap ℚ RationalFunction)]
    exact Expr.denote_number 0
  · obtain ⟨c, m, inner, factorisation⟩ := factored_factorises represents proper ran
    exact factorisation.denotes represents.denotes.den represents.denotes.regular

/-- Distributing and factoring keep the value. A rational expression that can
be simplified has a distributed form, which denotes the same rational function.
It has a factored form exactly if every term of the numerator can be divided by
the common monomial with exponents that are machine integers; that denotes the
rational function as well, and if it is not zero, it is factorised: by a content,
a monomial, and what is left when no common divisor and no common factor is. -/
theorem distributed_and_factored (guards : Guards) {e s : Expr} (rational : e.IsRational)
    (simplified : (Oracle.exact guards).simplify e = .ok s) :
    ∃ r f, Fraction.ofExpr guards.maxPower e = .ok r ∧ s = r.toExpr ∧ e.denote = some f ∧
      (∃ x, (Oracle.exact guards).expand e = .ok x ∧ x.denote = some f) ∧
      ((∃ y, (Oracle.exact guards).factor e = .ok y) ↔ r.num.DivisionFits) ∧
      ∀ y, (Oracle.exact guards).factor e = .ok y → y.denote = some f ∧
        (f ≠ 0 → ∃ c m inner, Factorisation f y c m inner r.den) := by
  obtain ⟨r, normal, rfl⟩ := map_eq_ok simplified
  obtain ⟨f, denotes, represents⟩ := (normalises guards.maxPower rational).of_ok normal
  have trimmed := (ofExpr_trimmed guards.maxPower rational).of_ok normal
  obtain ⟨x, expanded, value⟩ := expanded_denotes represents trimmed
  have factor : (Oracle.exact guards).factor e = r.factored := by
    simp only [Oracle.exact, normal]
    rfl
  refine ⟨r, f, normal, rfl, denotes, ⟨x, ?_, value⟩, ?_, fun y ran => ?_⟩
  · simp only [Oracle.exact, normal]
    exact expanded
  · rw [factor, factored_ok_iff represents]
  · rw [factor] at ran
    exact ⟨factored_denotes represents ran, fun proper => factored_factorises represents proper ran⟩

/-- The quotient of `4·x³ + 6·x²/y` and `x + y`. -/
def splitQuotient : Expr :=
  .product [.sum [.product [.number 4, .power (.symbol "x") (.int 3)],
      .product [.number 6, .power (.symbol "x") (.int 2), .power (.symbol "y") (.int (-1))]],
    .power (.sum [.symbol "x", .symbol "y"]) (.int (-1))]

/-- The content and the monomial `2·x²/y`, `3 + 2·x·y`, and the reciprocal of `x + y`. -/
def splitFactors : Expr :=
  .product [.product [.number 2, .power (.symbol "x") (.int 2), .power (.symbol "y") (.int (-1))],
    .sum [.number 3, .product [.number 2, .symbol "x", .symbol "y"]],
    .power (.sum [.symbol "x", .symbol "y"]) (.int (-1))]

theorem splitQuotient_isRational : splitQuotient.IsRational := by
  have power : ∀ x n, (Expr.power (.symbol x) (.int n)).IsRational := fun x n =>
    .power n (.symbol x)
  have numerator : (Expr.sum [.product [.number 4, .power (.symbol "x") (.int 3)],
      .product [.number 6, .power (.symbol "x") (.int 2),
        .power (.symbol "y") (.int (-1))]]).IsRational :=
    .sum (by simpa using ⟨.product (by simpa using ⟨.number 4, power _ _⟩),
      .product (by simpa using ⟨.number 6, power _ _, power _ _⟩)⟩)
  have denominator : (Expr.sum [.symbol "x", .symbol "y"]).IsRational :=
    .sum (by simpa using ⟨.symbol "x", .symbol "y"⟩)
  exact .product (by simpa using ⟨numerator, .power (-1) denominator⟩)

theorem distributed_and_factored_splitQuotient :
    ∃ f, splitQuotient.denote = some f ∧
      (∃ x, (Oracle.exact {}).expand splitQuotient = .ok x ∧ x.denote = some f) ∧
      (Oracle.exact {}).factor splitQuotient = .ok splitFactors ∧ splitFactors.denote = some f ∧
      ∃ c m inner den, Factorisation f splitFactors c m inner den := by
  have simplified : (Oracle.exact {}).simplify splitQuotient =
      .ok (.product [.sum [.product [.number 6, .power (.symbol "x") (.int 2),
          .power (.symbol "y") (.int (-1))], .product [.number 4, .power (.symbol "x") (.int 3)]],
        .power (.sum [.symbol "x", .symbol "y"]) (.int (-1))]) := by decide +kernel
  have factored : (Oracle.exact {}).factor splitQuotient = .ok splitFactors := by decide +kernel
  obtain ⟨r, f, normal, -, denotes, distributed, -, found⟩ :=
    distributed_and_factored {} splitQuotient_isRational simplified
  obtain ⟨value, factorises⟩ := found _ factored
  obtain ⟨g, denotes', represents⟩ := (normalises 64 splitQuotient_isRational).of_ok normal
  obtain rfl := Option.some.inj (denotes.symm.trans denotes')
  have proper : f ≠ 0 := by
    have nonzero : (Fraction.ofExpr 64 splitQuotient).map Fraction.isZero = .ok false := by
      decide +kernel
    rw [normal] at nonzero
    rw [ne_eq, ← represents.isZero_iff, Except.ok.inj nonzero]
    exact Bool.false_ne_true
  obtain ⟨c, m, inner, factorisation⟩ := factorises proper
  exact ⟨f, denotes, distributed, factored, value, c, m, inner, r.den, factorisation⟩

end RationalFunction

end Discharge
