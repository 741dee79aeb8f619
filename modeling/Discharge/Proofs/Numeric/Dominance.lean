import Discharge.Oracle
import Discharge.Proofs.Normal.Irreducible
import Discharge.Proofs.Normal.Quotient
import Discharge.Proofs.Numeric.Literal

/-! Exponentials against powers at infinity. The normal form of
`c · x ^ k · exp(q · x)` is a single term, whose rate is the binary number nearest
to `q`. A rate that is distinguishable from zero decides the limit, whatever the
power; one that is not leaves it to the power. -/

namespace Discharge

open Binary64

variable {x : String} {c q : ℚ} {k : Int} {max : Nat}

/-! ## The normal form -/

/-- A multiple of the variable. -/
def linear (x : String) (q : ℚ) : Poly := .term (.ofAtom (.symbol x) 1) q

theorem linear_of_ne_zero (nonzero : q ≠ 0) : linear x q = ⟨[(⟨[(.symbol x, 1)], .zero⟩, q)]⟩ :=
  if_neg nonzero

/-- `x ^ k · exp(q · x)`. -/
def exponentialMonomial (x : String) (k : Int) (q : ℚ) : Monomial :=
  ⟨(Monomial.ofAtom (.symbol x) k).factors, linear x q⟩

theorem turned_linear (x : String) (q : ℚ) :
    ((linear x q).coefficient? Monomial.halfTurn).bind Poly.unitRoot? = none := by
  have other : (Monomial.halfTurn == Monomial.ofAtom (.symbol x) 1) = false :=
    beq_eq_false_iff_ne.mpr fun same => by
      have length := congrArg (fun m => m.factors.length) same
      simp [Monomial.halfTurn, Monomial.ofAtom] at length
  unfold linear Poly.term
  split
  · rfl
  · simp [Poly.coefficient?, List.lookup_cons, other]

/-- A power of the variable times an exponential without angles has nothing to reduce. -/
theorem irreducible_of_turned {m : Monomial} (factors : m.factors = (Monomial.ofAtom (.symbol x) k).factors)
    (turned : (m.exp.coefficient? Monomial.halfTurn).bind Poly.unitRoot? = none) :
    m.Irreducible := by
  have factor : ∀ f ∈ m.factors, f = (.symbol x, k) ∧ k ≠ 0 := by
    intro f member
    rw [factors] at member
    unfold Monomial.ofAtom at member
    dsimp only at member
    split_ifs at member with zero
    · cases member
    · exact ⟨List.mem_singleton.mp member, zero⟩
  refine ⟨fun f member => ?_, fun f member => ?_, fun f member => ?_, turned⟩
  · obtain ⟨rfl, nonzero⟩ := factor f member
    exact nonzero
  · obtain ⟨rfl, -⟩ := factor f member
    rfl
  · obtain ⟨rfl, -⟩ := factor f member
    rfl

theorem irreducible_power (x : String) (k : Int) : (Monomial.ofAtom (.symbol x) k).Irreducible :=
  irreducible_of_turned rfl rfl

theorem irreducible_exponential (x : String) (q : ℚ) :
    (Monomial.exponential (linear x q)).Irreducible :=
  irreducible_of_turned (x := x) (k := 0) rfl (turned_linear x q)

theorem irreducible_exponentialMonomial (x : String) (k : Int) (q : ℚ) :
    (exponentialMonomial x k q).Irreducible :=
  irreducible_of_turned rfl (turned_linear x q)

theorem combine_exponential (x : String) (k : Int) (q : ℚ) :
    (Monomial.ofAtom (.symbol x) k).combine (.exponential (linear x q)) =
      .ok (exponentialMonomial x k q) := by
  simp [Monomial.combine, Monomial.exponential, exponentialMonomial, Monomial.ofAtom, Poly.add,
    Poly.zero]
  generalize linear x q = p
  cases p
  rfl

namespace Fraction

/-- A multiple of the variable, as a canonical form. -/
theorem ofExpr_linear (max : Nat) (x : String) (q : ℚ) :
    ofExpr max (.product [.number q, .symbol x]) = .ok (ofPoly (linear x q)) := by
  have first : one.mul (constant q) = .ok (constant q) := by
    have product := mul_term (Monomial.one_combine .one) Monomial.irreducible_one 1 q
    rwa [one_mul] at product
  have second : (constant q).mul (ofAtom (.symbol x)) = .ok (ofPoly (linear x q)) := by
    have product := mul_term (Monomial.one_combine (.ofAtom (.symbol x) 1))
      (irreducible_power x 1) q 1
    rwa [mul_one] at product
  simp only [ofExpr, ofProduct, bind, Except.bind, first, second]

/-- The exponential of a multiple of the variable. -/
theorem exp_linear (max : Nat) (x : String) (nonzero : q ≠ 0) :
    (ofPoly (linear x q)).exp max = .ok (ofPoly (.term (.exponential (linear x q)) 1)) := by
  have reduced := Monomial.reduce_irreducible (irreducible_exponential x q)
  have product : one.mul (ofPoly (.term (.exponential (linear x q)) 1)) =
      .ok (ofPoly (.term (.exponential (linear x q)) 1)) := by
    have product := mul_term (Monomial.one_combine (.exponential (linear x q)))
      (irreducible_exponential x q) 1 1
    rwa [one_mul] at product
  rw [linear_of_ne_zero nonzero] at reduced product ⊢
  unfold exp
  change ((Monomial.exponential ⟨[(⟨[(.symbol x, 1)], .zero⟩, q)]⟩).reduce >>= fun p =>
    one.mul (ofPoly p)) = _
  rw [reduced]
  exact product

/-- A power of the variable is found if its exponent is a machine integer within
the guard. -/
theorem ofExpr_power_ensures (max : Nat) (x : String) (k : Int) :
    Ensures (ofExpr max (.power (.symbol x) (.int k))) (· = ofPower (.symbol x) k)
      fun e => (fitsInt64 k = false ∨ max < k.natAbs) ∧ e.IsTooLarge := by
  have exponent : (constant k).constant? = some (k : ℚ) := constant?_constant _
  have power : ofExpr max (.power (.symbol x) (.int k)) = (ofAtom (.symbol x)).powRat k max := by
    simp only [ofExpr, Expr.int, bind, Except.bind, pow, exponent]
  rw [power, powRat, Rat.den_intCast, Rat.num_intCast, if_pos rfl]
  cases fits : fitsInt64 k with
  | false => exact ⟨.inl rfl, _, rfl⟩
  | true =>
    change Ensures ((ofAtom (.symbol x)).powInt k max) _ _
    rw [powInt_ofAtom max fits (fun _ => rfl) fun l _ _ => irreducible_power x l]
    split
    · exact ⟨.inr ‹_›, _, rfl⟩
    · rfl

theorem ofExpr_power {r : Fraction} (normal : ofExpr max (.power (.symbol x) (.int k)) = .ok r) :
    r = ofPower (.symbol x) k :=
  (ofExpr_power_ensures max x k).of_ok normal

end Fraction

/-- `c · x ^ k · exp(q · x)`. -/
def exponentialTerm (x : String) (c : ℚ) (k : Int) (q : ℚ) : Expr :=
  .product [.number c, .power (.symbol x) (.int k), .apply .exp (.product [.number q, .symbol x])]

theorem Fraction.ofExpr_exponentialTerm {r : Fraction} (nonzero : q ≠ 0)
    (normal : ofExpr max (exponentialTerm x c k q) = .ok r) :
    r = ofPoly (.term (exponentialMonomial x k q) c) := by
  have first : one.mul (constant c) = .ok (constant c) := by
    have product := mul_term (Monomial.one_combine .one) Monomial.irreducible_one 1 c
    rwa [one_mul] at product
  have second : (constant c).mul (ofPower (.symbol x) k) =
      .ok (ofPoly (.term (.ofAtom (.symbol x) k) c)) := by
    have product := mul_term (Monomial.one_combine (.ofAtom (.symbol x) k))
      (irreducible_power x k) c 1
    rwa [mul_one] at product
  have third : (ofPoly (.term (.ofAtom (.symbol x) k) c)).mul
      (ofPoly (.term (.exponential (linear x q)) 1)) =
        .ok (ofPoly (.term (exponentialMonomial x k q) c)) := by
    have product := mul_term (combine_exponential x k q)
      (irreducible_exponentialMonomial x k q) c 1
    rwa [mul_one] at product
  unfold exponentialTerm at normal
  rw [ofExpr, ofProduct, ofExpr] at normal
  change (one.mul (constant c) >>= _) = _ at normal
  rw [first] at normal
  change ofProduct max (constant c) _ = _ at normal
  rw [ofProduct] at normal
  obtain ⟨power, normalPower, normal⟩ := bind_eq_ok normal
  rw [ofExpr_power normalPower, second] at normal
  change ofProduct max _ _ = _ at normal
  rw [ofProduct, ofExpr, ofExpr_linear] at normal
  change (((ofPoly (linear x q)).exp max) >>= _) = _ at normal
  rw [exp_linear max x nonzero] at normal
  change ((ofPoly (.term (.ofAtom (.symbol x) k) c)).mul _ >>= _) = _ at normal
  rw [third] at normal
  change ofProduct max _ [] = _ at normal
  rw [ofProduct] at normal
  exact (Except.ok.inj normal).symm

/-! ## Rates -/

namespace Limit

/-- The least rate that is not taken for zero. -/
def leastRate : ℚ := 9903520314283043 / 2 ^ 93

theorem midpoint_tolerance : Binary64.midpoint 4427486594234968593 = leastRate := by
  have parts : magnitudeParts 4427486594234968593 = (4951760157141521, -92) := by decide
  rw [Binary64.midpoint, parts, leastRate, show (-92 - 1 : Int) = -(93 : Nat) from rfl, zpow_neg,
    zpow_natCast]
  norm_num

/-- A rate is told from zero above the tolerance. -/
theorem distinguished_iff (nonzero : q ≠ 0) (moderate : |q| < overflow) :
    (approxOf q - 0).abs > Growth.tolerance ↔ leastRate ≤ |q| := by
  have finite := magnitudeOf_lt_infinity_iff.mpr moderate
  have tolerance : Growth.tolerance = signed .positive 4427486594234968593 := by decide
  rw [approxOf, sub_zero_signed _ finite, abs_signed _ finite, tolerance, gt_iff_lt,
    signed_lt_iff (by decide) finite, lt_magnitudeOf_iff nonzero (by decide), midpoint_tolerance,
    le_iff_lt_or_eq]
  simp

theorem linearCoefficient_linear (nonzero : q ≠ 0) :
    Antiderivative.linearCoefficient? (linear x q) x = some (.constant q) := by
  rw [linear_of_ne_zero nonzero]
  simp [Antiderivative.linearCoefficient?, Antiderivative.linearTerms?, Monomial.count,
    Monomial.mentions, factorsMention, Poly.mentions, Poly.zero, termsMention, Poly.sum,
    Poly.sumRounds, Poly.constant]

theorem isZero_linear (nonzero : q ≠ 0) : (linear x q).isZero = false := by
  simp [linear, Poly.term, nonzero, Poly.isZero]

/-- The rate of an exponential is the number nearest to its coefficient. -/
theorem exponentialGrowth_linear (nonzero : q ≠ 0) (moderate : |q| < overflow) :
    exponentialGrowth x (linear x q) = .ok ⟨approxOf q, 0, 0⟩ := by
  have added : 0 + approxOf q = approxOf q := by
    rw [approxOf, zero_add_signed _ (magnitudeOf_lt_infinity_iff.mpr moderate), settledSign_settled]
  have value : numericValue (.constant q) "exponential rate" = .ok (.real (approxOf q)) := by
    rw [numericValue, Poly.approx?_constant nonzero moderate, Option.filter_some,
      Approx.isFinite_real moderate]
    rfl
  unfold exponentialGrowth
  rw [isZero_linear nonzero, linearCoefficient_linear nonzero]
  dsimp only
  rw [value]
  change Except.ok (Growth.mk (0 + approxOf q) 0 0) = _
  rw [added]

theorem exponentialGrowth_infinite (immoderate : overflow ≤ |q|) :
    exponentialGrowth x (linear x q) = .error (.unsupported "non-numeric exponential rate") := by
  have nonzero : q ≠ 0 := by
    rintro rfl
    exact absurd immoderate (by norm_num [overflow])
  have value : numericValue (.constant q) "exponential rate" =
      .error (.unsupported "non-numeric exponential rate") := by
    rw [numericValue, Poly.approx?_constant_infinite immoderate, Option.filter_some,
      Approx.isFinite_infinite]
    rfl
  unfold exponentialGrowth
  rw [isZero_linear nonzero, linearCoefficient_linear nonzero]
  dsimp only
  rw [value]
  rfl

theorem factorsGrowth_power (growth : Growth) :
    factorsGrowth x growth (Monomial.ofAtom (.symbol x) k).factors = .ok (growth.addDegree k) := by
  by_cases zero : k = 0
  · simp [Monomial.ofAtom, zero, factorsGrowth, Growth.addDegree]
  · simp [Monomial.ofAtom, zero, factorsGrowth, atomGrowth, Atom.mentions, bind, Except.bind]

/-- Everything in the term depends on the variable. -/
theorem split_exponentialMonomial (nonzero : q ≠ 0) :
    (exponentialMonomial x k q).split x = (exponentialMonomial x k q, .one) := by
  unfold exponentialMonomial
  rw [linear_of_ne_zero nonzero]
  by_cases zero : k = 0
  · simp [Monomial.ofAtom, zero, Monomial.split, List.partition, List.partition.loop,
      Monomial.mentions, factorsMention, Atom.mentions, Monomial.one, Poly.zero]
  · simp [Monomial.ofAtom, zero, Monomial.split, List.partition, List.partition.loop,
      Monomial.mentions, factorsMention, Atom.mentions, Monomial.one, Poly.zero]

/-- A single group dominates as soon as its growth is known. -/
theorem dominantOf_single (g : Group) :
    dominantOf x [g] = g.growth.map fun growth => some ⟨g.key, g.coefficient, growth⟩ := by
  obtain ⟨key, coefficient, growth⟩ := g
  cases growth <;> rfl

theorem dominant_exponential {c : ℚ} (proper : c ≠ 0) (nonzero : q ≠ 0) :
    dominant x (.term (exponentialMonomial x k q) c) =
      (exponentialGrowth x (linear x q)).map fun growth =>
        some ⟨exponentialMonomial x k q, .constant c, growth.addDegree k⟩ := by
  have split := split_exponentialMonomial (x := x) (k := k) nonzero
  rw [Poly.term_of_ne_zero proper, dominant]
  unfold exponentialMonomial at split ⊢
  rw [groups, split, groups, dominantOf_single]
  dsimp only
  cases exponentialGrowth x (linear x q) with
  | error e => rfl
  | ok growth =>
    change (factorsGrowth x growth (Monomial.ofAtom (.symbol x) k).factors).map _ = _
    rw [factorsGrowth_power]
    rfl

theorem dominant_one : dominant x .one = .ok (some ⟨.one, .one, .flat⟩) := by
  change dominant x ⟨[(⟨[], .zero⟩, 1)]⟩ = _
  rw [dominant, groups, groups]
  rfl

theorem underflow_lt_leastRate : underflow < leastRate := by
  have power : (2 : ℚ) ^ 93 ≤ 2 ^ 1075 := pow_le_pow_right₀ one_le_two (by norm_num)
  calc underflow ≤ 1 / 2 ^ 93 := one_div_le_one_div_of_le (by norm_num) power
    _ < leastRate := by norm_num [leastRate]

/-- Against a constant, a distinguished rate decides by its sign, and any other
leaves it to the degree. -/
theorem compare_flat (nonzero : q ≠ 0) (moderate : |q| < overflow) :
    ((⟨approxOf q, 0, 0⟩ : Growth).addDegree k).compare .flat =
      if leastRate ≤ |q| then (if q < 0 then .lt else .gt) else compareRat k 0 := by
  have apart := distinguished_iff nonzero moderate
  unfold Growth.compare
  change (if (approxOf q - 0).abs > _ then (if approxOf q < 0 then _ else if 0 < approxOf q then _
    else _) else _) = _
  by_cases distinguished : leastRate ≤ |q|
  · have visible := underflow_lt_leastRate.trans_le distinguished
    have least : 0 < underflow := by norm_num [underflow]
    rw [if_pos (apart.mpr distinguished), if_pos distinguished]
    simp only [approxOf_negative_iff moderate, zero_lt_approxOf_iff moderate]
    rcases lt_abs.mp visible with positive | negative
    · rw [if_neg (by linarith), if_pos positive, if_neg (by linarith)]
    · rw [if_pos (by linarith), if_pos (by linarith)]
  · have degree : (Growth.addDegree ⟨approxOf q, 0, 0⟩ k).degree = k := zero_add _
    rw [if_neg (mt apart.mp distinguished), if_neg distinguished, degree]
    change (compareRat k 0).then .eq = _
    cases compareRat k 0 <;> rfl

end Limit

/-! ## Limits -/

theorem mentions_exponentialMonomial (proper : c ≠ 0) (nonzero : q ≠ 0) :
    (Fraction.ofPoly (.term (exponentialMonomial x k q) c)).mentions x = true := by
  simp [Fraction.ofPoly, Poly.term, proper, Fraction.mentions, Poly.mentions, termsMention,
    exponentialMonomial, Monomial.mentions, linear_of_ne_zero nonzero, factorsMention,
    Atom.mentions]

theorem exponentialMonomial_ne_one (nonzero : q ≠ 0) : exponentialMonomial x k q ≠ .one := by
  intro same
  have constant : (linear x q).isZero = true := congrArg (fun m => m.exp.isZero) same
  rw [Limit.isZero_linear nonzero] at constant
  cases constant

/-- The growth at infinity of a single term with an exponential. -/
theorem Limit.infinite_exponentialMonomial (shown : Fraction) (proper : c ≠ 0) (nonzero : q ≠ 0) :
    infinite (.ofPoly (.term (exponentialMonomial x k q) c)) x shown .posInfinity =
      if |q| < overflow then
        match (if leastRate ≤ |q| then (if q < 0 then .lt else .gt) else compareRat k 0) with
        | .lt => .ok .zero
        | .gt => .error (.divergent
            (shown.toExpr.render ++ " grows without bound as " ++ x ++ " -> " ++ "oo"))
        | .eq => .error (.indeterminate
            (shown.toExpr.render ++ " oscillates or has no dominant term as " ++ x ++ " -> " ++ "oo"))
      else .error (.unsupported "non-numeric exponential rate") := by
  have num : (Fraction.ofPoly (.term (exponentialMonomial x k q) c)).num =
      .term (exponentialMonomial x k q) c := rfl
  have den : (Fraction.ofPoly (.term (exponentialMonomial x k q) c)).den = .one := rfl
  unfold infinite
  rw [mentions_exponentialMonomial proper nonzero, num, den, dominant_exponential proper nonzero,
    dominant_one]
  by_cases moderate : |q| < overflow
  · rw [if_pos moderate, exponentialGrowth_linear nonzero moderate, ← compare_flat nonzero moderate]
    simp only [Except.map, bind, Except.bind, Bool.not_true, Bool.false_eq_true, if_false]
    cases (Growth.addDegree ⟨approxOf q, 0, 0⟩ k).compare .flat with
    | lt => rfl
    | gt => rfl
    | eq =>
      dsimp only
      rw [if_neg (exponentialMonomial_ne_one nonzero)]
      rfl
  · rw [if_neg moderate, exponentialGrowth_infinite (not_lt.mp moderate)]
    rfl

/-- What the limit of `c · x ^ k · exp(q · x)` comes to. -/
theorem limit_exponentialTerm (guards : Guards) {r : Fraction} (proper : c ≠ 0) (nonzero : q ≠ 0)
    (normal : Fraction.ofExpr guards.maxPower (exponentialTerm x c k q) = .ok r) :
    (Oracle.exact guards).limit (exponentialTerm x c k q) x .posInfinity =
      if |q| < overflow then
        match (if Limit.leastRate ≤ |q| then (if q < 0 then .lt else .gt) else compareRat k 0) with
        | .lt => .ok .zero
        | .gt => .error (.error (.divergent
            (r.toExpr.render ++ " grows without bound as " ++ x ++ " -> " ++ "oo")))
        | .eq => .error (.error (.indeterminate
            (r.toExpr.render ++ " oscillates or has no dominant term as " ++ x ++ " -> " ++ "oo")))
      else .error (.unsupported "non-numeric exponential rate") := by
  have form := Fraction.ofExpr_exponentialTerm nonzero normal
  have mentioned : r.mentions x = true := form ▸ mentions_exponentialMonomial proper nonzero
  have infinite : r.limit x .posInfinity guards = Limit.infinite r x r .posInfinity := by
    unfold Fraction.limit
    rw [mentioned]
    rfl
  have growth := Limit.infinite_exponentialMonomial (x := x) (k := k) r proper nonzero
  rw [← form] at growth
  change (Fraction.ofExpr guards.maxPower (exponentialTerm x c k q) >>=
    fun r => r.limit x .posInfinity guards >>= fun s => pure s.toExpr) = _
  rw [normal]
  change (r.limit x .posInfinity guards >>= fun s => pure s.toExpr) = _
  rw [infinite, growth]
  split
  · split <;> rfl
  · rfl

/-- An exponential with a growing exponent diverges and one with a decaying exponent
vanishes, whatever power of the variable stands beside it, if the rate is a finite
binary number. Between that and the tolerance the power only has to agree with the
exponential; a rate that is not finite is refused. -/
theorem exponential_dominates (guards : Guards) (x : String) {c q : ℚ} (k : Int) {r s : Fraction}
    (proper : c ≠ 0) (positive : 0 < q)
    (growing : Fraction.ofExpr guards.maxPower (exponentialTerm x c k q) = .ok r)
    (decaying : Fraction.ofExpr guards.maxPower (exponentialTerm x c k (-q)) = .ok s) :
    (q < overflow → Limit.leastRate ≤ q ∨ 0 < k → ∃ what,
      (Oracle.exact guards).limit (exponentialTerm x c k q) x .posInfinity =
        .error (.divergent what)) ∧
    (q < overflow → Limit.leastRate ≤ q ∨ k < 0 →
      (Oracle.exact guards).limit (exponentialTerm x c k (-q)) x .posInfinity = .ok .zero) ∧
    (overflow ≤ q → ∀ p ∈ [q, -q],
      (Oracle.exact guards).limit (exponentialTerm x c k p) x .posInfinity =
        .error (.unsupported "non-numeric exponential rate")) := by
  have grown := limit_exponentialTerm guards proper positive.ne' growing
  have decayed := limit_exponentialTerm guards proper (neg_ne_zero.mpr positive.ne') decaying
  rw [abs_neg, abs_of_pos positive] at decayed
  rw [abs_of_pos positive] at grown
  refine ⟨fun moderate decided => ?_, fun moderate decided => ?_, fun immoderate p member => ?_⟩
  · have order : (if Limit.leastRate ≤ q then (if q < 0 then .lt else .gt) else compareRat k 0) =
        Ordering.gt := by
      split_ifs with distinguished negative
      · linarith
      · rfl
      · have power := decided.resolve_left distinguished
        rw [compareRat, if_neg (by exact_mod_cast power.le.not_gt), if_neg (by exact_mod_cast power.ne')]
    rw [if_pos moderate, order] at grown
    exact ⟨_, grown⟩
  · have order : (if Limit.leastRate ≤ q then (if -q < 0 then .lt else .gt) else compareRat k 0) =
        Ordering.lt := by
      split_ifs with distinguished negative
      · rfl
      · linarith
      · have power := decided.resolve_left distinguished
        rw [compareRat, if_pos (by exact_mod_cast power)]
    rwa [if_pos moderate, order] at decayed
  · rw [if_neg immoderate.not_gt] at grown decayed
    simp only [List.mem_cons, List.not_mem_nil, or_false] at member
    rcases member with rfl | rfl
    · exact grown
    · exact decayed

theorem exponential_dominates_half :
    (∃ what, (Oracle.exact {}).limit (exponentialTerm "x" 3 (-2) (1 / 2)) "x" .posInfinity =
      .error (.divergent what)) ∧
    (Oracle.exact {}).limit (exponentialTerm "x" 3 (-2) (-(1 / 2))) "x" .posInfinity = .ok .zero := by
  have growing : Fraction.ofExpr 64 (exponentialTerm "x" 3 (-2) (1 / 2)) =
      .ok (.ofPoly (.term (exponentialMonomial "x" (-2) (1 / 2)) 3)) := by decide +kernel
  have decaying : Fraction.ofExpr 64 (exponentialTerm "x" 3 (-2) (-(1 / 2))) =
      .ok (.ofPoly (.term (exponentialMonomial "x" (-2) (-(1 / 2))) 3)) := by decide +kernel
  have moderate : (1 / 2 : ℚ) < overflow := one_half_lt_one.trans one_lt_overflow
  have distinguished : Limit.leastRate ≤ 1 / 2 := by norm_num [Limit.leastRate]
  obtain ⟨grown, decayed, -⟩ :=
    exponential_dominates {} "x" (-2) three_ne_zero one_half_pos growing decaying
  exact ⟨grown moderate (.inl distinguished), decayed moderate (.inl distinguished)⟩

/-- A rate beyond all binary numbers is refused in both directions, and one within
the tolerance leaves the limit to the power. -/
theorem extremeRates_not_dominant :
    (Oracle.exact {}).limit (exponentialTerm "x" 1 1 (10 ^ 400)) "x" .posInfinity =
        .error (.unsupported "non-numeric exponential rate") ∧
      (Oracle.exact {}).limit (exponentialTerm "x" 1 1 (-10 ^ 400)) "x" .posInfinity =
        .error (.unsupported "non-numeric exponential rate") ∧
      (Oracle.exact {}).limit (exponentialTerm "x" 1 (-1) (1 / 10 ^ 13)) "x" .posInfinity =
        .ok .zero := by
  refine ⟨by decide +kernel, by decide +kernel, by decide +kernel⟩

end Discharge
