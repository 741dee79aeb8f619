import Discharge.Oracle
import Discharge.Proofs.Normal.Symmetry
import Discharge.Proofs.Numeric.Dominance

/-! Powers of the variable under an exponential. Integrating
`x ^ k · exp(q · x)` by parts gives `k + 1` terms, one for each exponent up to `k`,
and each is under the same exponential. Whether there is an answer is left to the
guards on exponents and on the number of terms. -/

namespace Discharge

open Failure (IsTooLarge)

namespace Poly

/-! ## Series -/

/-- The terms `c n · m n`, for `length` numbers `n` from `start` on. -/
def series (m : ℕ → Monomial) (c : ℕ → ℚ) (start length : ℕ) : Poly :=
  ⟨(List.range' start length).map fun n => (m n, c n)⟩

variable {m m' : ℕ → Monomial} {c : ℕ → ℚ} {start length : ℕ} {p q r : Poly}

@[simp] theorem length_series : (series m c start length).terms.length = length := by
  simp [series]

theorem terms_series_succ : (series m c start (length + 1)).terms =
    (m start, c start) :: (series m c (start + 1) length).terms := by
  simp [series, List.range'_succ]

/-- A sequence of monomials that may stand in this order in a polynomial. -/
structure Ascending (m : ℕ → Monomial) : Prop where
  increasing : ∀ i j, i < j → Monomial.compare (m i) (m j) = .lt
  irreducible : ∀ n, (m n).Irreducible

theorem Ascending.reduced (ascending : Ascending m)
    (nonzero : ∀ n, start ≤ n → n < start + length → c n ≠ 0) :
    (series m c start length).Reduced := by
  refine ⟨⟨?_, fun t member => ?_⟩, fun t member => ?_⟩
  · exact List.pairwise_map.mpr ((List.pairwise_lt_range' 1).imp (ascending.increasing _ _))
  · obtain ⟨n, within, rfl⟩ := List.mem_map.mp member
    obtain ⟨above, below⟩ := List.mem_range'_1.mp within
    exact nonzero n above below
  · obtain ⟨n, -, rfl⟩ := List.mem_map.mp member
    exact ascending.irreducible n

/-- A term of a lower exponent is put in front. -/
theorem Ascending.add_term (ascending : Ascending m)
    (nonzero : ∀ n, start ≤ n → n < start + (length + 1) → c n ≠ 0) :
    (series m c (start + 1) length).add (.term (m start) (c start)) =
      series m c start (length + 1) := by
  have ordered : OrderedTerms ([(m start, c start)] ++ (series m c (start + 1) length).terms) := by
    rw [List.singleton_append, ← terms_series_succ]
    exact (ascending.reduced nonzero).ordered
  have head : c start ≠ 0 := nonzero start le_rfl (by omega)
  rw [Poly.add_comm, term_of_ne_zero head, add, mergeTerms_eq_append ordered,
    List.singleton_append, ← terms_series_succ]
  rfl

theorem timesTerm_series {n : Monomial} (combined : ∀ i, n.combine (m i) = .ok (m' i))
    (irreducible : ∀ i, (m' i).Irreducible) :
    timesTerm Monomial.reduce n 1 (series m c start length).terms =
      .ok ((series m' c start length).terms.map fun t => .term t.1 t.2) := by
  induction length generalizing start with
  | zero => rfl
  | succ length ih =>
    rw [terms_series_succ, terms_series_succ, timesTerm, combined, ih]
    change ((m' start).reduce >>= fun product => _) = _
    rw [Monomial.reduce_irreducible (irreducible start)]
    change Except.ok ((Poly.term (m' start) 1).scale (1 * c start) :: _) = _
    rw [scale_term, one_mul, one_mul]
    rfl

/-- A factor that keeps the order is multiplied into every term, if there are
not too many. -/
theorem term_mul_series {n : Monomial} (ascending : Ascending m')
    (combined : ∀ i, n.combine (m i) = .ok (m' i))
    (nonzero : ∀ n, start ≤ n → n < start + length → c n ≠ 0) :
    Ensures ((Poly.term n 1).mul (series m c start length))
      (fun p => length ≤ maxTerms ∧ p = series m' c start length)
      fun e => maxTerms < length ∧ IsTooLarge e := by
  have products : timesTerms Monomial.reduce (series m c start length).terms
      (Poly.term n 1).terms =
        .ok ((series m' c start length).terms.map fun t => .term t.1 t.2) := by
    rw [term_of_ne_zero one_ne_zero, timesTerms, timesTerm_series combined ascending.irreducible]
    change Except.ok (_ ++ []) = _
    rw [List.append_nil]
  have ordered := (ascending.reduced nonzero).ordered
  have ensures := mul_of_terms products ordered
  have fits : (Poly.term n 1).mul (series m c start length) = .ok (series m' c start length) ↔
      length ≤ maxTerms := by
    rw [(mul_returns products ordered).eq_ok_iff, length_series, length_series,
      term_of_ne_zero one_ne_zero]
    change 1 * length ≤ _ ∧ _ ↔ _
    omega
  cases ran : (Poly.term n 1).mul (series m c start length) with
  | ok p =>
    have value := ensures.of_ok ran
    exact ⟨fits.mp (value ▸ ran), value⟩
  | error e =>
    refine ⟨Nat.lt_of_not_le fun few => ?_, ensures.of_error ran⟩
    rw [fits.mpr few] at ran
    cases ran

end Poly

namespace Fraction

variable {p : Poly} {c : ℚ}

/-! ## Constants -/

theorem make_constant (reduced : p.Reduced) (nonzero : c ≠ 0) :
    make p (.constant c) = .ok (ofPoly (p.scale c⁻¹)) := by
  have single : Poly.constant c = ⟨[(.one, c)]⟩ := Poly.term_of_ne_zero nonzero
  by_cases zero : p.isZero = true
  · obtain ⟨ts⟩ := p
    obtain rfl : ts = [] := List.isEmpty_iff.mp zero
    unfold make Poly.scale
    rw [single, if_neg (inv_ne_zero nonzero)]
    rfl
  · unfold make
    rw [single, if_neg (by exact Bool.false_ne_true), if_neg zero]
    change (p.shift .one >>= fun q => pure (ofPoly (q.scale c⁻¹))) = _
    rw [Poly.shift_one reduced]
    rfl

theorem div_constant (reduced : p.Reduced) (few : p.terms.length ≤ maxTerms) (nonzero : c ≠ 0) :
    (ofPoly p).div (constant c) = .ok (ofPoly (p.scale c⁻¹)) := by
  have proper : (constant c).isZero = false := by
    change (Poly.term _ c).isZero = false
    rw [Poly.term_of_ne_zero nonzero]
    rfl
  have bottom : Poly.one.mul (.constant c) = .ok (.constant c) := by
    have product := Poly.mul_term (Monomial.one_combine .one) Monomial.irreducible_one 1 c
    rwa [one_mul] at product
  have top : p.mul .one = .ok p := (Poly.mul_one_returns reduced).eq_ok_iff.mpr few
  unfold div
  rw [proper]
  change (p.mul .one >>= fun num => Poly.one.mul (.constant c) >>= fun den => make num den) = _
  rw [top, bottom]
  exact make_constant reduced nonzero

/-- A power of a constant is within the guard if its exponent is. -/
theorem powInt_constant {n max : ℕ} (c : ℚ) (within : n ≤ max) :
    (constant c).powInt n max = .ok (constant (c ^ n)) := by
  have times (x y : Fraction) (a b : ℚ) (left : x = constant a) (right : y = constant b) :
      Ensures (x.mul y) (· = constant (a * b)) fun _ => False := by
    rw [left, right]
    exact (mul_term (Monomial.one_combine .one) Monomial.irreducible_one a b).symm ▸ rfl
  have power := squaring_ensures (fun r a => r = constant a) times n (x := one) (y := constant c)
    (a := 1) (b := c) rfl rfl
  rw [one_mul] at power
  unfold powInt
  rw [Int.natAbs_natCast, if_neg (Nat.not_lt.mpr within), if_neg (Int.not_lt.mpr (Int.natCast_nonneg n))]
  change squaring mul one (constant c) n = _
  cases ran : squaring mul one (constant c) n with
  | ok r => rw [power.of_ok ran]
  | error e => exact (power.of_error ran).elim

end Fraction

namespace Antiderivative

variable {x : String} {q : ℚ} {k max : ℕ}

/-! ## Integration by parts -/

/-- What stands before `x ^ n · exp(q · x)` in the antiderivative of `x ^ k · exp(q · x)`. -/
def partsCoefficient (q : ℚ) (k n : ℕ) : ℚ :=
  (-1) ^ (k - n) * (k.descFactorial (k - n) : ℚ) / q ^ (k - n + 1)

theorem partsCoefficient_ne_zero (nonzero : q ≠ 0) (k n : ℕ) : partsCoefficient q k n ≠ 0 := by
  have falling : (k.descFactorial (k - n) : ℚ) ≠ 0 :=
    Nat.cast_ne_zero.mpr (Nat.descFactorial_pos.mpr (Nat.sub_le k n)).ne'
  have sign : (-1 : ℚ) ^ (k - n) ≠ 0 := pow_ne_zero _ (by norm_num)
  exact div_ne_zero (mul_ne_zero sign falling) (pow_ne_zero _ nonzero)

/-- Powers of the variable under one exponential are ordered by their exponents. -/
theorem compare_powers (x : String) (p : Poly) {i j : ℕ} (less : i < j) :
    Monomial.compare ⟨(Monomial.ofAtom (.symbol x) i).factors, p⟩
      ⟨(Monomial.ofAtom (.symbol x) j).factors, p⟩ = .lt := by
  have same : Atom.compare (.symbol x) (.symbol x) = .eq := (Atom.compare_eq_iff _ _).mpr rfl
  have order : compareInt i j = .lt := (compareInt_lt_iff i j).mpr (by exact_mod_cast less)
  have later : j ≠ 0 := by omega
  by_cases zero : i = 0
  · simp [Monomial.ofAtom, zero, later, Monomial.compare, compareFactors]
  · simp [Monomial.ofAtom, zero, later, Monomial.compare, compareFactors, same, order]

theorem ascending_powers (x : String) : Poly.Ascending fun n => .ofAtom (.symbol x) n :=
  ⟨fun _ _ => compare_powers x .zero, fun n => irreducible_power x n⟩

theorem ascending_exponentials (x : String) (q : ℚ) :
    Poly.Ascending fun n => exponentialMonomial x n q :=
  ⟨fun _ _ => compare_powers x (linear x q), fun n => irreducible_exponentialMonomial x n q⟩

/-- The part without the exponential, from the exponent `start` on. -/
def parts (x : String) (q : ℚ) (k start length : ℕ) : Poly :=
  .series (fun n => .ofAtom (.symbol x) n) (partsCoefficient q k) start length

/-- One round gives one term. -/
theorem parts_term (nonzero : q ≠ 0) (x : String) (n j : ℕ) :
    (powerOf x n).div (.constant (q ^ (j + 1))) =
        .ok (.ofPoly (.term (.ofAtom (.symbol x) n) (q ^ (j + 1))⁻¹)) ∧
      (Fraction.ofPoly (.term (.ofAtom (.symbol x) n) (q ^ (j + 1))⁻¹)).scale
        (if j % 2 = 0 then ((n + j).descFactorial j : ℚ) else -((n + j).descFactorial j : ℚ)) =
          .ofPoly (.term (.ofAtom (.symbol x) n) (partsCoefficient q (n + j) n)) := by
  constructor
  · have single : (Poly.term (.ofAtom (.symbol x) n) 1).terms.length ≤ maxTerms := by
      rw [Poly.term_of_ne_zero one_ne_zero]
      exact (by decide : 1 ≤ maxTerms)
    have quotient := Fraction.div_constant (.term (irreducible_power x n) 1) single
      (pow_ne_zero (j + 1) nonzero)
    rwa [Poly.scale_term, one_mul] at quotient
  · have sign : (if j % 2 = 0 then ((n + j).descFactorial j : ℚ) else -((n + j).descFactorial j : ℚ)) =
        (-1) ^ j * (n + j).descFactorial j := by
      split
      · rename_i even
        rw [(Nat.even_iff.mpr even).neg_one_pow, one_mul]
      · rename_i odd
        rw [(Nat.not_even_iff_odd.mp (mt Nat.even_iff.mp odd)).neg_one_pow, neg_one_mul]
    have proper : (-1) ^ j * ((n + j).descFactorial j : ℚ) ≠ 0 :=
      mul_ne_zero (pow_ne_zero _ (by norm_num))
        (Nat.cast_ne_zero.mpr (Nat.descFactorial_pos.mpr (Nat.le_add_left j n)).ne')
    rw [sign, Fraction.scale, if_neg proper, partsCoefficient, Nat.add_sub_cancel_left,
      div_eq_inv_mul, ← Poly.scale_term]
    rfl

/-- The terms of the rounds that are done stand in the total, and the next one
is put in front. -/
theorem byParts_eq (nonzero : q ≠ 0) (within : k < max) (rounds j : ℕ) (all : rounds + j = k + 1) :
    byParts (.constant q) x k max rounds j (k.descFactorial j) (.ofPoly (parts x q k rounds j)) =
      .ok (.ofPoly (parts x q k 0 (k + 1))) := by
  induction rounds generalizing j with
  | zero =>
    rw [zero_add] at all
    rw [byParts, all]
  | succ rounds ih =>
    obtain rfl : k = rounds + j := by omega
    have coefficients (n : ℕ) := partsCoefficient_ne_zero nonzero (rounds + j) n
    have exponent : ((rounds + j : ℕ) : Int) - j = (rounds : Int) := by omega
    have falling : ((rounds + j).descFactorial j : ℚ) * ((((rounds + j : ℕ) : Int) : ℚ) - j) =
        (rounds + j).descFactorial (j + 1) := by
      rw [Nat.descFactorial_succ, Nat.add_sub_cancel]
      push_cast
      ring
    have power : (Fraction.constant q).powInt (j + 1 : ℕ) max = .ok (.constant (q ^ (j + 1))) :=
      Fraction.powInt_constant q (by omega)
    obtain ⟨quotient, scaled⟩ := parts_term nonzero x rounds j
    have reduced : (parts x q (rounds + j) (rounds + 1) j).Reduced :=
      (ascending_powers x).reduced fun n _ _ => coefficients n
    have total := Fraction.add_ofPoly reduced
      (.term (irreducible_power x rounds) (partsCoefficient q (rounds + j) rounds))
    rw [parts] at total
    rw [(ascending_powers x).add_term fun n _ _ => coefficients n] at total
    rw [byParts, exponent, ← Nat.cast_succ, power]
    simp only [bind, Except.bind, quotient, scaled]
    rw [parts, total]
    change byParts _ _ _ _ _ _ (_ * ((((rounds + j : ℕ) : Int) : ℚ) - j)) _ = _
    rw [falling]
    exact ih (j + 1) (by omega)

/-! ## The antiderivative -/

/-- The antiderivative of `x ^ k · exp(q · x)`. -/
def exponentialParts (x : String) (q : ℚ) (k : ℕ) : Poly :=
  .series (fun n => exponentialMonomial x n q) (partsCoefficient q k) 0 (k + 1)

theorem exponentialParts_reduced (nonzero : q ≠ 0) : (exponentialParts x q k).Reduced :=
  (ascending_exponentials x q).reduced fun n _ _ => partsCoefficient_ne_zero nonzero k n

theorem linearTerm_constant (nonzero : q ≠ 0) (x : String) :
    linearTerm (.constant q) x = linear x q := by
  rw [Poly.constant, Poly.term_of_ne_zero nonzero]
  simp [linearTerm, Monomial.setCount, linear, Monomial.ofAtom, Poly.sum, Poly.sumRounds]

/-- Below the guard on exponents, it is refused exactly if it has too many terms. -/
theorem powerExp_ensures (nonzero : q ≠ 0) (within : k < max) :
    Ensures (powerExp (.constant q) x k max)
      (fun r => k < maxTerms ∧ r = .ofPoly (exponentialParts x q k))
      fun e => maxTerms ≤ k ∧ IsTooLarge e := by
  have coefficients (n : ℕ) := partsCoefficient_ne_zero nonzero k n
  have solved : byParts (.ofPoly (.constant q)) x k max (k + 1) 0 1 .zero =
      .ok (.ofPoly (parts x q k 0 (k + 1))) := by
    have solved := byParts_eq (x := x) nonzero within (k + 1) 0 rfl
    rwa [Nat.descFactorial_zero, Nat.cast_one] at solved
  have whole : powerExp (.constant q) x k max =
      (Poly.term (.exponential (linear x q)) 1).mul (parts x q k 0 (k + 1)) >>= fun p =>
        Fraction.make p .one := by
    rw [powerExp, if_neg within.not_gt, linearTerm_constant nonzero, solved, ← Fraction.mul_ofPoly]
    rfl
  have combined (n : ℕ) : (Monomial.exponential (linear x q)).combine (.ofAtom (.symbol x) n) =
      .ok (exponentialMonomial x n q) := by
    rw [Monomial.combine_comm, combine_exponential]
  have multiplied : Ensures ((Poly.term (.exponential (linear x q)) 1).mul (parts x q k 0 (k + 1)))
      (fun p => k + 1 ≤ maxTerms ∧ p = exponentialParts x q k)
      fun e => maxTerms < k + 1 ∧ IsTooLarge e :=
    Poly.term_mul_series (ascending_exponentials x q) combined fun n _ _ => coefficients n
  rw [whole]
  refine (multiplied.mono_error fun e many => ?_).bind fun p product => ?_
  · exact ⟨Nat.le_of_lt_succ many.1, many.2⟩
  · obtain ⟨few, rfl⟩ := product
    rw [Fraction.make_one (exponentialParts_reduced nonzero)]
    exact ⟨few, rfl⟩

theorem shape_exponentialMonomial (nonzero : q ≠ 0) :
    shape (exponentialMonomial x k q) x = .ok ⟨k, false, some (.constant q)⟩ := by
  have factors : shapeFactors x 0 false (exponentialMonomial x k q).factors = .ok ((k : Int), false) := by
    by_cases zero : k = 0
    · simp [exponentialMonomial, Monomial.ofAtom, zero, shapeFactors]
    · simp [exponentialMonomial, Monomial.ofAtom, zero, shapeFactors]
  have exponent : (exponentialMonomial x k q).exp = linear x q := rfl
  rw [shape, factors]
  simp only [bind, Except.bind, exponent, Limit.isZero_linear nonzero,
    Limit.linearCoefficient_linear nonzero]
  rfl

/-- What is done with the antiderivative of the only term changes nothing. -/
theorem collected_eq {p : Poly} (reduced : p.Reduced) (few : p.terms.length ≤ maxTerms) :
    (Fraction.one.mul (.ofPoly p) >>= fun product => Fraction.zero.add product >>= fun total =>
      total.div .one) = .ok (.ofPoly p) := by
  have product : Fraction.one.mul (.ofPoly p) = .ok (.ofPoly p) := by
    rw [Fraction.one, Fraction.mul_ofPoly, (Poly.one_mul_returns reduced).eq_ok_iff.mpr few]
    exact Fraction.make_one reduced
  have total : Fraction.zero.add (.ofPoly p) = .ok (.ofPoly p) := by
    have same : Poly.zero.add p = p := by
      cases p
      rfl
    rw [Fraction.zero, Fraction.add_ofPoly .zero reduced, same]
  have quotient : (Fraction.ofPoly p).div .one = .ok (.ofPoly p) := by
    have quotient := Fraction.div_constant reduced few one_ne_zero
    rwa [inv_one, Poly.scale_one] at quotient
  simp only [bind, Except.bind, product, total, quotient]

theorem antiderivative_ensures (nonzero : q ≠ 0) (within : k < max) :
    Ensures ((Fraction.ofPoly (.term (exponentialMonomial x k q) 1)).antiderivative x max)
      (fun r => k < maxTerms ∧ r = .ofPoly (exponentialParts x q k))
      fun f => maxTerms ≤ k ∧ ∃ what, f = .error (.tooLarge what) := by
  have solved := powerExp_ensures (x := x) nonzero within
  have shaped : ofShape ⟨k, false, some (.constant q)⟩ x max =
      powerExp (.constant q) x k max := by
    simp [ofShape]
  have whole : (Fraction.ofPoly (.term (exponentialMonomial x k q) 1)).antiderivative x max =
      (powerExp (.constant q) x k max >>= fun piece => Fraction.one.mul piece >>=
        fun product => Fraction.zero.add product >>= fun total => total.div .one) := by
    unfold Fraction.antiderivative
    rw [Poly.term_of_ne_zero one_ne_zero]
    change (ofTerms x max .zero [(exponentialMonomial x k q, 1)] >>= fun total =>
      total.div .one) = _
    rw [ofTerms, Limit.split_exponentialMonomial nonzero]
    dsimp only
    rw [shape_exponentialMonomial nonzero]
    change ((ofShape _ x max >>= fun piece => Fraction.one.mul piece >>=
      fun product => Fraction.zero.add product >>= fun total => .ok total) >>=
        fun total => total.div .one) = _
    rw [shaped]
    cases powerExp (.constant q) x k max with
    | error e => rfl
    | ok piece =>
      simp only [bind, Except.bind]
      cases Fraction.one.mul piece with
      | error e => rfl
      | ok product =>
        dsimp only
        cases Fraction.zero.add product <;> rfl
  rw [whole]
  cases ran : powerExp (.constant q) x k max with
  | ok r =>
    obtain ⟨few, rfl⟩ := solved.of_ok ran
    have length : (exponentialParts x q k).terms.length ≤ maxTerms := by
      rw [exponentialParts, Poly.length_series]
      exact few
    exact (collected_eq (exponentialParts_reduced nonzero) length).symm ▸ ⟨few, rfl⟩
  | error e =>
    obtain ⟨many, what, rfl⟩ := solved.of_error ran
    exact ⟨many, what, rfl⟩

end Antiderivative

open Antiderivative

variable {x : String} {a : ℚ} {k max : ℕ}

/-- `x ^ k · exp(a · x)`. -/
def powerExponential (x : String) (k : ℕ) (a : ℚ) : Expr :=
  .product [.power (.symbol x) (.int k), .apply .exp (.product [.number a, .symbol x])]

theorem Fraction.ofExpr_powerExponential (nonzero : a ≠ 0) (within : k ≤ max) :
    Ensures (ofExpr max (powerExponential x k a))
      (· = ofPoly (.term (exponentialMonomial x k a) 1))
      fun e => fitsInt64 k = false ∧ IsTooLarge e := by
  have first : one.mul (ofPower (.symbol x) k) = .ok (ofPower (.symbol x) k) := by
    have product := mul_term (Monomial.one_combine (.ofAtom (.symbol x) k))
      (irreducible_power x k) 1 1
    rwa [one_mul] at product
  have second : (ofPower (.symbol x) k).mul (ofPoly (.term (.exponential (linear x a)) 1)) =
      .ok (ofPoly (.term (exponentialMonomial x k a) 1)) := by
    have product := mul_term (combine_exponential x k a) (irreducible_exponentialMonomial x k a) 1 1
    rwa [one_mul] at product
  have power := ofExpr_power_ensures max x k
  have exponential : ofExpr max (.apply .exp (.product [.number a, .symbol x])) =
      .ok (ofPoly (.term (.exponential (linear x a)) 1)) := by
    rw [ofExpr, ofExpr_linear]
    exact exp_linear max x nonzero
  rw [powerExponential, ofExpr, ofProduct]
  refine (power.mono_error fun e refused => ?_).bind fun r found => ?_
  · refine ⟨refused.1.resolve_right ?_, refused.2⟩
    rw [Int.natAbs_natCast]
    exact within.not_gt
  · rw [found, first]
    change Ensures (ofProduct max _ _) _ _
    rw [ofProduct, exponential]
    change Ensures ((ofPower (.symbol x) k).mul _ >>= _) _ _
    rw [second]
    rfl

theorem integrate_ensures (guards : Guards) (x : String) (nonzero : a ≠ 0)
    (within : k < guards.maxPower) :
    Ensures ((Oracle.exact guards).integrate (powerExponential x k a) x none)
      (fun s => k < maxTerms ∧ s = (Fraction.ofPoly (exponentialParts x a k)).toExpr)
      fun f => maxTerms ≤ k ∧ ∃ what, f = .error (.tooLarge what) := by
  have normal := Fraction.ofExpr_powerExponential (x := x) nonzero within.le
  simp only [Oracle.exact, Oracle.integral]
  cases ran : Fraction.ofExpr guards.maxPower (powerExponential x k a) with
  | error e =>
    obtain ⟨wide, what, rfl⟩ := normal.of_error ran
    refine ⟨?_, what, rfl⟩
    by_contra few
    have fits : fitsInt64 k = true := (Monomial.fitsInt64_iff _).mpr (by unfold maxTerms at few; omega)
    rw [fits] at wide
    cases wide
  | ok r =>
    obtain rfl := normal.of_ok ran
    refine (antiderivative_ensures nonzero within).bind fun s found => ?_
    obtain ⟨few, rfl⟩ := found
    exact ⟨few, rfl⟩

/-- Below the guard on exponents, the antiderivative of `x ^ k · exp(a · x)` is found if its `k + 1`
terms are as many as a product may have, and refused otherwise. -/
theorem powerExponential_integrated (guards : Guards) (x : String) {k : ℕ} {a : ℚ} (nonzero : a ≠ 0)
    (within : k < guards.maxPower) :
    (k < maxTerms → (Oracle.exact guards).integrate (powerExponential x k a) x none =
      .ok (Fraction.ofPoly (exponentialParts x a k)).toExpr) ∧
    (maxTerms ≤ k → ∃ what, (Oracle.exact guards).integrate (powerExponential x k a) x none =
      .error (.tooLarge what)) := by
  have ensures := integrate_ensures guards x nonzero within
  cases ran : (Oracle.exact guards).integrate (powerExponential x k a) x none with
  | ok s =>
    obtain ⟨few, rfl⟩ := ensures.of_ok ran
    exact ⟨fun _ => rfl, fun many => absurd few many.not_gt⟩
  | error f =>
    obtain ⟨many, what, rfl⟩ := ensures.of_error ran
    exact ⟨fun few => absurd few many.not_gt, fun _ => ⟨what, rfl⟩⟩

theorem powerExponential_integrated_square :
    (Oracle.exact { maxPower := 3 }).integrate (powerExponential "x" 2 (1 / 2)) "x" none =
      .ok (Fraction.ofPoly (exponentialParts "x" (1 / 2) 2)).toExpr ∧
    ∃ what, (Oracle.exact { maxPower := 5000 }).integrate (powerExponential "x" 4096 (1 / 2)) "x"
      none = .error (.tooLarge what) := by
  have nonzero : (1 / 2 : ℚ) ≠ 0 := by norm_num
  exact ⟨(powerExponential_integrated { maxPower := 3 } "x" (k := 2) nonzero (by decide)).1 (by decide),
    (powerExponential_integrated { maxPower := 5000 } "x" (k := 4096) nonzero (by decide)).2 (by decide)⟩

/-- A power within the guard on exponents is refused for its number of terms, and
one that reaches the guard for the exponent of its rate. -/
theorem powerExponential_refused :
    (∃ what, (Oracle.exact { maxPower := 5000 }).integrate (powerExponential "x" 4096 1) "x" none =
      .error (.tooLarge what)) ∧
    (Oracle.exact { maxPower := 1 }).integrate (powerExponential "x" 1 1) "x" none =
      .error (.tooLarge "exponent 2 exceeds 1") := by
  refine ⟨?_, by decide +kernel⟩
  have ensures := integrate_ensures { maxPower := 5000 } "x" (k := 4096) one_ne_zero (by decide)
  cases ran : (Oracle.exact { maxPower := 5000 }).integrate (powerExponential "x" 4096 1) "x" none with
  | ok s => exact absurd (ensures.of_ok ran).1 (by decide)
  | error f =>
    obtain ⟨-, what, rfl⟩ := ensures.of_error ran
    exact ⟨what, rfl⟩

example : ((Oracle.exact { maxPower := 3 }).integrate (powerExponential "x" 2 (1 / 2)) "x" none).map
    Expr.render = .ok "16*exp(x/2) - 8*x*exp(x/2) + 2*x^2*exp(x/2)" := by decide +kernel

end Discharge
