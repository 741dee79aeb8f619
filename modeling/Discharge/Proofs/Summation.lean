import Discharge.Proofs.Interpretation
import Discharge.Proofs.Rational.Normalisation
import Discharge.Proofs.Trail

/-! Closed forms of polynomial sums by induction. Base case and inductive step
compare polynomials, and the comparison is exact; a closed form that passes both
is right by induction on the upper bound, and one that is right at all integers
from the start on passes both, since a polynomial that vanishes there is zero. -/

open Function (update)

namespace Discharge

open RationalFunction

/-- Rational values of the symbols.  Powers are those with integer exponents;
constants and functions have no rational value and are not used. -/
def Interpretation.rational (ρ : String → ℚ) : Interpretation ℚ where
  symbol := ρ
  constant _ := 0
  apply _ _ := 0
  pow x y := x ^ y.num

namespace Expr

/-- Built from rational literals, symbols, sums, products, powers with a natural
literal as exponent, and quotients by rational literals other than zero. -/
inductive IsPolynomial : Expr → Prop
  | number (q : Rat) : IsPolynomial (.number q)
  | symbol (s : String) : IsPolynomial (.symbol s)
  | sum {xs : List Expr} (each : ∀ x ∈ xs, IsPolynomial x) : IsPolynomial (.sum xs)
  | product {xs : List Expr} (each : ∀ x ∈ xs, IsPolynomial x) : IsPolynomial (.product xs)
  | power {b : Expr} (n : Nat) (base : IsPolynomial b) : IsPolynomial (.power b (.int n))
  | reciprocal {q : Rat} (nonzero : q ≠ 0) : IsPolynomial (.power (.number q) (.int (-1)))

variable {a b e : Expr} {xs : List Expr} {ρ : String → ℚ}

/-- The value at rational values of the symbols. -/
def valueAt (e : Expr) (ρ : String → ℚ) : ℚ := e.value (.rational ρ)

/-! ## Polynomial expressions as polynomials -/

theorem exists_polynomials (each : ∀ x ∈ xs, ∃ P : MvPolynomial String ℚ,
      x.denote = some (algebraMap _ RationalFunction P) ∧ ∀ ρ, x.valueAt ρ = MvPolynomial.eval ρ P) :
    ∃ Ps : List (MvPolynomial String ℚ),
      denoteAll xs = some (Ps.map (algebraMap _ RationalFunction)) ∧
        ∀ ρ, values (.rational ρ) xs = Ps.map (MvPolynomial.eval ρ) := by
  induction xs with
  | nil => exact ⟨[], denoteAll_nil, fun ρ => by simp⟩
  | cons x xs ih =>
    obtain ⟨⟨P, head, at'⟩, tail⟩ := List.forall_mem_cons.mp each
    obtain ⟨Ps, rest, values'⟩ := ih tail
    refine ⟨P :: Ps, denoteAll_cons_eq_some.mpr ⟨_, _, head, rest, rfl⟩, fun ρ => ?_⟩
    rw [values_cons, values' ρ, List.map_cons, ← at' ρ]
    rfl

theorem algebraMap_C (q : ℚ) : algebraMap ℚ RationalFunction q =
    algebraMap (MvPolynomial String ℚ) RationalFunction (.C q) := by
  rw [IsScalarTower.algebraMap_apply ℚ (MvPolynomial String ℚ), MvPolynomial.algebraMap_eq]

/-- A polynomial expression is a polynomial: it denotes one, and has its values. -/
theorem IsPolynomial.exists_polynomial (polynomial : e.IsPolynomial) :
    ∃ P : MvPolynomial String ℚ, e.denote = some (algebraMap _ RationalFunction P) ∧
      ∀ ρ, e.valueAt ρ = MvPolynomial.eval ρ P := by
  induction polynomial with
  | number q =>
    refine ⟨.C q, by rw [denote_number, algebraMap_C], fun ρ => ?_⟩
    simp [valueAt]
  | symbol s =>
    refine ⟨.X s, by rw [denote_symbol, var], fun ρ => ?_⟩
    simp [valueAt, Interpretation.rational]
  | sum each ih =>
    obtain ⟨Ps, denotes, values'⟩ := exists_polynomials ih
    refine ⟨Ps.sum, denote_sum_eq_some.mpr ⟨_, denotes, ?_⟩, fun ρ => ?_⟩
    · rw [map_list_sum]
    · rw [valueAt, value_sum, values' ρ, map_list_sum]
  | product each ih =>
    obtain ⟨Ps, denotes, values'⟩ := exists_polynomials ih
    refine ⟨Ps.prod, denote_product_eq_some.mpr ⟨_, denotes, ?_⟩, fun ρ => ?_⟩
    · rw [map_list_prod]
    · rw [valueAt, value_product, values' ρ, map_list_prod]
  | @power b n base ih =>
    obtain ⟨P, denotes, value'⟩ := ih
    refine ⟨P ^ n, ?_, fun ρ => ?_⟩
    · rw [denote_power, denotes, Option.bind_some, integerPower_eq_some, map_pow, zpow_natCast]
      exact ⟨by omega, rfl⟩
    · rw [map_pow, ← value' ρ, valueAt, value_power, int, value_number]
      simp [Interpretation.rational, valueAt]
  | @reciprocal q nonzero =>
    refine ⟨.C q⁻¹, ?_, fun ρ => ?_⟩
    · rw [denote_power, denote_number, Option.bind_some, integerPower_eq_some, ← algebraMap_C,
        zpow_neg_one, map_inv₀]
      exact ⟨fun impossible => nonzero ((map_eq_zero _).mp impossible.2), rfl⟩
    · rw [valueAt, value_power, int, value_number, value_number]
      simp [Interpretation.rational]

/-- The oracle finds out whether a polynomial expression vanishes everywhere. -/
theorem IsPolynomial.isZero_iff (polynomial : e.IsPolynomial) {guards : Guards} {zero : Bool}
    (ran : (Oracle.exact guards).isZero e = .ok zero) :
    zero = true ↔ ∀ ρ, e.valueAt ρ = 0 := by
  obtain ⟨P, denotes, value'⟩ := polynomial.exists_polynomial
  obtain ⟨r, normalised, rfl⟩ := map_eq_ok ran
  obtain ⟨f, denotes', represents⟩ :=
    (normalises guards.maxPower (isRational_of_denote denotes)).of_ok normalised
  obtain rfl := Option.some.inj (denotes.symm.trans denotes')
  rw [represents.isZero_iff, FaithfulSMul.algebraMap_eq_zero_iff, MvPolynomial.funext_iff]
  simp only [value', map_zero]

/-- A polynomial expression that vanishes where a symbol is an integer from some
point on vanishes everywhere. -/
theorem IsPolynomial.vanishes (polynomial : e.IsPolynomial) (var : String) (start : Int)
    (integers : ∀ (ρ : String → ℚ) (n : Int), start ≤ n → ρ var = n → e.valueAt ρ = 0) (ρ : String → ℚ) :
    e.valueAt ρ = 0 := by
  obtain ⟨P, -, value'⟩ := polynomial.exists_polynomial
  let side : String → Set ℚ := fun s =>
    if s = var then (fun n : Int => (n : ℚ)) '' Set.Ici start else .univ
  have infinite : ∀ s, (side s).Infinite := by
    intro s
    simp only [side]
    split
    · exact (Set.Ici_infinite start).image Int.cast_injective.injOn
    · exact Set.infinite_univ
  have zero : P = 0 := by
    refine MvPolynomial.funext_set side infinite fun σ inside => ?_
    have member : σ var ∈ side var := inside var trivial
    simp only [side, if_true] at member
    obtain ⟨n, above, same⟩ := member
    rw [← value', map_zero]
    exact integers σ n above same.symm
  rw [value', zero, map_zero]

/-! ## Substitution -/

theorem IsPolynomial.closed : Closed IsPolynomial where
  number := .number
  sum xs := ⟨fun polynomial => by cases polynomial; assumption, .sum⟩
  product xs := ⟨fun polynomial => by cases polynomial; assumption, .product⟩

theorem substituteAll_eq_map (xs : List Expr) (name : String) (x : Expr) :
    substituteAll xs name x = xs.map fun e => substitute e name x := by
  induction xs with
  | nil => rw [substituteAll, List.map_nil]
  | cons y ys ih => rw [substituteAll, ih, List.map_cons]

theorem IsPolynomial.substitute (polynomial : e.IsPolynomial) (name : String) {x : Expr}
    (inserted : x.IsPolynomial) : (e.substitute name x).IsPolynomial := by
  induction polynomial with
  | number q =>
    rw [Expr.substitute]
    exact .number q
  | symbol s =>
    rw [Expr.substitute]
    split
    · exact inserted
    · exact .symbol s
  | sum each ih =>
    rw [Expr.substitute, substituteAll_eq_map]
    exact .sum fun y member => by
      obtain ⟨z, old, rfl⟩ := List.mem_map.mp member
      exact ih z old
  | product each ih =>
    rw [Expr.substitute, substituteAll_eq_map]
    exact .product fun y member => by
      obtain ⟨z, old, rfl⟩ := List.mem_map.mp member
      exact ih z old
  | power n base ih =>
    rw [Expr.substitute, int, Expr.substitute]
    exact .power n ih
  | reciprocal nonzero =>
    rw [Expr.substitute, int, Expr.substitute, Expr.substitute]
    exact .reciprocal nonzero

/-- Substituting is setting the value of the symbol. -/
theorem IsPolynomial.valueAt_substitute (polynomial : e.IsPolynomial) (name : String) (x : Expr)
    (ρ : String → ℚ) :
    (e.substitute name x).valueAt ρ = e.valueAt (update ρ name (x.valueAt ρ)) := by
  have list : ∀ xs : List Expr, (∀ y ∈ xs, (y.substitute name x).valueAt ρ =
      y.valueAt (update ρ name (x.valueAt ρ))) →
      values (.rational ρ) (substituteAll xs name x) =
        values (.rational (update ρ name (x.valueAt ρ))) xs := by
    intro xs each
    rw [values_eq_map, values_eq_map, substituteAll_eq_map, List.map_map]
    exact List.map_congr_left each
  induction polynomial with
  | number q => simp [valueAt, Expr.substitute]
  | symbol s =>
    rw [Expr.substitute]
    by_cases same : s = name
    · simp [same, valueAt, Interpretation.rational]
    · simp [same, valueAt, Interpretation.rational]
  | sum each ih => rw [Expr.substitute, valueAt, valueAt, value_sum, value_sum, list _ ih]
  | product each ih =>
    rw [Expr.substitute, valueAt, valueAt, value_product, value_product, list _ ih]
  | power n base ih =>
    rw [valueAt, valueAt] at ih ⊢
    simp only [Expr.substitute, int, value_power, value_number, ih]
    rfl
  | reciprocal nonzero => simp [valueAt, Expr.substitute, int, Interpretation.rational]

end Expr

namespace Summation

/-- The closed form is right: for every upper bound from the start on, the sum
of the terms is the closed form, whatever the other symbols are. -/
def Correct (s : Summation) : Prop :=
  ∀ n, s.start ≤ n → ∀ ρ : String → ℚ,
    ∑ k ∈ Finset.Icc s.start n, s.term.valueAt (update ρ s.var (k : ℚ)) =
      s.closedForm.valueAt (update ρ s.var (n : ℚ))

/-- The closed form and the term agree at the start. -/
def Starts (s : Summation) : Prop :=
  ∀ ρ : String → ℚ, s.closedForm.valueAt (update ρ s.var (s.start : ℚ)) =
    s.term.valueAt (update ρ s.var (s.start : ℚ))

/-- The closed form grows by the next term, from the start on. -/
def Grows (s : Summation) : Prop :=
  ∀ n, s.start ≤ n → ∀ ρ : String → ℚ,
    s.closedForm.valueAt (update ρ s.var (n + 1 : ℚ)) =
      s.closedForm.valueAt (update ρ s.var (n : ℚ)) + s.term.valueAt (update ρ s.var (n + 1 : ℚ))

variable {s : Summation}

theorem sum_Icc_succ (s : Summation) {n : Int} (above : s.start ≤ n) (ρ : String → ℚ) :
    ∑ k ∈ Finset.Icc s.start (n + 1), s.term.valueAt (update ρ s.var (k : ℚ)) =
      ∑ k ∈ Finset.Icc s.start n, s.term.valueAt (update ρ s.var (k : ℚ)) +
        s.term.valueAt (update ρ s.var (n + 1 : ℚ)) := by
  rw [← Finset.insert_Icc_right_eq_Icc_add_one (by omega : s.start ≤ n + 1),
    Finset.sum_insert (by simp), add_comm]
  push_cast
  rfl

/-- A closed form is right exactly if it starts and grows right. -/
theorem correct_iff : s.Correct ↔ s.Starts ∧ s.Grows := by
  constructor
  · intro correct
    refine ⟨fun ρ => ?_, fun n above ρ => ?_⟩
    · simpa using (correct s.start le_rfl ρ).symm
    · have whole := correct (n + 1) (by omega) ρ
      rw [s.sum_Icc_succ above, correct n above ρ] at whole
      push_cast at whole
      exact whole.symm
  · rintro ⟨starts, grows⟩ n above
    induction n, above using Int.leInduction with
    | base =>
      intro ρ
      simpa using (starts ρ).symm
    | succ n above ih =>
      intro ρ
      rw [s.sum_Icc_succ above, ih ρ, ← grows n above ρ]
      push_cast
      rfl

variable {guards : Guards} {passed : Bool}

theorem baseCase_iff (term : s.term.IsPolynomial) (closed : s.closedForm.IsPolynomial)
    (ran : s.baseCase (Oracle.exact guards) = .ok passed) : passed = true ↔ s.Starts := by
  have start : (Expr.int s.start).IsPolynomial := .number _
  have difference := Expr.IsPolynomial.closed.sub (closed.substitute s.var start)
    (term.substitute s.var start)
  rw [difference.isZero_iff (Trail.answer_eq_ok ran)]
  have literal : ∀ ρ, (Expr.int s.start).valueAt ρ = s.start := fun ρ => by
    simp [Expr.valueAt, Expr.int]
  refine forall_congr' fun ρ => ?_
  rw [← literal ρ, ← closed.valueAt_substitute, ← term.valueAt_substitute]
  simp only [Expr.valueAt, Expr.value_sub, sub_eq_zero]

theorem inductiveStep_iff (term : s.term.IsPolynomial) (closed : s.closedForm.IsPolynomial)
    (ran : s.inductiveStep (Oracle.exact guards) = .ok passed) : passed = true ↔ s.Grows := by
  have next : (Expr.symbol s.var + Expr.one).IsPolynomial :=
    Expr.IsPolynomial.closed.add (.symbol _) (.number 1)
  have difference := Expr.IsPolynomial.closed.sub
    (Expr.IsPolynomial.closed.sub (closed.substitute s.var next) closed)
    (term.substitute s.var next)
  rw [difference.isZero_iff (Trail.answer_eq_ok ran)]
  have successor : ∀ ρ, (Expr.symbol s.var + Expr.one).valueAt ρ = ρ s.var + 1 := fun ρ => by
    simp [Expr.valueAt, Expr.one, Interpretation.rational]
  have growth : ∀ ρ, (s.closedForm.substitute s.var (.symbol s.var + .one) - s.closedForm -
      s.term.substitute s.var (.symbol s.var + .one)).valueAt ρ = 0 ↔
      s.closedForm.valueAt (update ρ s.var (ρ s.var + 1)) =
        s.closedForm.valueAt ρ + s.term.valueAt (update ρ s.var (ρ s.var + 1)) := by
    intro ρ
    rw [← successor ρ, ← closed.valueAt_substitute, ← term.valueAt_substitute]
    simp only [Expr.valueAt, Expr.value_sub]
    rw [sub_sub, sub_eq_zero]
  constructor
  · intro vanishes n above ρ
    have step := (growth (update ρ s.var n)).mp (vanishes _)
    simpa using step
  · intro grows
    refine difference.vanishes s.var s.start fun ρ n above same => (growth ρ).mpr ?_
    have step := grows n above ρ
    rw [← same, Function.update_eq_self] at step
    exact step

/-- The status that an induction records when both probes answer. -/
theorem run_status (base step : Bool) {oracle : Oracle} (ob : Obligation)
    (first : s.baseCase oracle = .ok base) (second : s.inductiveStep oracle = .ok step) :
    (s.strategy.run oracle ob).obligation.status =
      if base = true ∧ step = true then .proven else .refuted := by
  unfold strategy Strategy.run Strategy.induction Trail.start
  simp only [first, second]
  cases base <;> cases step <;> rfl

/-- What a verdict on a closed form has to mean. -/
def Justifies (s : Summation) : Verdict → Prop
  | .proven => s.Correct
  | .refuted => ¬ s.Correct
  | .inconclusive => True

theorem strategy_concludes (term : s.term.IsPolynomial) (closed : s.closedForm.IsPolynomial)
    (guards : Guards) (ob : Obligation) :
    (s.strategy.attempt (Oracle.exact guards) ob).Concludes s.Justifies := by
  refine .bind (.probe _) fun base first => ?_
  have starts := baseCase_iff term closed first
  split
  · rename_i failed
    refine .bind (.step _) fun _ _ => .pure fun correct => ?_
    simp [starts.mpr (correct_iff.mp correct).1] at failed
  rename_i passed
  refine .bind (.step _) fun _ _ => .bind (.probe _) fun step second => ?_
  have grows := inductiveStep_iff term closed second
  split
  · rename_i failed
    refine .bind (.step _) fun _ _ => .pure fun correct => ?_
    simp [grows.mpr (correct_iff.mp correct).2] at failed
  · rename_i passed'
    refine .bind (.step _) fun _ _ => .bind (.step _) fun _ _ => .pure ?_
    exact correct_iff.mpr ⟨starts.mp (by simpa using passed), grows.mp (by simpa using passed')⟩

/-- Induction decides closed forms of polynomial sums.  When both probes answer,
they say yes exactly if the closed form is right, and the obligation is recorded
as proven if it is and as refuted if it is not; an attempt in which a probe
fails records neither wrongly. -/
theorem polynomial_induction_exact (s : Summation) (guards : Guards) (ob : Obligation)
    (term : s.term.IsPolynomial) (closed : s.closedForm.IsPolynomial) :
    (∀ base step, s.baseCase (Oracle.exact guards) = .ok base →
      s.inductiveStep (Oracle.exact guards) = .ok step →
      (base = true ∧ step = true ↔ s.Correct) ∧
        ((s.strategy.run (Oracle.exact guards) ob).obligation.status = .proven ↔ s.Correct) ∧
        ((s.strategy.run (Oracle.exact guards) ob).obligation.status = .refuted ↔ ¬ s.Correct)) ∧
    ((s.strategy.run (Oracle.exact guards) ob).obligation.status = .proven → s.Correct) ∧
    ((s.strategy.run (Oracle.exact guards) ob).obligation.status = .refuted → ¬ s.Correct) := by
  have concludes := strategy_concludes term closed guards ob
  refine ⟨fun base step first second => ?_, Strategy.verdict_of_status concludes .proven nofun,
    Strategy.verdict_of_status concludes .refuted nofun⟩
  have answers : base = true ∧ step = true ↔ s.Correct := by
    rw [correct_iff, baseCase_iff term closed first, inductiveStep_iff term closed second]
  rw [run_status base step ob first second, ← answers]
  by_cases both : base = true ∧ step = true
  · simp [both]
  · simp [both]

/-- The sum of `k` from 1 on is `k * (k + 1) / 2`. -/
def triangular : Summation where
  var := "k"
  term := .symbol "k"
  closedForm := .product [.symbol "k", .sum [.symbol "k", .number 1], .power (.number 2) (.int (-1))]
  start := 1

theorem triangular_polynomial : triangular.closedForm.IsPolynomial := by
  have next : (Expr.sum [.symbol "k", .number 1]).IsPolynomial :=
    .sum (by simpa using ⟨.symbol "k", .number 1⟩)
  have half : (Expr.power (.number 2) (.int (-1))).IsPolynomial := .reciprocal (by decide)
  exact .product (by simpa using ⟨.symbol "k", next, half⟩)

theorem polynomial_induction_exact_triangular : triangular.Correct ∧
    (triangular.strategy.run (Oracle.exact {})
      ⟨"triangular", .text "", .text "", "", .unknown, []⟩).obligation.status = .proven := by
  have first : triangular.baseCase (Oracle.exact {}) = .ok true := by decide +kernel
  have second : triangular.inductiveStep (Oracle.exact {}) = .ok true := by decide +kernel
  obtain ⟨correct, proven, -⟩ := (polynomial_induction_exact triangular {}
    ⟨"triangular", .text "", .text "", "", .unknown, []⟩ (.symbol "k")
    triangular_polynomial).1 true true first second
  exact ⟨correct.mp ⟨rfl, rfl⟩, proven.mpr (correct.mp ⟨rfl, rfl⟩)⟩

end Summation

end Discharge
