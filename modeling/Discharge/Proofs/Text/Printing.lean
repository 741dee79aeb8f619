import Mathlib.Algebra.Order.Field.Rat
import Mathlib.Data.List.Forall2
import Mathlib.Tactic.FieldSimp
import Discharge.Proofs.Subterm
import Discharge.Proofs.Text.Meaning

/-! The written form of an expression is the text of a sum with the value of the
expression. Literals, powers and the pieces of products are texts of operands;
a product joins them to a text of factors, and a sum joins the texts of its
terms. -/

namespace Discharge.Parser

open Token (Scans)

variable {K : Type*} [Field K] {I : Interpretation K} {excuse zero : Prop} {r s : Option Expr}
  {x y : K} {text a b : String}

/-! ## Literals -/

theorem primary_nat (n : Nat) : Primary (toString n) (some (.number n)) :=
  .intro (.number n) ⟨_, _, rfl, rfl⟩ (reads_number n)

theorem agrees_number {q : ℚ} : Agrees I excuse (some (.number q)) (q : K) :=
  .of_value (Expr.value_number I q)

theorem operand_nat (n : Nat) (regular : n = 0 → zero) :
    Operand I excuse zero (toString n) (n : K) := by
  have agrees : Agrees I excuse (some (.number n)) ((n : ℚ) : K) := agrees_number
  rw [Rat.cast_natCast] at agrees
  refine (primary_nat n).operand agrees fun e read literal => ?_
  cases read
  have value : (n : ℚ) = 0 := by simpa [Expr.isLiteralZero] using literal
  exact regular (by exact_mod_cast value)

theorem zero_summed : ∃ r, Summed I excuse "0" r 0 := by
  have operand : Operand I excuse True (toString 0) ((0 : ℕ) : K) := operand_nat 0 fun _ => trivial
  obtain ⟨r, summed, -⟩ := operand.factored.summed
  rw [Nat.cast_zero] at summed
  exact ⟨r, summed⟩

theorem int_text (n : Int) :
    toString n = if n < 0 then "-" ++ toString n.natAbs else toString n.natAbs := by
  cases n with
  | ofNat n => rfl
  | negSucc n =>
    rw [if_pos (Int.negSucc_lt_zero n)]
    rfl

theorem ratText_neg {q : ℚ} (negative : q < 0) : ratText q = "-" ++ ratText (-q) := by
  have top : q.num < 0 := Rat.num_neg.mpr negative
  have bottom : ¬ -q.num < 0 := by omega
  unfold ratText
  rw [Rat.den_neg_eq_den, Rat.num_neg_eq_neg_num, int_text q.num, if_pos top, int_text (-q.num),
    if_neg bottom, Int.natAbs_neg]
  split
  · rfl
  · rw [String.append_assoc, String.append_assoc, String.append_assoc]

theorem ratText_factored [CharZero K] (laws : I.Reciprocal) {q : ℚ} (nonneg : 0 ≤ q) :
    Factored I excuse True (ratText q) (q : K) := by
  have top : ¬ q.num < 0 := by
    have := Rat.num_nonneg.mpr nonneg
    omega
  have numerator : ((q.num.natAbs : ℕ) : K) = (q.num : K) := by
    rw [Nat.cast_natAbs, abs_of_nonneg (Rat.num_nonneg.mpr nonneg)]
  have first : Factored I excuse True (toString q.num.natAbs) (q.num.natAbs : K) :=
    (operand_nat q.num.natAbs fun _ => trivial).factored
  rw [numerator] at first
  unfold ratText
  rw [int_text q.num, if_neg top]
  split
  · rename_i whole
    have value : (q : K) = q.num := by
      rw [Rat.cast_def, whole, Nat.cast_one, div_one]
    rwa [value]
  · rw [Rat.cast_def]
    exact first.div laws (operand_nat q.den fun impossible => absurd impossible q.den_nz)

theorem ratText_summed [CharZero K] (laws : I.Reciprocal) (q : ℚ) :
    ∃ r, Summed I excuse (ratText q) r (q : K) := by
  by_cases negative : q < 0
  · have positive : Factored I excuse True (ratText (-q)) ((-q : ℚ) : K) :=
      ratText_factored laws (neg_nonneg.mpr negative.le)
    rw [ratText_neg negative]
    simpa using positive.negative
  · have nonneg : Factored I excuse True (ratText q) (q : K) :=
      ratText_factored laws (not_lt.mp negative)
    obtain ⟨r, summed, -⟩ := nonneg.summed
    exact ⟨r, summed⟩

/-! ## Powers -/

/-- The text of a power with a literal exponent. -/
theorem powerText_operand [CharZero K] (laws : I.Reciprocal) {q : ℚ} (nonneg : 0 ≤ q)
    (base : Primary text r)
    (agrees : Agrees I excuse r x) (regular : q = 1 → Regular zero r) :
    Operand I excuse zero (Expr.powerText text q) (I.pow x q) := by
  unfold Expr.powerText
  split
  · rename_i one
    rw [one, Rat.cast_one, laws.pow_one]
    exact base.operand agrees (regular one)
  split
  · rename_i whole
    have top : ¬ q.num < 0 := by
      have := Rat.num_nonneg.mpr nonneg
      omega
    have literal : ((q.num.natAbs : ℕ) : ℚ) = q := by
      rw [Nat.cast_natAbs, abs_of_nonneg (Rat.num_nonneg.mpr nonneg)]
      exact Rat.coe_int_num_of_den_eq_one whole.1
    have exponent := primary_nat q.num.natAbs
    rw [literal] at exponent
    rw [ratText, if_pos whole.1, int_text, if_neg top]
    exact base.power exponent agrees agrees_number
  · obtain ⟨s, exponent⟩ : ∃ s, Summed I excuse (ratText q) s (q : K) := ratText_summed laws q
    have power : Operand I excuse zero (text ++ "^" ++ ("(" ++ ratText q ++ ")")) (I.pow x q) :=
      base.power exponent.group agrees exponent.agrees
    have opening : "^(" = "^" ++ "(" := by decide
    rw [opening]
    simpa only [String.append_assoc] using power

/-! ## Products -/

/-- What an operand of a product contributes to its text has the value `x`. -/
inductive Fits (I : Interpretation K) (excuse : Prop) : Expr.Piece → K → Prop
  | literal (q : ℚ) : Fits I excuse (.literal q) q
  | above {text : String} {x : K} : Operand I excuse True text x → Fits I excuse (.above text) x
  | below {text : String} {x : K} :
      Operand I excuse excuse text x → Fits I excuse (.below text) x⁻¹

/-- The literal of a piece, or one. -/
def literal : Expr.Piece → ℚ
  | .literal q => q
  | .above _ | .below _ => 1

theorem coefficient_eq (ps : List Expr.Piece) :
    Expr.coefficient ps = (ps.map literal).prod := by
  rw [List.prod_eq_foldl, List.foldl_map]
  unfold Expr.coefficient
  congr 1
  funext c p
  cases p <;> simp [literal]

/-- The text above the slash. -/
def above? : Expr.Piece → Option String
  | .above text => some text
  | _ => none

/-- The text below the slash. -/
def below? : Expr.Piece → Option String
  | .below text => some text
  | _ => none

theorem pieces_value [CharZero K] {ps : List Expr.Piece} {xs : List K}
    (fits : List.Forall₂ (Fits I excuse) ps xs) :
    ∃ ys zs, List.Forall₂ (Operand I excuse True) (ps.filterMap above?) ys ∧
      List.Forall₂ (Operand I excuse excuse) (ps.filterMap below?) zs ∧
      xs.prod = (Expr.coefficient ps : ℚ) * ys.prod / zs.prod := by
  induction fits with
  | nil => exact ⟨[], [], .nil, .nil, by simp [coefficient_eq]⟩
  | @cons p x ps xs fit _ ih =>
    obtain ⟨ys, zs, tops, bottoms, value⟩ := ih
    rw [coefficient_eq] at value ⊢
    rw [List.map_cons, List.prod_cons, List.prod_cons, value]
    cases fit with
    | literal q =>
      refine ⟨ys, zs, tops, bottoms, ?_⟩
      rw [literal, Rat.cast_mul]
      ring
    | @above text _ operand =>
      refine ⟨x :: ys, zs, .cons operand tops, bottoms, ?_⟩
      rw [literal, List.prod_cons, one_mul]
      ring
    | @below text x operand =>
      refine ⟨ys, x :: zs, tops, .cons operand bottoms, ?_⟩
      rw [literal, List.prod_cons, one_mul, div_mul_eq_div_div_swap]
      ring

/-- A product of texts over a product of texts. -/
def quotientText (numerator : String) (bottom : List String) : String :=
  match bottom with
  | [] => numerator
  | [t] => numerator ++ "/" ++ t
  | ts => numerator ++ "/(" ++ "*".intercalate ts ++ ")"

theorem joinFactors_eq (ps : List Expr.Piece) :
    Expr.joinFactors ps =
      let c := Expr.coefficient ps
      let above := ps.filterMap above?
      let below := ps.filterMap below?
      if c = 0 then "0"
      else quotientText ((if c < 0 then "-" else "") ++ "*".intercalate
          (if c.num.natAbs = 1 ∧ above ≠ [] then above else toString c.num.natAbs :: above))
        (if c.den = 1 then below else toString c.den :: below) := rfl

theorem quotientText_factored [CharZero K] (laws : I.Reciprocal)
    (numerator : Factored I excuse True a x)
    {texts : List String} {zs : List K}
    (divisors : List.Forall₂ (Operand I excuse excuse) texts zs) :
    Factored I excuse True (quotientText a texts) (x / zs.prod) := by
  unfold quotientText
  split
  · cases divisors
    simpa using numerator
  · obtain _ | ⟨divisor, none⟩ := divisors
    cases none
    simpa using numerator.div laws divisor
  · cases divisors with
    | nil => contradiction
    | cons first others =>
      obtain ⟨r, summed, regular⟩ := (first.factored.intercalate others).summed
      have group := summed.group.operand summed.agrees regular
      have whole := numerator.div laws group
      have opening : "/(" = "/" ++ "(" := by decide
      rw [List.prod_cons, opening]
      simpa only [String.append_assoc] using whole

theorem quotientText_minus (a : String) (texts : List String) :
    quotientText ("-" ++ a) texts = "-" ++ quotientText a texts := by
  unfold quotientText
  split <;> simp only [String.append_assoc]

theorem numerator_factored [CharZero K] (n : Nat) {texts : List String} {ys : List K}
    (factors : List.Forall₂ (Operand I excuse True) texts ys) :
    Factored I excuse True
      ("*".intercalate (if n = 1 ∧ texts ≠ [] then texts else toString n :: texts))
      (n * ys.prod) := by
  split
  · rename_i one
    rw [one.1, Nat.cast_one, one_mul]
    cases factors with
    | nil => exact absurd rfl one.2
    | cons first others =>
      rw [List.prod_cons]
      exact first.factored.intercalate others
  · exact (operand_nat n fun _ => trivial).factored.intercalate factors

theorem denominator_operands {n : Nat} (nonzero : n ≠ 0) {texts : List String} {zs : List K}
    (divisors : List.Forall₂ (Operand I excuse excuse) texts zs) :
    ∃ ws, List.Forall₂ (Operand I excuse excuse)
        (if n = 1 then texts else toString n :: texts) ws ∧ ws.prod = n * zs.prod := by
  split
  · rename_i one
    exact ⟨zs, divisors, by rw [one, Nat.cast_one, one_mul]⟩
  · have first : Operand I excuse excuse (toString n) (n : K) :=
      operand_nat n fun impossible => absurd impossible nonzero
    exact ⟨n :: zs, .cons first divisors, List.prod_cons⟩

/-- The text of a product has the value of the product. -/
theorem joinFactors_summed [CharZero K] (laws : I.Reciprocal) {ps : List Expr.Piece} {xs : List K}
    (fits : List.Forall₂ (Fits I excuse) ps xs) :
    ∃ r, Summed I excuse (Expr.joinFactors ps) r xs.prod := by
  obtain ⟨ys, zs, tops, bottoms, value⟩ := pieces_value fits
  rw [joinFactors_eq, value]
  dsimp only
  generalize Expr.coefficient ps = c
  split
  · rename_i vanishes
    rw [vanishes, Rat.cast_zero, zero_mul, zero_div]
    exact zero_summed
  · have numerator := numerator_factored c.num.natAbs tops
    obtain ⟨ws, divisors, product⟩ := denominator_operands c.den_nz bottoms
    have quotient := quotientText_factored laws numerator divisors
    have cast : (c : K) = c.num / c.den := Rat.cast_def c
    rw [product, mul_div_mul_comm] at quotient
    rw [mul_div_assoc, cast]
    split
    · rename_i negative
      have absolute : ((c.num.natAbs : ℕ) : K) = -c.num := by
        rw [Nat.cast_natAbs, abs_of_neg (Rat.num_neg.mpr negative), Int.cast_neg]
      rw [quotientText_minus]
      rw [absolute, neg_div, neg_mul] at quotient
      simpa using quotient.negative
    · rename_i nonneg
      have absolute : ((c.num.natAbs : ℕ) : K) = c.num := by
        rw [Nat.cast_natAbs, abs_of_nonneg (Rat.num_nonneg.mpr (not_lt.mp nonneg))]
      rw [absolute] at quotient
      obtain ⟨r, summed, -⟩ := quotient.summed
      rw [String.empty_append]
      exact ⟨r, summed⟩

/-! ## Sums -/

theorem foldl_summed {texts : List String} {xs : List K}
    (terms : List.Forall₂ (fun text x => ∃ r, Summed I excuse text r x) texts xs)
    (first : ∃ r, Summed I excuse a r x) :
    ∃ r, Summed I excuse (texts.foldl addTerm a) r (x + xs.sum) := by
  induction terms generalizing a x with
  | nil => simpa using first
  | cons term _ ih =>
    obtain ⟨r, summed⟩ := first
    obtain ⟨s, summed'⟩ := term
    rw [List.sum_cons, ← add_assoc]
    exact ih (summed.add summed')

/-- The text of a sum has the value of the sum. -/
theorem joinTerms_summed {texts : List String} {xs : List K}
    (terms : List.Forall₂ (fun text x => ∃ r, Summed I excuse text r x) texts xs) :
    ∃ r, Summed I excuse (Expr.joinTerms texts) r xs.sum := by
  cases terms with
  | nil => exact zero_summed
  | cons first others => exact foldl_summed others first

/-! ## Expressions -/

/-- The base of a negative literal power in the expression is written as the
literal zero is. -/
def Unsafe (e : Expr) : Prop :=
  ∃ b q, Expr.Subterm (.power b (.number q)) e ∧ q < 0 ∧ parse b.render = .ok (.number 0)

theorem Unsafe.mono {e e' : Expr} (bad : Unsafe e)
    (inside : ∀ x, Expr.Subterm x e → Expr.Subterm x e') : Unsafe e' := by
  obtain ⟨b, q, subterm, negative, zero⟩ := bad
  exact ⟨b, q, inside _ subterm, negative, zero⟩

/-- The written form has the value of the expression, by itself and as an
operand. -/
structure Written (I : Interpretation K) (e : Expr) : Prop where
  summed : ∃ r, Summed I (Unsafe e) e.render r (e.value I)
  grouped : ∃ r, Primary (e.grouped e.render) r ∧ Agrees I (Unsafe e) r (e.value I) ∧
    Parses e.render r

theorem Written.of_summed {e : Expr} (compound : e.isAtomic = false)
    (summed : ∃ r, Summed I (Unsafe e) e.render r (e.value I)) : Written I e := by
  refine ⟨summed, ?_⟩
  obtain ⟨r, summed⟩ := summed
  rw [Expr.grouped, if_neg (by simp [compound])]
  exact ⟨r, summed.group, summed.agrees, summed.parses⟩

theorem Written.of_primary {e : Expr} (atomic : e.isAtomic = true) (primary : Primary e.render r)
    (agrees : Agrees I (Unsafe e) r (e.value I)) : Written I e := by
  have operand : Operand I (Unsafe e) True e.render (e.value I) :=
    primary.operand agrees fun _ _ _ => trivial
  obtain ⟨s, summed, -⟩ := operand.factored.summed
  refine ⟨⟨s, summed⟩, r, ?_, agrees, ?_⟩
  · rwa [Expr.grouped, if_pos atomic]
  · obtain ⟨scans, opens, reads⟩ := primary
    have sum := reads_sum (reads_product (reads_operand opens reads) .nil) .nil
    rw [List.append_nil, List.append_nil, Option.bind_fun_some, Option.bind_fun_some] at sum
    exact parses_of_reads scans sum

/-! ### Powers -/

theorem Written.power_operand [CharZero K] (laws : I.Reciprocal) {b : Expr} (base : Written I b)
    {q : ℚ} (nonneg : 0 ≤ q) : Operand I (Unsafe b) True (Expr.powerText (b.grouped b.render) q)
      (I.pow (b.value I) q) := by
  obtain ⟨r, primary, agrees, -⟩ := base.grouped
  exact powerText_operand laws nonneg primary agrees fun _ _ _ _ => trivial

/-- The text of a divisor; it is read as the literal zero only if its base is. -/
theorem Written.power_divisor [CharZero K] (laws : I.Reciprocal) {b : Expr} (base : Written I b)
    {q : ℚ} (negative : q < 0) :
    Operand I (Unsafe (.power b (.number q))) (Unsafe (.power b (.number q)))
      (Expr.powerText (b.grouped b.render) (-q)) (I.pow (b.value I) (-q : ℚ)) := by
  obtain ⟨r, primary, agrees, parses⟩ := base.grouped
  refine powerText_operand laws (neg_nonneg.mpr negative.le) primary
    (agrees.mono fun bad => bad.mono fun y inside => .base inside) fun _ e read literal => ?_
  rw [read, Expr.isLiteralZero_iff.mp literal] at parses
  exact ⟨b, q, .refl _, negative, parses⟩

/-- A base with an exponent that is no literal. -/
theorem Written.power_general {b e : Expr} (base : Written I b) (exponent : Written I e) :
    Operand I (Unsafe (.power b e)) True (b.grouped b.render ++ "^" ++ e.grouped e.render)
      (I.pow (b.value I) (e.value I)) := by
  obtain ⟨r, primary, agrees, -⟩ := base.grouped
  obtain ⟨s, primary', agrees', -⟩ := exponent.grouped
  exact primary.power primary' (agrees.mono fun bad => bad.mono fun y inside => .base inside)
    (agrees'.mono fun bad => bad.mono fun y inside => .exponent inside)

theorem value_negative_power (laws : I.Reciprocal) (x : K) {q : ℚ} (negative : q < 0) :
    I.pow x q = (I.pow x (-q : ℚ))⁻¹ := by
  have reciprocal := laws.pow_neg x (-q) (neg_pos.mpr negative)
  rwa [neg_neg, one_div] at reciprocal

theorem render_power {b e : Expr} (proper : ∀ q, e ≠ .number q) :
    Expr.render (.power b e) = b.grouped b.render ++ "^" ++ e.grouped e.render := by
  rw [Expr.render]
  intro q impossible
  exact proper q impossible

theorem written_power [CharZero K] (laws : I.Reciprocal) {b e : Expr} (base : Written I b)
    (exponent : Written I e) : Written I (.power b e) := by
  refine .of_summed rfl ?_
  rw [Expr.value_power]
  by_cases proper : ∀ q, e ≠ .number q
  · rw [render_power proper]
    obtain ⟨r, summed, -⟩ := (base.power_general exponent).factored.summed
    exact ⟨r, summed⟩
  · push Not at proper
    obtain ⟨q, rfl⟩ := proper
    rw [Expr.render, Expr.value_number]
    split
    · rename_i negative
      have one : Operand I (Unsafe (.power b (.number q))) True (toString 1) ((1 : ℕ) : K) :=
        operand_nat 1 fun _ => trivial
      have quotient := one.factored.div laws (base.power_divisor laws negative)
      obtain ⟨r, summed, -⟩ := quotient.summed
      have start : "1/" = toString 1 ++ "/" := by decide
      rw [value_negative_power laws _ negative, start]
      rw [Nat.cast_one, one_div] at summed
      exact ⟨r, summed⟩
    · rename_i nonneg
      have within : Unsafe b → Unsafe (.power b (.number q)) := fun bad =>
        bad.mono fun y inside => .base inside
      have operand := (base.power_operand laws (not_lt.mp nonneg)).mono within id
      obtain ⟨r, summed, -⟩ := operand.factored.summed
      exact ⟨r, summed⟩

/-! ### Operands of products -/

/-- What an operand contributes to the text of a product. -/
def piece : Expr → Expr.Piece
  | .number q => .literal q
  | .power b (.number q) =>
    if q < 0 then .below (Expr.powerText (b.grouped b.render) (-q))
    else .above (Expr.powerText (b.grouped b.render) q)
  | .power b e => .above (b.grouped b.render ++ "^" ++ e.grouped e.render)
  | x => .above (x.grouped x.render)

theorem pieces_eq (xs : List Expr) : Expr.pieces xs = xs.map piece := by
  induction xs with
  | nil => rw [Expr.pieces, List.map_nil]
  | cons x xs ih =>
    rw [List.map_cons, ← ih]
    cases x with
    | power b e => cases e <;> rw [Expr.pieces, piece] <;> simp
    | _ => rw [Expr.pieces, piece] <;> simp

theorem piece_fits [CharZero K] (laws : I.Reciprocal) {e : Expr}
    (written : ∀ y, Expr.Subterm y e → Written I y) :
    Fits I (Unsafe e) (piece e) (e.value I) := by
  have plain : Fits I (Unsafe e) (.above (e.grouped e.render)) (e.value I) := by
    obtain ⟨r, primary, agrees, -⟩ := (written e (.refl e)).grouped
    exact .above (primary.operand agrees fun _ _ _ => trivial)
  cases e with
  | number q =>
    rw [piece, Expr.value_number]
    exact .literal q
  | power b e =>
    have base : Written I b := written b (.base (.refl b))
    have exponent : Written I e := written e (.exponent (.refl e))
    by_cases proper : ∀ q, e ≠ .number q
    · have general := base.power_general exponent
      rw [piece, Expr.value_power]
      · exact .above general
      · intro q impossible
        exact proper q impossible
    · push Not at proper
      obtain ⟨q, rfl⟩ := proper
      rw [piece, Expr.value_power, Expr.value_number]
      split
      · rename_i negative
        rw [value_negative_power laws _ negative]
        exact .below (base.power_divisor laws negative)
      · rename_i nonneg
        exact .above ((base.power_operand laws (not_lt.mp nonneg)).mono
          (fun bad => bad.mono fun y inside => .base inside) id)
  | symbol | constant | sum | product | apply => exact plain

theorem render_product (xs : List Expr) :
    Expr.render (.product xs) = Expr.joinFactors (Expr.pieces xs) := by
  cases xs with
  | nil =>
    rw [Expr.render, Expr.pieces]
    decide
  | cons x xs =>
    rw [Expr.render]
    simp

theorem renderAll_eq (xs : List Expr) : Expr.renderAll xs = xs.map Expr.render := by
  induction xs with
  | nil => rw [Expr.renderAll, List.map_nil]
  | cons x xs ih => rw [Expr.renderAll, List.map_cons, ih]

theorem Fits.mono {p : Expr.Piece} (fits : Fits I excuse p x) {excuse' : Prop}
    (imp : excuse → excuse') : Fits I excuse' p x := by
  cases fits with
  | literal q => exact .literal q
  | above operand => exact .above (operand.mono imp id)
  | below operand => exact .below (operand.mono imp imp)

/-! ### Names -/

/-- A name that can be written for a symbol: an identifier that does not stand
for a constant or for infinity. -/
def isName (name : String) : Bool :=
  isIdentifier name && !(["pi", "E", "e", "I", "i", "oo", "inf"].contains name)

theorem operand?_of_isName {name : String} (valid : isName name = true) :
    operand? name = some (.symbol name) := by
  have free := (Bool.and_eq_true_iff.mp valid).2
  unfold operand?
  split
  all_goals first
    | rfl
    | cases free

theorem written_symbol {name : String} (valid : isName name = true) : Written I (.symbol name) := by
  refine .of_primary rfl ?_ (.of_value rfl)
  rw [Expr.render]
  exact .intro (.word (Bool.and_eq_true_iff.mp valid).1) ⟨_, _, rfl, rfl⟩
    (reads_word (operand?_of_isName valid))

theorem written_constant (c : Constant) : Written I (.constant c) := by
  have identifier : isIdentifier c.name = true := by cases c <;> decide
  have known : operand? c.name = some (.constant c) := by cases c <;> rfl
  refine .of_primary rfl ?_ (.of_value rfl)
  rw [Expr.render]
  exact .intro (.word identifier) ⟨_, _, rfl, rfl⟩ (reads_word known)

theorem written_apply (f : Function) {e : Expr} (argument : Written I e) :
    Written I (.apply f e) := by
  obtain ⟨r, summed⟩ := argument.summed
  obtain ⟨ts, scans, reads⟩ := summed.reads
  have identifier : isIdentifier f.name = true := by cases f <;> decide
  refine .of_primary rfl (r := r.map (.apply f)) ?_ ?_
  · have boundary : Token.Boundary ("(" ++ e.render ++ ")").toList := by
      have list : ("(" ++ e.render ++ ")").toList = '(' :: (e.render.toList ++ [')']) := by simp
      rw [list]
      exact Scans.boundary_of_char (t := .openParen) rfl _
    have call := (Scans.word identifier).append scans.group boundary
    rw [Expr.render]
    refine .intro ?_ ⟨_, _, rfl, rfl⟩ (reads_call (Function.ofName?_name f) reads)
    simpa only [String.append_assoc, List.cons_append,
      List.nil_append] using call
  · refine (summed.agrees.mono fun bad => bad.mono fun y inside => .argument inside).map
      (f := I.apply f) fun e => Expr.value_apply I e f

theorem written_number [CharZero K] (laws : I.Reciprocal) (q : ℚ) : Written I (.number q) := by
  by_cases atomic : (Expr.number q).isAtomic = true
  · have natural : q.den = 1 ∧ 0 ≤ q := by simpa [Expr.isAtomic] using atomic
    have top : ¬ q.num < 0 := by
      have := Rat.num_nonneg.mpr natural.2
      omega
    have literal : ((q.num.natAbs : ℕ) : ℚ) = q := by
      rw [Nat.cast_natAbs, abs_of_nonneg (Rat.num_nonneg.mpr natural.2)]
      exact Rat.coe_int_num_of_den_eq_one natural.1
    have primary := primary_nat q.num.natAbs
    rw [literal] at primary
    refine .of_primary atomic ?_ (.of_value rfl)
    rwa [Expr.render, ratText, if_pos natural.1, int_text, if_neg top]
  · refine .of_summed (by simpa using atomic) ?_
    rw [Expr.render, Expr.value_number]
    exact ratText_summed laws q

/-- Every expression whose symbols have proper names. -/
theorem written [CharZero K] (laws : I.Reciprocal) (e : Expr)
    (names : ∀ s, Expr.Subterm (.symbol s) e → isName s = true) : Written I e := by
  induction e using Expr.subterm_induction with
  | step e ih =>
    have below : ∀ c ∈ e.operands, ∀ y, Expr.Subterm y c → Written I y := fun c member y inside =>
      ih c member y inside fun s symbol =>
        names s (.operand member (symbol.trans inside))
    have each : ∀ c ∈ e.operands, Written I c := fun c member => below c member c (.refl c)
    cases e with
    | number q => exact written_number laws q
    | symbol s => exact written_symbol (names s (.refl _))
    | constant c => exact written_constant c
    | sum xs =>
      refine .of_summed rfl ?_
      rw [Expr.render, Expr.value_sum, renderAll_eq, Expr.values_eq_map]
      refine joinTerms_summed (List.forall₂_map_left_iff.mpr (List.forall₂_map_right_iff.mpr ?_))
      refine List.forall₂_same.mpr fun x member => ?_
      obtain ⟨r, summed⟩ := (each x member).summed
      exact ⟨r, summed.mono fun bad => bad.mono fun y inside => .sum member inside⟩
    | product xs =>
      refine .of_summed rfl ?_
      rw [render_product, Expr.value_product, pieces_eq, Expr.values_eq_map]
      refine joinFactors_summed laws
        (List.forall₂_map_left_iff.mpr (List.forall₂_map_right_iff.mpr ?_))
      refine List.forall₂_same.mpr fun x member => ?_
      exact (piece_fits laws (below x member)).mono fun bad =>
        bad.mono fun y inside => .product member inside
    | power b e =>
      exact written_power laws (each b (by simp [Expr.operands])) (each e (by simp [Expr.operands]))
    | apply f x => exact written_apply f (each x (by simp [Expr.operands]))

end Discharge.Parser
