import Mathlib.Tactic.Ring
import Discharge.Proofs.Interpretation
import Discharge.Proofs.Text.Reading

/-! Texts with a value. A text that is read as an operand, as a product or as a
sum has the value of what is read; where nothing is read, there is an excuse for
a division by a literal zero. The texts of the three levels are put together to
texts whose values are the products, quotients, sums and differences. -/

namespace Discharge

/-- The powers with exponents one and minus a positive rational are what they
have to be. -/
structure Interpretation.Reciprocal {K : Type*} [Field K] (I : Interpretation K) : Prop where
  pow_one : ∀ x, I.pow x 1 = x
  pow_neg : ∀ (x : K) (q : ℚ), 0 < q → I.pow x (-q : ℚ) = 1 / I.pow x q

theorem Interpretation.Reciprocal.pow_neg_one {K : Type*} [Field K] [CharZero K]
    {I : Interpretation K} (laws : I.Reciprocal) (x : K) : I.pow x (-1) = x⁻¹ := by
  have power := laws.pow_neg x 1 one_pos
  rwa [Rat.cast_neg, Rat.cast_one, laws.pow_one, one_div] at power

namespace Parser

open Token (Scans)

variable {K : Type*} [Field K] {I : Interpretation K} {excuse zero : Prop}
  {r s : Option Expr} {k l : Expr → Option Expr} {x y z : K} {a b : String} {ts us : List Token}

/-- What is read has the value `x`; if nothing is read, there is an excuse. -/
structure Agrees (I : Interpretation K) (excuse : Prop) (r : Option Expr) (x : K) : Prop where
  value : ∀ e, r = some e → e.value I = x
  excused : r = none → excuse

/-- If the literal zero is read, there is an excuse. -/
def Regular (excuse : Prop) (r : Option Expr) : Prop :=
  ∀ e, r = some e → e.isLiteralZero = true → excuse

theorem Agrees.of_value {e : Expr} (value : e.value I = x) : Agrees I excuse (some e) x := by
  refine ⟨fun e' read => ?_, nofun⟩
  cases read
  exact value

theorem Agrees.bind {f : K → K} (first : Agrees I excuse r x)
    (next : ∀ e, Agrees I excuse (k e) (f (e.value I))) : Agrees I excuse (r.bind k) (f x) := by
  cases r with
  | none => exact ⟨nofun, first.excused⟩
  | some e =>
    rw [← first.value e rfl]
    exact next e

theorem Agrees.map {f : K → K} {g : Expr → Expr} (first : Agrees I excuse r x)
    (next : ∀ e, (g e).value I = f (e.value I)) : Agrees I excuse (r.map g) (f x) := by
  rw [Option.map_eq_bind]
  exact first.bind fun e => .of_value (next e)

theorem Agrees.mono (agrees : Agrees I excuse r x) {excuse' : Prop} (imp : excuse → excuse') :
    Agrees I excuse' r x :=
  ⟨agrees.value, fun none => imp (agrees.excused none)⟩

/-! ## Factors -/

/-- Further factors multiply what stands before them by `y`, and give a literal
zero only if there was one. -/
structure Scales (I : Interpretation K) (excuse zero : Prop) (k : Expr → Option Expr) (y : K) :
    Prop where
  agrees : ∀ left, Agrees I excuse (k left) (left.value I * y)
  regular : ∀ left e, k left = some e → e.isLiteralZero = true → left.isLiteralZero = true ∨ zero

theorem Scales.nil : Scales I excuse zero some 1 := by
  refine ⟨fun left => .of_value (mul_one _).symm, fun left e read literal => ?_⟩
  cases read
  exact .inl literal

theorem Scales.append (first : Scales I excuse zero k y) (second : Scales I excuse zero l z) :
    Scales I excuse zero (fun left => (k left).bind l) (y * z) := by
  refine ⟨fun left => ?_, fun left e read literal => ?_⟩
  · rw [← mul_assoc]
    exact (first.agrees left).bind (f := (· * z)) second.agrees
  · obtain ⟨middle, before, after⟩ := Option.bind_eq_some_iff.mp read
    rcases second.regular middle e after literal with literal' | holds
    · exact first.regular left middle before literal'
    · exact .inr holds

theorem times_isLiteralZero {a b : Expr} (literal : (times a b).isLiteralZero = true) :
    a.isLiteralZero = true ∨ b.isLiteralZero = true := by
  unfold times at literal
  split at literal
  · simpa [Expr.isLiteralZero] using literal
  · cases literal

theorem over_isLiteralZero {a b c : Expr} (quotient : over? a b = some c)
    (literal : c.isLiteralZero = true) : a.isLiteralZero = true := by
  unfold over? at quotient
  split at quotient
  · cases quotient
  rename_i divisor
  split at quotient
  · rename_i p q
    cases quotient
    have nonzero : q ≠ 0 := by simpa [Expr.isLiteralZero] using divisor
    simpa [Expr.isLiteralZero, nonzero] using literal
  · cases quotient
    cases literal

variable [CharZero K]

theorem value_times (a b : Expr) : (times a b).value I = a.value I * b.value I := by
  unfold times
  split
  · simp
  · exact Expr.value_mul I _ _

theorem value_over (inverse : ∀ x, I.pow x (-1) = x⁻¹) {a b c : Expr}
    (quotient : over? a b = some c) : c.value I = a.value I / b.value I := by
  unfold over? at quotient
  split at quotient
  · cases quotient
  split at quotient
  · cases quotient
    simp
  · cases quotient
    change Expr.value I (a * .power b (.int (-1))) = _
    rw [Expr.value_mul, Expr.value_power, Expr.int, Expr.value_number, Int.cast_neg, Int.cast_one,
      Rat.cast_neg, Rat.cast_one, inverse, div_eq_mul_inv]

theorem Scales.times (agrees : Agrees I excuse r x) (regular : Regular zero r) :
    Scales I excuse zero (fun left => r.bind fun e => some (Parser.times left e)) x := by
  refine ⟨fun left => ?_, fun left e read literal => ?_⟩
  · exact agrees.bind (f := (left.value I * ·)) fun e => .of_value (value_times left e)
  · obtain ⟨e', factor, equal⟩ := Option.bind_eq_some_iff.mp read
    cases equal
    exact (times_isLiteralZero literal).imp_right fun literal' => regular e' factor literal'

theorem Scales.divide (laws : I.Reciprocal) (agrees : Agrees I excuse r x)
    (regular : Regular excuse r) :
    Scales I excuse zero (fun left => r.bind fun e => (over? left e).bind some) x⁻¹ := by
  refine ⟨fun left => ⟨fun e read => ?_, fun none => ?_⟩, fun left e read literal => ?_⟩
  · obtain ⟨e', factor, equal⟩ := Option.bind_eq_some_iff.mp read
    rw [Option.bind_fun_some] at equal
    rw [value_over laws.pow_neg_one equal, agrees.value e' factor, div_eq_mul_inv]
  · cases r with
    | none => exact agrees.excused rfl
    | some e =>
      have refused : over? left e = Option.none := by simpa using none
      unfold over? at refused
      split at refused
      · exact regular e rfl ‹_›
      · split at refused <;> cases refused
  · obtain ⟨e', factor, equal⟩ := Option.bind_eq_some_iff.mp read
    rw [Option.bind_fun_some] at equal
    exact .inl (over_isLiteralZero equal literal)

/-! ## Texts of operands and products -/

/-- The text of an operand with the value `x`. -/
inductive Operand (I : Interpretation K) (excuse zero : Prop) : String → K → Prop
  | intro {text : String} {ts : List Token} {r : Option Expr} {x : K} (scans : Scans text ts)
      (opens : Opens ts) (reads : Reads .unary ts r) (agrees : Agrees I excuse r x)
      (regular : Regular zero r) : Operand I excuse zero text x

/-- The text of a product with the value `x`. -/
inductive Factored (I : Interpretation K) (excuse zero : Prop) : String → K → Prop
  | intro {text : String} {ts us : List Token} {r : Option Expr} {k : Expr → Option Expr} {x y : K}
      (scans : Scans text (ts ++ us)) (opens : Opens ts) (first : Reads .unary ts r)
      (agrees : Agrees I excuse r x) (regular : Regular zero r) (rest : Factors us k)
      (scales : Scales I excuse zero k y) : Factored I excuse zero text (x * y)

omit [CharZero K] in
theorem Operand.mono (operand : Operand I excuse zero a x) {excuse' zero' : Prop}
    (imp : excuse → excuse') (imp' : zero → zero') : Operand I excuse' zero' a x := by
  obtain ⟨scans, opens, reads, agrees, regular⟩ := operand
  exact .intro scans opens reads (agrees.mono imp) fun e read literal => imp' (regular e read literal)

omit [CharZero K] in
theorem Operand.factored (operand : Operand I excuse zero a x) : Factored I excuse zero a x := by
  obtain ⟨scans, opens, reads, agrees, regular⟩ := operand
  have product := Factored.intro (by rwa [List.append_nil]) opens reads agrees regular .nil .nil
  rwa [mul_one] at product

theorem Factored.mul (factored : Factored I excuse zero a x)
    (operand : Operand I excuse zero b y) : Factored I excuse zero (a ++ "*" ++ b) (x * y) := by
  obtain ⟨scans, opens, first, agrees, regular, rest, scales⟩ := factored
  obtain ⟨scans', -, reads, agrees', regular'⟩ := operand
  rw [mul_assoc]
  refine .intro ?_ opens first agrees regular (rest.append (.times reads .nil))
    (scales.append (.times agrees' regular'))
  have whole := scans.infixed (show "*".toList = ['*'] from rfl) rfl scans'
  simpa using whole

theorem Factored.div (laws : I.Reciprocal) (factored : Factored I excuse zero a x)
    (operand : Operand I excuse excuse b y) : Factored I excuse zero (a ++ "/" ++ b) (x / y) := by
  obtain ⟨scans, opens, first, agrees, regular, rest, scales⟩ := factored
  obtain ⟨scans', -, reads, agrees', regular'⟩ := operand
  rw [div_eq_mul_inv, mul_assoc]
  refine .intro ?_ opens first agrees regular (rest.append (.divide reads .nil))
    (scales.append (.divide laws agrees' regular'))
  have whole := scans.infixed (show "/".toList = ['/'] from rfl) rfl scans'
  simpa using whole

theorem Factored.intercalate {texts : List String} {xs : List K}
    (operands : List.Forall₂ (Operand I excuse zero) texts xs) (first : Factored I excuse zero a x) :
    Factored I excuse zero ("*".intercalate (a :: texts)) (x * xs.prod) := by
  induction operands generalizing a x with
  | nil => simpa using first
  | cons operand _ ih =>
    have joined := ih (first.mul operand)
    rw [String.intercalate_cons_append] at joined
    rw [String.intercalate_cons_cons, List.prod_cons, ← mul_assoc]
    exact joined

/-! ## Texts of sums -/

/-- Further terms add `y` to what stands before them. -/
def Adds (I : Interpretation K) (excuse : Prop) (k : Expr → Option Expr) (y : K) : Prop :=
  ∀ left, Agrees I excuse (k left) (left.value I + y)

/-- The text of a sum with the value `x`. If it starts with a minus sign, then it
can also be read without that sign, as what is to be subtracted. -/
inductive Summed (I : Interpretation K) (excuse : Prop) : String → Option Expr → K → Prop
  | plain {text : String} {ts us : List Token} {r : Option Expr} {k : Expr → Option Expr} {x y : K}
      (scans : Scans text (ts ++ us)) (unsigned : text.toList.head? ≠ some '-')
      (first : Reads .product ts r) (agrees : Agrees I excuse r x) (rest : Summands us k)
      (adds : Adds I excuse k y) : Summed I excuse text (r.bind k) (x + y)
  | negative {text : String} {ts us : List Token} {r s : Option Expr} {k : Expr → Option Expr}
      {x y : K} (scans : Scans text (ts ++ us)) (first : Reads .product ts r)
      (agrees : Agrees I excuse r x) (signed : Reads .product (.minus :: ts) s)
      (opposite : Agrees I excuse s (-x)) (rest : Summands us k) (adds : Adds I excuse k y) :
      Summed I excuse ("-" ++ text) (s.bind k) (-x + y)

section Summed

omit [CharZero K]

theorem Adds.nil : Adds I excuse some 0 := fun _ => .of_value (add_zero _).symm

theorem Adds.append (first : Adds I excuse k y) (second : Adds I excuse l z) :
    Adds I excuse (fun left => (k left).bind l) (y + z) := by
  intro left
  rw [← add_assoc]
  exact (first left).bind (f := (· + z)) second

theorem scans_minus (scans : Scans a ts) : Scans ("-" ++ a) (.minus :: ts) :=
  scans.sign (c := '-') rfl rfl (by decide)

theorem Summed.reads (summed : Summed I excuse a r x) : ∃ ts, Scans a ts ∧ Reads .sum ts r := by
  cases summed with
  | plain scans _ first _ rest _ => exact ⟨_, scans, reads_sum first rest⟩
  | negative scans _ _ signed _ rest _ => exact ⟨_, scans_minus scans, reads_sum signed rest⟩

theorem Summed.agrees (summed : Summed I excuse a r x) : Agrees I excuse r x := by
  cases summed with
  | @plain _ _ _ _ _ _ y _ _ _ agrees _ adds => exact agrees.bind (f := (· + y)) adds
  | @negative _ _ _ _ _ _ _ y _ _ _ _ opposite _ adds => exact opposite.bind (f := (· + y)) adds

theorem Summed.parses (summed : Summed I excuse a r x) : Parses a r := by
  obtain ⟨ts, scans, reads⟩ := summed.reads
  exact parses_of_reads scans reads

/-- More terms behind a sum. -/
theorem Summed.extend (summed : Summed I excuse a r x) {op : String} {c : Char} {t : Token}
    (list : op.toList = [' ', c, ' ']) (found : Token.ofChar? c = some t) (sign : c ≠ '*')
    (scans : Scans b us) (terms : Summands (t :: us) l) (adds : Adds I excuse l z) :
    Summed I excuse (a ++ op ++ b) (r.bind l) (x + z) := by
  cases summed with
  | plain before unsigned first agrees rest adds' =>
    obtain ⟨d, ds, start, -⟩ := before.start
    rw [Option.bind_assoc, add_assoc]
    refine .plain ?_ ?_ first agrees (rest.append terms) (adds'.append adds)
    · rw [← List.append_assoc]
      exact before.spaced list found sign scans
    · rw [start] at unsigned
      simpa [start] using unsigned
  | negative before first agrees signed opposite rest adds' =>
    rw [Option.bind_assoc, add_assoc, String.append_assoc, String.append_assoc]
    refine .negative ?_ first agrees signed opposite (rest.append terms) (adds'.append adds)
    rw [← List.append_assoc, ← String.append_assoc]
    exact before.spaced list found sign scans

/-- A sum with another term: a minus sign at its start becomes a subtraction. -/
def addTerm (sum term : String) : String :=
  match term.toList with
  | '-' :: rest => sum ++ " - " ++ String.ofList rest
  | _ => sum ++ " + " ++ term

theorem addTerm_unsigned (unsigned : b.toList.head? ≠ some '-') :
    addTerm a b = a ++ " + " ++ b := by
  unfold addTerm
  split
  · rename_i list
    rw [list] at unsigned
    exact absurd rfl unsigned
  · rfl

theorem addTerm_negative (a b : String) : addTerm a ("-" ++ b) = a ++ " - " ++ b := by
  have list : ("-" ++ b).toList = '-' :: b.toList := by simp
  rw [addTerm, list]
  change a ++ " - " ++ String.ofList b.toList = _
  rw [String.ofList_toList]

theorem Summed.add (summed : Summed I excuse a r x) (term : Summed I excuse b s y) :
    ∃ r', Summed I excuse (addTerm a b) r' (x + y) := by
  cases term with
  | @plain _ ts us r₀ k x₀ y₀ scans unsigned first agrees rest adds =>
    have more : Adds I excuse (fun left => r₀.bind fun e => k (left + e)) (x₀ + y₀) := by
      intro left
      refine agrees.bind (f := fun v => left.value I + (v + y₀)) fun e => ?_
      rw [← add_assoc, ← Expr.value_add]
      exact adds (left + e)
    rw [addTerm_unsigned unsigned]
    exact ⟨_, summed.extend rfl rfl (by decide) scans (.plus first rest) more⟩
  | @negative text ts us r₀ _ k x₀ y₀ scans first agrees _ _ rest adds =>
    have more : Adds I excuse (fun left => r₀.bind fun e => k (left - e)) (-x₀ + y₀) := by
      intro left
      refine agrees.bind (f := fun v => left.value I + (-v + y₀)) fun e => ?_
      rw [← add_assoc, ← sub_eq_add_neg, ← Expr.value_sub]
      exact adds (left - e)
    rw [addTerm_negative]
    exact ⟨_, summed.extend rfl rfl (by decide) scans (.minus first rest) more⟩

theorem Summed.mono (summed : Summed I excuse a r x) {excuse' : Prop} (imp : excuse → excuse') :
    Summed I excuse' a r x := by
  cases summed with
  | plain scans unsigned first agrees rest adds =>
    exact .plain scans unsigned first (agrees.mono imp) rest fun left => (adds left).mono imp
  | negative scans first agrees signed opposite rest adds =>
    exact .negative scans first (agrees.mono imp) signed (opposite.mono imp) rest
      fun left => (adds left).mono imp

/-- A product by itself. -/
theorem Factored.summed (factored : Factored I excuse zero a x) :
    ∃ r, Summed I excuse a r x ∧ Regular zero r := by
  obtain @⟨ts, us, r, k, x, y, scans, opens, first, agrees, regular, rest, scales⟩ := factored
  have unsigned : a.toList.head? ≠ some '-' := by
    refine scans.head_ne_minus ?_
    obtain ⟨t, ts, rfl, operand⟩ := opens
    rintro sign
    cases sign
    cases operand
  have whole : Agrees I excuse (r.bind k) (x * y) := agrees.bind (f := (· * y)) scales.agrees
  have summed := Summed.plain (by rwa [List.append_nil]) unsigned (reads_product first rest) whole
    .nil .nil
  rw [add_zero, Option.bind_fun_some] at summed
  refine ⟨_, summed, fun e read literal => ?_⟩
  obtain ⟨e', before, after⟩ := Option.bind_eq_some_iff.mp read
  rcases scales.regular e' e after literal with literal' | holds
  · exact regular e' before literal'
  · exact holds

/-- A product behind a minus sign. -/
theorem Factored.negative (factored : Factored I excuse zero a x) :
    ∃ r, Summed I excuse ("-" ++ a) r (-x) := by
  obtain @⟨ts, us, r, k, x, y, scans, opens, first, agrees, regular, rest, scales⟩ := factored
  have whole : Agrees I excuse (r.bind k) (x * y) := agrees.bind (f := (· * y)) scales.agrees
  have opposite : Agrees I excuse ((r.map (-·)).bind k) (-(x * y)) := by
    rw [← neg_mul]
    exact (agrees.map (f := (-·)) fun e => Expr.value_neg I e).bind (f := (· * y)) scales.agrees
  have signed : Reads .product (.minus :: (ts ++ us)) ((r.map (-·)).bind k) :=
    reads_product (reads_negative first) rest
  have summed := Summed.negative (by rwa [List.append_nil]) (reads_product first rest) whole signed
    opposite .nil .nil
  rw [add_zero, Option.bind_fun_some] at summed
  exact ⟨_, summed⟩

/-! ## Texts of primaries -/

/-- The text of a primary. -/
inductive Primary : String → Option Expr → Prop
  | intro {text : String} {ts : List Token} {r : Option Expr} (scans : Scans text ts)
      (opens : Opens ts) (reads : Reads .primary ts r) : Primary text r

theorem Primary.operand (primary : Primary a r) (agrees : Agrees I excuse r x)
    (regular : Regular zero r) : Operand I excuse zero a x := by
  obtain ⟨scans, opens, reads⟩ := primary
  exact .intro scans opens (reads_operand opens reads) agrees regular

theorem Summed.group (summed : Summed I excuse a r x) : Primary ("(" ++ a ++ ")") r := by
  obtain ⟨ts, scans, reads⟩ := summed.reads
  exact .intro scans.group ⟨_, _, rfl, rfl⟩ (reads_group reads)

/-- A base and an exponent; the result is no literal. -/
theorem Primary.power (base : Primary a r) (exponent : Primary b s) (agrees : Agrees I excuse r x)
    (agrees' : Agrees I excuse s y) : Operand I excuse zero (a ++ "^" ++ b) (I.pow x y) := by
  obtain ⟨scans, opens, reads⟩ := base
  obtain ⟨scans', opens', reads'⟩ := exponent
  refine .intro (scans.infixed (c := '^') rfl rfl scans') (opens.append _)
    (reads_power opens reads (reads_operand opens' reads')) ?_ fun e read literal => ?_
  · refine agrees.bind (f := fun v => I.pow v y) fun base => ?_
    exact agrees'.map (f := I.pow (base.value I)) fun e => Expr.value_power I base e
  · obtain ⟨base, -, power⟩ := Option.bind_eq_some_iff.mp read
    obtain ⟨exponent, -, rfl⟩ := Option.map_eq_some_iff.mp power
    cases literal

end Summed

end Parser

end Discharge
