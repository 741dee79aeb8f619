import Mathlib.Data.Nat.Prime.Basic
import Mathlib.Tactic.Linarith
import Mathlib.Tactic.LinearCombination
import Discharge.Proofs.Elementary.Values

/-! Exponentials of exact angles. The exact value of the exponential of a
multiple of a sixth or of a quarter of `i·π` is its value under every elementary
interpretation: whole quarter turns are powers of i, and the angles inside one
follow from those given by the laws. -/

namespace Discharge

variable {K : Type*} [Field K] [CharZero K] {I : Interpretation K}

namespace Interpretation

/-- The exponential of `n` twelfths of a half turn. -/
def turned (I : Interpretation K) (n : ℤ) : K :=
  I.apply .exp (n / 12 * (I.constant .pi * I.constant .imaginary))

namespace Elementary

variable (elementary : I.Elementary)

include elementary

omit [CharZero K] in
theorem turned_zero : I.turned 0 = 1 := by simp [turned, elementary.exp_zero]

theorem turned_add (m n : ℤ) : I.turned (m + n) = I.turned m * I.turned n := by
  rw [turned, turned, turned, ← elementary.exp_add]
  push_cast
  congr 1
  ring

theorem turned_two : I.turned 2 = (I.apply .sqrt 3 + I.constant .imaginary) / 2 := by
  rw [turned, ← elementary.exp_sixth]
  push_cast
  congr 1
  ring

theorem turned_three :
    I.turned 3 = (I.apply .sqrt 2 + I.constant .imaginary * I.apply .sqrt 2) / 2 := by
  rw [turned, ← elementary.exp_fourth]
  push_cast
  congr 1
  ring

theorem turned_four : I.turned 4 = (1 + I.constant .imaginary * I.apply .sqrt 3) / 2 := by
  have square : I.apply .sqrt (3 : K) ^ 2 = 3 := by simpa using elementary.sqrt_sq 3 (by norm_num)
  rw [show (4 : ℤ) = 2 + 2 from rfl, elementary.turned_add, elementary.turned_two]
  linear_combination (square + elementary.imaginary) / 4

theorem turned_six : I.turned 6 = I.constant .imaginary := by
  have square : I.apply .sqrt (2 : K) ^ 2 = 2 := by simpa using elementary.sqrt_sq 2 (by norm_num)
  rw [show (6 : ℤ) = 3 + 3 from rfl, elementary.turned_add, elementary.turned_three]
  linear_combination (1 + I.constant .imaginary) ^ 2 / 4 * square + elementary.imaginary / 2

/-- Whole turns change nothing. -/
theorem turned_whole (n k : ℤ) : I.turned (n + 24 * k) = I.turned n := by
  have whole : I.turned 24 = 1 := by
    have quarter := elementary.turned_six
    rw [show (24 : ℤ) = 6 + 6 + (6 + 6) from rfl]
    simp only [elementary.turned_add, quarter]
    linear_combination (I.constant .imaginary ^ 2 - 1) * elementary.imaginary
  have power : ∀ j : ℕ, I.turned (24 * j) = 1 := by
    intro j
    induction j with
    | zero => simpa using elementary.turned_zero
    | succ j ih =>
      rw [Nat.cast_succ, mul_add, mul_one, elementary.turned_add, ih, whole, one_mul]
  rw [elementary.turned_add]
  obtain ⟨j, rfl | rfl⟩ := k.eq_nat_or_neg
  · rw [power, mul_one]
  · have inverse : I.turned (24 * (-j : ℤ)) * I.turned (24 * j) = 1 := by
      rw [← elementary.turned_add, ← mul_add, neg_add_cancel, mul_zero, elementary.turned_zero]
    rw [power, mul_one] at inverse
    rw [inverse, mul_one]

end Elementary

end Interpretation

/-! ## Exact values -/

namespace Valuation

variable {A : Type*} [CommRing A] [Algebra ℚ A] {v : Valuation A} {p q : Poly}

/-- The atoms of exact values may occur: i, and the square roots of two and three. -/
structure KnowsAngles (v : Valuation A) : Prop where
  imaginary : v.known .imaginary
  surd : ∀ n : Nat, n = 2 ∨ n = 3 → v.known (.root (.constant (n : Nat)) 2)

theorem prime_of_surd {n : Nat} (surd : n = 2 ∨ n = 3) : n.Prime := by
  rcases surd with rfl | rfl
  · exact Nat.prime_two
  · exact Nat.prime_three

/-- A polynomial of one admitted term without i. -/
def Simple (v : Valuation A) (p : Poly) : Prop :=
  ∃ m c, p = .term m c ∧ v.Admits m ∧ ∀ f ∈ m.factors, f.1 ≠ .imaginary

theorem Simple.constant (c : Rat) : v.Simple (.constant c) :=
  ⟨.one, c, rfl, .one, fun _ member => absurd member List.not_mem_nil⟩

theorem Simple.halfSurd {n : Nat} (known : v.known (.root (.constant (n : Nat)) 2)) :
    v.Simple (.halfSurd n) := by
  refine ⟨_, _, rfl, .ofAtom known, fun f member => ?_⟩
  rw [List.mem_singleton.mp member]
  nofun

theorem Simple.neg (simple : v.Simple p) : v.Simple p.neg := by
  obtain ⟨m, c, rfl, admitted, real⟩ := simple
  refine ⟨m, -c, ?_, admitted, real⟩
  unfold Poly.neg Poly.term Poly.scale
  by_cases zero : c = 0
  · simp [zero, Poly.zero]
  · simp [zero]

theorem Simple.admitted (simple : v.Simple p) : v.AdmitsPoly p := by
  obtain ⟨m, c, rfl, admitted, -⟩ := simple
  exact .term admitted c

/-- A multiple by i. -/
theorem Simple.timesImaginary (simple : v.Simple p) (known : v.known .imaginary) :
    v.AdmitsPoly p.timesImaginary ∧
      v.poly p.timesImaginary = v.atom .imaginary * v.poly p := by
  obtain ⟨m, c, rfl, admitted, real⟩ := simple
  have product : (Poly.term m c).timesImaginary =
      .term ⟨Monomial.setCount .imaginary 1 m.factors, m.exp⟩ c := by
    unfold Poly.timesImaginary Poly.term
    split
    · rfl
    · rfl
  obtain ⟨admitted', value⟩ := admitted.setCount real known
  rw [product]
  refine ⟨.term admitted' c, ?_⟩
  rw [poly_term, poly_term, value]
  ring

theorem quarterAngle_simple (known : v.KnowsAngles) {n : Nat} {c s : Poly}
    (found : Poly.quarterAngle? n = some (c, s)) : v.Simple c ∧ v.Simple s := by
  have two : v.Simple (.halfSurd 2) := .halfSurd (known.surd 2 (.inl rfl))
  have three : v.Simple (.halfSurd 3) := .halfSurd (known.surd 3 (.inr rfl))
  unfold Poly.quarterAngle? at found
  split at found
  · cases found
    exact ⟨.constant 1, .constant 0⟩
  · cases found
    exact ⟨three, .constant _⟩
  · cases found
    exact ⟨two, two⟩
  · cases found
    exact ⟨.constant _, three⟩
  · cases found

/-- Exact values are built from the atoms of exact values. -/
theorem unitRoot_admitted (known : v.KnowsAngles) {angle : ℚ} {p : Poly}
    (found : Poly.unitRoot? angle = some p) : v.AdmitsPoly p := by
  unfold Poly.unitRoot? at found
  dsimp only at found
  split at found
  · cases found
  obtain ⟨⟨c, s⟩, quarter, rotated⟩ := Option.map_eq_some_iff.mp found
  obtain ⟨cosine, sine⟩ := quarterAngle_simple known quarter
  have cartesian : ∀ {re im : Poly}, v.Simple re → v.Simple im →
      v.AdmitsPoly (re.add im.timesImaginary) := fun real imaginary =>
    real.admitted.add (imaginary.timesImaginary known.imaginary).1
  dsimp only at rotated
  subst rotated
  split
  · exact cartesian cosine sine
  · exact cartesian sine.neg cosine
  · exact cartesian cosine.neg sine.neg
  · exact cartesian sine cosine.neg

end Valuation

namespace Interpretation.Elementary

variable (elementary : I.Elementary) {v : Valuation K}

include elementary

theorem halfSurd_value (atoms : v.atom = Atom.value I) (k : Nat) :
    v.poly (.halfSurd k) = I.apply .sqrt (k : K) / 2 := by
  have value : v.atom (.root (.constant (k : Nat)) 2) = I.apply .sqrt (k : K) := by
    rw [atoms, value_root_constant elementary]
    simp
  unfold Poly.halfSurd Monomial.ofAtom
  rw [Valuation.poly_term, Valuation.monomial_eq, if_neg one_ne_zero, Valuation.factors_cons, value]
  simp [v.exp_zero]
  ring

/-- Cosine and sine inside the first quarter turn. -/
theorem quarterAngle_value (atoms : v.atom = Atom.value I) {n : Nat} {c s : Poly} (found : Poly.quarterAngle? n = some (c, s)) :
    v.poly c + I.constant .imaginary * v.poly s = I.turned n := by
  have two := elementary.halfSurd_value atoms 2
  have three := elementary.halfSurd_value atoms 3
  have half : v.poly (.constant (1 / 2)) = 1 / 2 := by simp
  unfold Poly.quarterAngle? at found
  split at found
  · cases found
    simp [elementary.turned_zero]
  · cases found
    rw [three, half]
    push_cast
    rw [elementary.turned_two]
    ring
  · cases found
    rw [two]
    push_cast
    rw [elementary.turned_three]
    ring
  · cases found
    rw [three, half]
    push_cast
    rw [elementary.turned_four]
    ring
  · cases found

omit elementary in
/-- The angle is a number of twelfths of a half turn, less than two dozen of
them, and whole turns. -/
theorem twelfths_spec {angle : ℚ} (integral : ((angle - 2 * (angle / 2).floor) * 12).den = 1) :
    ∃ step : Nat, step < 24 ∧ ((angle - 2 * (angle / 2).floor) * 12).num.toNat = step ∧
      angle = ((step + 24 * (angle / 2).floor : ℤ) : ℚ) / 12 := by
  have low := Rat.floor_le (angle / 2)
  have high := Rat.lt_floor_add_one (angle / 2)
  have whole := Rat.coe_int_num_of_den_eq_one integral
  generalize (angle / 2).floor = k at low high whole ⊢
  generalize ((angle - 2 * k) * 12).num = n at whole ⊢
  push_cast at high
  have nonneg : 0 ≤ n := by
    have : (0 : ℚ) ≤ n := by
      rw [whole]
      linarith
    exact_mod_cast this
  have small : n < 24 := by
    have : (n : ℚ) < 24 := by
      rw [whole]
      linarith
    exact_mod_cast this
  refine ⟨n.toNat, by omega, rfl, ?_⟩
  push_cast [Int.toNat_of_nonneg nonneg]
  linarith

/-- An angle in twelfths of a half turn, as quarter turns and the rest. -/
theorem exp_twelfths {angle : ℚ} {step : ℕ} {turns : ℤ}
    (split : angle = ((step + 24 * turns : ℤ) : ℚ) / 12) :
    I.apply .exp ((angle : K) * (I.constant .pi * I.constant .imaginary)) =
      I.turned (6 * (step / 6 : ℕ)) * I.turned (step % 6 : ℕ) := by
  have parts : (6 * (step / 6 : ℕ) + (step % 6 : ℕ) : ℤ) = step := by omega
  rw [← elementary.turned_add, parts, ← elementary.turned_whole _ turns, turned,
    congrArg (Rat.cast (K := K)) split]
  push_cast
  rfl

omit elementary in
/-- A real and an imaginary part. -/
theorem cartesian_value (atoms : v.atom = Atom.value I)
    (known : v.KnowsAngles)
    (re : Poly) {im : Poly} (imaginary : v.Simple im) :
    v.poly (re.add im.timesImaginary) = v.poly re + I.constant .imaginary * v.poly im := by
  have unit : v.atom .imaginary = I.constant .imaginary := by rw [atoms, Atom.value]
  rw [Valuation.poly_add, (imaginary.timesImaginary known.imaginary).2, unit]

/-- The exact value of an exponential at an angle is its value. -/
theorem unitRoot_value (atoms : v.atom = Atom.value I)
    (known : v.KnowsAngles)
    {angle : ℚ} {p : Poly} (found : Poly.unitRoot? angle = some p) :
    v.AdmitsPoly p ∧ v.poly p =
      I.apply .exp ((angle : K) * (I.constant .pi * I.constant .imaginary)) := by
  refine ⟨Valuation.unitRoot_admitted known found, ?_⟩
  unfold Poly.unitRoot? at found
  dsimp only at found
  split at found
  · cases found
  rename_i integral
  obtain ⟨step, small, count, split⟩ := twelfths_spec (not_not.mp integral)
  rw [count] at found
  obtain ⟨⟨c, s⟩, quarter, rotated⟩ := Option.map_eq_some_iff.mp found
  obtain ⟨cosine, sine⟩ := Valuation.quarterAngle_simple known quarter
  have value := elementary.quarterAngle_value atoms quarter
  have quarters : step / 6 = 0 ∨ step / 6 = 1 ∨ step / 6 = 2 ∨ step / 6 = 3 := by omega
  have half := elementary.imaginary
  rw [elementary.exp_twelfths split, ← value]
  rcases quarters with j | j | j | j
  all_goals
    rw [j] at rotated ⊢
    dsimp only at rotated
    subst rotated
  · refine (cartesian_value atoms known c sine).trans ?_
    simp [elementary.turned_zero]
  · refine (cartesian_value atoms known _ cosine).trans ?_
    simp only [Valuation.poly_neg, Nat.cast_one, mul_one, elementary.turned_six]
    linear_combination -v.poly s * half
  · refine (cartesian_value atoms known _ sine.neg).trans ?_
    rw [show (6 * (2 : ℕ) : ℤ) = 6 + 6 from rfl, elementary.turned_add, elementary.turned_six]
    simp only [Valuation.poly_neg]
    linear_combination -(v.poly c + I.constant .imaginary * v.poly s) * half
  · refine (cartesian_value atoms known _ cosine.neg).trans ?_
    rw [show (6 * (3 : ℕ) : ℤ) = 6 + 6 + 6 from rfl, elementary.turned_add, elementary.turned_add,
      elementary.turned_six]
    simp only [Valuation.poly_neg]
    linear_combination (v.poly s * (1 - I.constant .imaginary ^ 2) -
      I.constant .imaginary * v.poly c) * half

end Interpretation.Elementary

end Discharge
