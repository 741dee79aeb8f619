import Mathlib
import Discharge.Proofs.Numeric.Rounding

/-! Arithmetic of binary numbers with zero and one, and their order. A finite
number is its sign and the bits of its magnitude. Multiplying or dividing it by
one appends zeros to the significand, which rounding takes away again, so that
it is exact; so is adding zero, but for the sign of a zero. -/

namespace Discharge.Binary64

open Float.Model Float.Model.UnpackedFloat

variable {bits m : Nat} {e : Int}

/-! ## Significands -/

theorem log2_double (positive : 0 < m) (k : Nat) : (m * 2 ^ k).log2 = m.log2 + k := by
  refine (Nat.log2_eq_iff (by positivity)).mpr ⟨?_, ?_⟩
  · rw [pow_add]
    exact Nat.mul_le_mul_right _ (Nat.log2_self_le positive.ne')
  · rw [show m.log2 + k + 1 = m.log2 + 1 + k by omega, pow_add]
    exact Nat.mul_lt_mul_of_pos_right Nat.lt_log2_self (Nat.two_pow_pos k)

/-- The format asks for the exponent that a canonical significand has, however
many zeros are appended to it. -/
theorem Canonical.target (canonical : Canonical m e) (positive : 0 < m) (k : Nat) :
    Format.binary64.targetExponent (totalExponent (m * 2 ^ k) (e - k)) = e := by
  obtain ⟨short, least, normal⟩ := canonical
  have high : m.log2 < 53 := (Nat.log2_lt positive.ne').mpr short
  have low : -1074 < e → 52 ≤ m.log2 := fun above => (Nat.le_log2 positive.ne').mpr (normal above)
  rw [totalExponent, log2_double positive]
  change max ((m.log2 + k : Nat) + 1 + (e - k) - 53 : Int) (-1074) = e
  push_cast
  omega

theorem shiftRight_zeros (m k : Nat) :
    (⟨m * 2 ^ k, false, false⟩ : ExtendedMantissa) >>> k = ⟨m, false, false⟩ := by
  change k.repeat ExtendedMantissa.shiftRightOne _ = _
  induction k generalizing m with
  | zero => simp [Nat.repeat]
  | succ k ih =>
    rw [Nat.repeat, show m * 2 ^ (k + 1) = m * 2 * 2 ^ k by ring, ih]
    simp [ExtendedMantissa.shiftRightOne]

theorem shiftToTargetExponent_zeros (canonical : Canonical m e) (positive : 0 < m) (k : Nat) :
    shiftToTargetExponent .binary64 (m * 2 ^ k) (e - k) .exact = (⟨m, false, false⟩, e) := by
  unfold shiftToTargetExponent shiftToExponent
  rw [canonical.target positive k]
  have distance : (e - (e - k)).toNat = k := by omega
  simp only [distance, ExtendedMantissa.ofMantissaAndAccuracy, shiftRight_zeros, Prod.mk.injEq,
    true_and]
  omega

/-- Zeros appended to a significand are rounded away. -/
theorem roundWithAccuracy_zeros (canonical : Canonical m e) (positive : 0 < m) (s : Sign) (k : Nat) :
    roundWithAccuracy .binary64 s (m * 2 ^ k) (e - k) .exact = .finite s m e positive := by
  have again := shiftToTargetExponent_zeros canonical positive 0
  rw [pow_zero, mul_one, Nat.cast_zero, sub_zero] at again
  unfold roundWithAccuracy
  simp only [shiftToTargetExponent_zeros canonical positive k, ExtendedMantissa.roundedMantissa,
    ExtendedMantissa.accuracy, Accuracy.roundToNearestEven, again]
  rw [dif_neg positive.ne']

/-! ## Bits and fields -/

theorem magnitudeParts_pos (nonzero : bits ≠ 0) : 0 < (magnitudeParts bits).1 := by
  unfold magnitudeParts
  split <;> dsimp only <;> omega

/-- The unpacked form of a sign and magnitude bits. -/
def unpacked (s : Sign) (bits : Nat) : UnpackedFloat :=
  if zero : bits = 0 then .zero s
  else .finite s (magnitudeParts bits).1 (magnitudeParts bits).2 (magnitudeParts_pos zero)

/-- All bits of a number. -/
def code (s : Sign) (bits : Nat) : BitVec 64 :=
  BitVec.ofNat 64 (match s with | .positive => bits | .negative => 2 ^ 63 + bits)

theorem toNat_code (s : Sign) (range : bits < 2 ^ 63) :
    (code s bits).toNat = match s with | .positive => bits | .negative => 2 ^ 63 + bits := by
  cases s <;> simp only [code, BitVec.toNat_ofNat] <;> omega

theorem mantissa_code (s : Sign) (range : bits < 2 ^ 63) :
    (@unpackMantissa .binary64 (code s bits)).toNat = bits % 2 ^ 52 := by
  rw [unpackMantissa_def, BitVec.extractLsb'_toNat, Nat.shiftRight_zero, toNat_code s range]
  cases s
  · dsimp only
    omega
  · rfl

theorem exponent_code (s : Sign) (range : bits < 2 ^ 63) :
    (@unpackExponent .binary64 (code s bits)).toNat = bits / 2 ^ 52 := by
  rw [unpackExponent_def, BitVec.extractLsb'_toNat, Nat.shiftRight_eq_div_pow, toNat_code s range]
  cases s <;> (dsimp only; omega)

theorem sign_code (s : Sign) (range : bits < 2 ^ 63) :
    Sign.ofBitVec (@unpackSign .binary64 (code s bits)) = s := by
  have field : (@unpackSign .binary64 (code s bits)).toNat =
      (match s with | .positive => 0 | .negative => 1) := by
    rw [unpackSign_def, BitVec.extractLsb'_toNat, Nat.shiftRight_eq_div_pow, toNat_code s range]
    cases s <;> dsimp only <;> omega
  have vector : @unpackSign .binary64 (code s bits) = s.toBitVec := by
    rw [← BitVec.toNat_inj, field]
    cases s <;> rfl
  rw [vector, Sign.ofBitVec_toBitVec]

theorem unpack_code (s : Sign) (finite : bits < infinityBits) :
    UnpackedFloat.unpack .binary64 (code s bits) = unpacked s bits := by
  have infinite : infinityBits = 2047 * 2 ^ 52 := rfl
  have range : bits < 2 ^ 63 := by omega
  have mantissa := mantissa_code s range
  have exponent := exponent_code s range
  have proper : @unpackExponent .binary64 (code s bits) ≠ -1#_ := fun same => by
    have all := congrArg BitVec.toNat same
    rw [exponent, show (-1#(Format.binary64.exponentBits)).toNat = 2047 from rfl] at all
    omega
  have least : @unpackExponent .binary64 (code s bits) = 0#_ ↔ bits / 2 ^ 52 = 0 := by
    rw [← BitVec.toNat_inj, exponent]
    rfl
  have none : @unpackMantissa .binary64 (code s bits) = 0#_ ↔ bits % 2 ^ 52 = 0 := by
    rw [← BitVec.toNat_inj, mantissa]
    rfl
  dsimp only [UnpackedFloat.unpack]
  rw [if_neg proper, sign_code s range]
  unfold unpacked
  by_cases subnormal : bits / 2 ^ 52 = 0
  · have parts : magnitudeParts bits = (bits, -1074) := if_pos subnormal
    have low : bits % 2 ^ 52 = bits := by omega
    rw [if_pos (least.mpr subnormal)]
    by_cases zero : bits = 0
    · rw [dif_pos (none.mpr (by omega)), dif_pos zero]
    · rw [dif_neg fun empty => zero (by have := none.mp empty; omega), dif_neg zero]
      simp only [UnpackedFloat.finite.injEq, parts, mantissa, exponent, subnormal, low, true_and]
      rfl
  · have parts : magnitudeParts bits = (2 ^ 52 + bits % 2 ^ 52, ((bits / 2 ^ 52 : Nat) : Int) - 1075) :=
      if_neg subnormal
    have joined : (1#1 ++ @unpackMantissa .binary64 (code s bits)).toNat =
        2 ^ 52 + bits % 2 ^ 52 := by
      have small := (@unpackMantissa .binary64 (code s bits)).isLt
      rw [BitVec.toNat_append, ← Nat.shiftLeft_add_eq_or_of_lt small, mantissa]
      rfl
    rw [if_neg (mt least.mp subnormal), dif_neg (show bits ≠ 0 by omega)]
    simp only [UnpackedFloat.finite.injEq, parts, joined, exponent, true_and]
    rfl

theorem valid_code (s : Sign) (finite : bits < infinityBits) :
    Format.binary64.Valid (code s bits) := by
  refine ⟨fun all => ?_⟩
  have infinite : infinityBits = 2047 * 2 ^ 52 := rfl
  have same := congrArg BitVec.toNat all
  rw [exponent_code s (by omega), show (-1#(Format.binary64.exponentBits)).toNat = 2047 from rfl]
    at same
  omega

/-- The number of a sign and magnitude bits. -/
def signed (s : Sign) (bits : Nat) : Float := Float.ofBits (UInt64.ofBitVec (code s bits))

theorem unpack_signed (s : Sign) (finite : bits < infinityBits) :
    (signed s bits).toModel.unpack = unpacked s bits := by
  change UnpackedFloat.unpack .binary64 (UnpackedFloat.pack .binary64
    (UnpackedFloat.unpack .binary64 (code s bits))) = _
  rw [pack_unpack_of_valid (valid_code s finite), unpack_code s finite]

theorem pack_unpacked (s : Sign) (bits : Nat) (finite : bits < infinityBits) :
    Float.ofModel (.pack (unpacked s bits)) = signed s bits := by
  rw [← unpack_code s finite]
  rfl

theorem ofRat_eq (q : ℚ) :
    ofRat q = signed (if q < 0 then .negative else .positive)
      (magnitudeBits q.num.natAbs q.den) := by
  unfold ofRat signed code
  dsimp only
  split <;> rfl

/-! ## Zero and one -/

/-- One, unpacked. -/
def unpackedOne : UnpackedFloat := .finite .positive (2 ^ 52) (-52) (by norm_num)

theorem unpack_one : (1 : Float).toModel.unpack = unpackedOne := by
  rw [show (1 : Float) = signed .positive (1023 * 2 ^ 52) by decide,
    unpack_signed _ (by decide)]
  rfl

theorem signed_zero : signed .positive 0 = 0 := by decide

theorem unpack_zero : (0 : Float).toModel.unpack = .zero .positive := by
  rw [← signed_zero, unpack_signed _ (by decide)]
  rfl

theorem mul_eq (x y : Float) : x * y =
    .ofModel (.pack (UnpackedFloat.mul .binary64 x.toModel.unpack y.toModel.unpack)) := rfl

theorem div_eq (x y : Float) : x / y =
    .ofModel (.pack (UnpackedFloat.div .binary64 x.toModel.unpack y.toModel.unpack)) := rfl

theorem add_eq (x y : Float) : x + y =
    .ofModel (.pack (UnpackedFloat.add .binary64 x.toModel.unpack y.toModel.unpack)) := rfl

theorem sub_eq (x y : Float) : x - y =
    .ofModel (.pack (UnpackedFloat.sub .binary64 x.toModel.unpack y.toModel.unpack)) := rfl

theorem abs_eq (x : Float) : x.abs = .ofModel (.pack x.toModel.unpack.abs) := rfl

theorem positive_mul (s : Sign) : Sign.positive * s = s := by cases s <;> rfl

theorem mul_positive (s : Sign) : s * Sign.positive = s := by cases s <;> rfl

theorem div_positive (s : Sign) : s / Sign.positive = s := by cases s <;> rfl

theorem one_mul_unpacked (s : Sign) (bits : Nat) :
    UnpackedFloat.mul .binary64 unpackedOne (unpacked s bits) = unpacked s bits := by
  unfold unpacked
  split
  · exact congrArg _ (positive_mul s)
  · rename_i nonzero
    have rounded := roundWithAccuracy_zeros (magnitudeParts_canonical bits)
      (magnitudeParts_pos nonzero) s 52
    rw [mul_comm, sub_eq_neg_add] at rounded
    change roundWithAccuracy _ (Sign.positive * s) _ _ _ = _
    rw [positive_mul]
    exact rounded

theorem mul_one_unpacked (s : Sign) (bits : Nat) :
    UnpackedFloat.mul .binary64 (unpacked s bits) unpackedOne = unpacked s bits := by
  unfold unpacked
  split
  · exact congrArg _ (mul_positive s)
  · rename_i nonzero
    have rounded := roundWithAccuracy_zeros (magnitudeParts_canonical bits)
      (magnitudeParts_pos nonzero) s 52
    rw [sub_eq_add_neg] at rounded
    change roundWithAccuracy _ (s * Sign.positive) _ _ _ = _
    rw [mul_positive]
    exact rounded

/-- A division by one appends zeros, at least as many as the divisor has. -/
theorem divCore_one (canonical : Canonical m e) (positive : 0 < m) :
    ∃ k : Nat, divCore .binary64 m e (2 ^ 52) (-52) = (m * 2 ^ k, e - k, .exact) := by
  have high : m.log2 < 53 := (Nat.log2_lt positive.ne').mpr canonical.short
  have least := canonical.least
  have target : Format.binary64.targetExponent
      (totalExponent m e - totalExponent (2 ^ 52) (-52)) ≤ e := by
    rw [totalExponent, totalExponent, Nat.log2_two_pow]
    change max ((m.log2 : Int) + 1 + e - (52 + 1 + -52) - 53) (-1074) ≤ e
    omega
  unfold divCore
  generalize Format.binary64.targetExponent _ = t at target ⊢
  dsimp only
  obtain ⟨k, distance⟩ : ∃ k : Nat, (e - -52 - min (e - -52) t).toNat = 52 + k :=
    ⟨(e - t).toNat, by omega⟩
  have exponent : min (e - -52) t = e - k := by omega
  have whole : m <<< (52 + k) = m * 2 ^ k * 2 ^ 52 := by
    rw [Nat.shiftLeft_eq, pow_add]
    ring
  refine ⟨k, ?_⟩
  rw [distance, exponent, whole, Nat.mul_div_cancel _ (by norm_num), Nat.mul_mod_left]
  rfl

theorem div_one_unpacked (s : Sign) (bits : Nat) :
    UnpackedFloat.div .binary64 (unpacked s bits) unpackedOne = unpacked s bits := by
  unfold unpacked
  split
  · exact congrArg _ (div_positive s)
  · rename_i nonzero
    have canonical := magnitudeParts_canonical bits
    have positive := magnitudeParts_pos nonzero
    obtain ⟨k, quotient⟩ := divCore_one canonical positive
    unfold unpackedOne UnpackedFloat.div
    dsimp only
    rw [quotient, div_positive]
    exact roundWithAccuracy_zeros canonical positive s k

/-- The sign of a sum with zero: a zero loses its own. -/
def settledSign (s : Sign) (bits : Nat) : Sign := if bits = 0 then .positive else s

theorem settledSign_settled (s : Sign) (bits : Nat) :
    settledSign (settledSign s bits) bits = settledSign s bits := by
  unfold settledSign
  split <;> rfl

theorem zero_add_unpacked (s : Sign) (bits : Nat) :
    UnpackedFloat.add .binary64 (.zero .positive) (unpacked s bits) =
      unpacked (settledSign s bits) bits := by
  unfold unpacked settledSign
  split
  · cases s <;> rfl
  · rfl

theorem add_zero_unpacked (s : Sign) (bits : Nat) :
    UnpackedFloat.add .binary64 (unpacked s bits) (.zero .positive) =
      unpacked (settledSign s bits) bits := by
  unfold unpacked settledSign
  split
  · cases s <;> rfl
  · rfl

theorem sub_zero_unpacked (s : Sign) (bits : Nat) :
    UnpackedFloat.sub .binary64 (unpacked s bits) (.zero .positive) = unpacked s bits := by
  unfold unpacked
  split
  · cases s <;> rfl
  · rfl

theorem zero_mul_unpacked (s : Sign) (bits : Nat) :
    UnpackedFloat.mul .binary64 (.zero .positive) (unpacked s bits) = unpacked s 0 := by
  unfold unpacked
  split <;> exact congrArg _ (positive_mul s)

theorem mul_zero_unpacked (s : Sign) (bits : Nat) :
    UnpackedFloat.mul .binary64 (unpacked s bits) (.zero .positive) = unpacked s 0 := by
  unfold unpacked
  split <;> exact congrArg _ (mul_positive s)

theorem abs_unpacked (s : Sign) (bits : Nat) :
    (unpacked s bits).abs = unpacked .positive bits := by
  unfold unpacked
  split <;> rfl

section Finite

variable (s : Sign) (finite : bits < infinityBits)
include finite

theorem one_mul_signed : 1 * signed s bits = signed s bits := by
  rw [mul_eq, unpack_one, unpack_signed s finite, one_mul_unpacked, pack_unpacked s bits finite]

theorem mul_one_signed : signed s bits * 1 = signed s bits := by
  rw [mul_eq, unpack_one, unpack_signed s finite, mul_one_unpacked, pack_unpacked s bits finite]

theorem div_one_signed : signed s bits / 1 = signed s bits := by
  rw [div_eq, unpack_one, unpack_signed s finite, div_one_unpacked, pack_unpacked s bits finite]

theorem zero_mul_signed : 0 * signed s bits = signed s 0 := by
  rw [mul_eq, unpack_zero, unpack_signed s finite, zero_mul_unpacked,
    pack_unpacked s 0 (by decide)]

theorem mul_zero_signed : signed s bits * 0 = signed s 0 := by
  rw [mul_eq, unpack_zero, unpack_signed s finite, mul_zero_unpacked,
    pack_unpacked s 0 (by decide)]

theorem zero_add_signed : 0 + signed s bits = signed (settledSign s bits) bits := by
  rw [add_eq, unpack_zero, unpack_signed s finite, zero_add_unpacked, pack_unpacked _ bits finite]

theorem add_zero_signed : signed s bits + 0 = signed (settledSign s bits) bits := by
  rw [add_eq, unpack_zero, unpack_signed s finite, add_zero_unpacked, pack_unpacked _ bits finite]

theorem sub_zero_signed : signed s bits - 0 = signed s bits := by
  rw [sub_eq, unpack_zero, unpack_signed s finite, sub_zero_unpacked, pack_unpacked s bits finite]

theorem abs_signed : (signed s bits).abs = signed .positive bits := by
  rw [abs_eq, unpack_signed s finite, abs_unpacked, pack_unpacked _ bits finite]

theorem isFinite_signed : (signed s bits).isFinite = true := by
  change (signed s bits).toModel.unpack.isFinite = true
  rw [unpack_signed s finite]
  unfold unpacked
  split <;> rfl

end Finite

/-! ## Order -/

theorem lt_iff (x y : Float) :
    x < y ↔ x.toModel.unpack.compare y.toModel.unpack = some .lt := by
  change decide (x.toModel < y.toModel) = true ↔ _
  rw [decide_eq_true_iff]
  change (UnpackedFloat.compare _ _ == some .lt) = true ↔ _
  rw [beq_iff_eq]

/-- Positive numbers are ordered like their bits. -/
theorem signed_lt_iff {bits' : Nat} (finite : bits < infinityBits) (finite' : bits' < infinityBits) :
    signed .positive bits < signed .positive bits' ↔ bits < bits' := by
  have left := magnitudeParts_canonical bits
  have right := magnitudeParts_canonical bits'
  have count := magnitudeParts_bits bits
  have count' := magnitudeParts_bits bits'
  obtain ⟨short, least, normal⟩ := left
  obtain ⟨short', least', normal'⟩ := right
  rw [lt_iff, unpack_signed _ finite, unpack_signed _ finite']
  unfold unpacked
  split
  · split
    · simp [UnpackedFloat.compare]
      omega
    · simp [UnpackedFloat.compare]
      omega
  · split
    · simp [UnpackedFloat.compare]
      omega
    · rw [UnpackedFloat.compare, Option.some.injEq, Ordering.then_eq_lt, compare_lt_iff_lt,
        compare_eq_iff_eq, compare_lt_iff_lt]
      omega

theorem signed_lt_zero_iff (s : Sign) (finite : bits < infinityBits) :
    signed s bits < 0 ↔ s = .negative ∧ bits ≠ 0 := by
  rw [lt_iff, unpack_signed _ finite, unpack_zero]
  unfold unpacked
  split
  · rename_i zero
    simp [UnpackedFloat.compare, zero]
  · rename_i nonzero
    cases s <;> simp [UnpackedFloat.compare, nonzero]

theorem zero_lt_signed_iff (s : Sign) (finite : bits < infinityBits) :
    0 < signed s bits ↔ s = .positive ∧ bits ≠ 0 := by
  rw [lt_iff, unpack_signed _ finite, unpack_zero]
  unfold unpacked
  split
  · rename_i zero
    simp [UnpackedFloat.compare, zero]
  · rename_i nonzero
    cases s <;> simp [UnpackedFloat.compare, nonzero]

/-! ## Positive numbers -/

/-- The sign is not negative. -/
def Upright : UnpackedFloat → Prop
  | .infinity s | .zero s | .finite s _ _ _ => s = .positive
  | .notANumber => True

theorem upright_components (exponent : BitVec 11) (mantissa : BitVec 52) :
    Upright (UnpackedFloat.unpack .binary64
      (packComponents .binary64 .positive exponent mantissa)) := by
  dsimp only [UnpackedFloat.unpack]
  rw [unpackSign_packComponents, Sign.ofBitVec_toBitVec]
  split
  · split <;> trivial
  · split
    · split <;> rfl
    · rfl

theorem upright_pack {u : UnpackedFloat} (upright : Upright u) :
    Upright (UnpackedFloat.unpack .binary64 (UnpackedFloat.pack .binary64 u)) := by
  unfold UnpackedFloat.pack
  cases u with
  | notANumber => exact upright_components _ _
  | infinity s =>
    cases upright
    exact upright_components _ _
  | zero s =>
    cases upright
    exact upright_components _ _
  | finite s m e positive =>
    cases upright
    dsimp only
    split
    · exact upright_components _ _
    · split <;> exact upright_components _ _

theorem upright_round (m : Nat) (e : Int) :
    Upright (roundWithAccuracy .binary64 .positive m e .exact) := by
  unfold roundWithAccuracy
  dsimp only
  split <;> rfl

/-- A product of positive numbers is not negative, whatever its size. -/
theorem mul_not_negative {bits' : Nat} (finite : bits < infinityBits)
    (finite' : bits' < infinityBits) :
    ¬ signed .positive bits * signed .positive bits' < 0 := by
  have product : Upright (UnpackedFloat.mul .binary64 (unpacked .positive bits)
      (unpacked .positive bits')) := by
    unfold unpacked
    split <;> split <;> first | rfl | exact upright_round _ _
  have packed := upright_pack product
  rw [lt_iff, unpack_zero, mul_eq, unpack_signed _ finite, unpack_signed _ finite']
  change UnpackedFloat.compare (UnpackedFloat.unpack .binary64
    (UnpackedFloat.pack .binary64 _)) _ ≠ _
  generalize UnpackedFloat.unpack .binary64 _ = u at packed ⊢
  cases u with
  | notANumber => simp [UnpackedFloat.compare]
  | infinity s =>
    cases packed
    simp [UnpackedFloat.compare]
  | zero s => simp [UnpackedFloat.compare]
  | finite s m e positive =>
    cases packed
    simp [UnpackedFloat.compare]

end Discharge.Binary64
