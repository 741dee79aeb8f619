import Mathlib.Algebra.Order.Field.Power
import Mathlib.Data.Nat.Log
import Mathlib.Tactic.FieldSimp
import Mathlib.Tactic.Linarith
import Mathlib.Tactic.Positivity
import Mathlib.Tactic.Ring
import Discharge.Decimal.Binary64

/-! Rounding a positive rational to the bits of a binary number. The bits grow
with the number, and between two neighbours they change at the midpoint, which
itself goes to the even neighbour. Overflow to infinity, underflow to zero and
the comparison with a fixed number are instances of this one threshold. -/

namespace Discharge.Binary64

variable {n d m : Nat} {u : Int}

/-! ## Quotients -/

theorem lt_roundDiv_iff (positive : 0 < d) (m : Nat) :
    m < roundDiv n d ↔ (2 * m + 1) * d < 2 * n ∨ (2 * m + 1) * d = 2 * n ∧ m % 2 = 1 := by
  have split := Nat.div_add_mod n d
  have small := Nat.mod_lt n positive
  unfold roundDiv
  dsimp only
  generalize n / d = q at split ⊢
  generalize n % d = r at split small ⊢
  subst split
  rcases Nat.lt_trichotomy m q with below | rfl | above
  · obtain ⟨k, rfl⟩ := Nat.exists_eq_add_of_lt below
    have expanded : d * (m + k + 1) = d * m + d * k + d := by ring
    have doubled : (2 * m + 1) * d = 2 * (d * m) + d := by ring
    have nonneg : 0 ≤ d * k := Nat.zero_le _
    split_ifs <;> omega
  · have doubled : (2 * m + 1) * d = 2 * (d * m) + d := by ring
    split_ifs <;> omega
  · obtain ⟨k, rfl⟩ := Nat.exists_eq_add_of_lt above
    have doubled : (2 * (q + k + 1) + 1) * d = 2 * (d * q) + 2 * (d * k) + 3 * d := by ring
    have nonneg : 0 ≤ d * k := Nat.zero_le _
    split_ifs <;> omega

/-! ## Powers of two -/

theorem scaled_bottom_pos (positive : 0 < d) (u : Int) : 0 < (scaled n d u).2 := by
  unfold scaled
  split
  · exact Nat.mul_pos positive (Nat.two_pow_pos _)
  · exact positive

/-- A scaled fraction is divided by the power of two. -/
theorem scaled_value (n d : Nat) (u : Int) :
    ((scaled n d u).1 : ℚ) / (scaled n d u).2 = n / d / 2 ^ u := by
  unfold scaled
  split
  · rename_i nonneg
    obtain ⟨k, rfl⟩ := Int.eq_ofNat_of_zero_le nonneg
    simp [div_div]
  · rename_i negative
    obtain ⟨k, hk⟩ := Int.eq_ofNat_of_zero_le (show 0 ≤ -u by omega)
    have same : u = -(k : Int) := by omega
    subst same
    simp only [neg_neg, Int.toNat_natCast, Nat.pow_eq, Nat.cast_mul, Nat.cast_pow, Nat.cast_ofNat,
      zpow_neg, zpow_natCast, div_inv_eq_mul]
    ring

theorem two_zpow_pos (u : Int) : (0 : ℚ) < 2 ^ u := zpow_pos (by norm_num) u

theorem two_zpow_le {u v : Int} (le : u ≤ v) : (2 : ℚ) ^ u ≤ 2 ^ v :=
  zpow_le_zpow_right₀ (by norm_num) le

/-- Powers of two as multiples of half a unit. -/
theorem two_zpow_add (u : Int) (k : Nat) : (2 : ℚ) ^ (u + k) = 2 ^ (k + 1) * 2 ^ (u - 1) := by
  rw [← zpow_natCast (2 : ℚ) (k + 1), ← zpow_add₀ two_ne_zero]
  congr 1
  push_cast
  ring

theorem log2_bounds (positive : 0 < n) :
    (2 : ℚ) ^ (n.log2 : Int) ≤ n ∧ (n : ℚ) < 2 ^ (n.log2 + 1 : Int) := by
  constructor
  · rw [zpow_natCast]
    exact_mod_cast Nat.log2_self_le positive.ne'
  · exact_mod_cast Nat.lt_log2_self (n := n)

/-- The difference of the logarithms is that of the fraction, or one too large. -/
theorem log2_difference (top : 0 < n) (bottom : 0 < d) :
    (2 : ℚ) ^ ((n.log2 : Int) - d.log2 - 1) ≤ n / d ∧
      (n : ℚ) / d < 2 ^ ((n.log2 : Int) - d.log2 + 1) := by
  obtain ⟨lowTop, highTop⟩ := log2_bounds top
  obtain ⟨lowBottom, highBottom⟩ := log2_bounds bottom
  have positive : (0 : ℚ) < d := by exact_mod_cast bottom
  constructor
  · rw [le_div_iff₀ positive]
    calc (2 : ℚ) ^ ((n.log2 : Int) - d.log2 - 1) * d
        ≤ 2 ^ ((n.log2 : Int) - d.log2 - 1) * 2 ^ (d.log2 + 1 : Int) :=
        mul_le_mul_of_nonneg_left highBottom.le (two_zpow_pos _).le
      _ = 2 ^ (n.log2 : Int) := by
        rw [← zpow_add₀ two_ne_zero]
        congr 1
        omega
      _ ≤ n := lowTop
  · rw [div_lt_iff₀ positive]
    calc (n : ℚ) < 2 ^ (n.log2 + 1 : Int) := highTop
      _ = 2 ^ ((n.log2 : Int) - d.log2 + 1) * 2 ^ (d.log2 : Int) := by
        rw [← zpow_add₀ two_ne_zero]
        congr 1
        omega
      _ ≤ 2 ^ ((n.log2 : Int) - d.log2 + 1) * d :=
        mul_le_mul_of_nonneg_left lowBottom (two_zpow_pos _).le

/-- Between which powers of two a fraction lies. -/
theorem floorLog2_spec (top : 0 < n) (bottom : 0 < d) :
    (2 : ℚ) ^ floorLog2 n d ≤ n / d ∧ (n : ℚ) / d < 2 ^ (floorLog2 n d + 1) := by
  obtain ⟨below, above⟩ := log2_difference top bottom
  have value := scaled_value n d ((n.log2 : Int) - d.log2)
  have scaledBottom : (0 : ℚ) < (scaled n d ((n.log2 : Int) - d.log2)).2 := by
    exact_mod_cast scaled_bottom_pos bottom _
  unfold floorLog2
  dsimp only
  split
  · rename_i reached
    refine ⟨?_, above⟩
    have atLeast : (1 : ℚ) ≤ (n / d) / 2 ^ ((n.log2 : Int) - d.log2) := by
      rw [← value, one_le_div scaledBottom]
      exact_mod_cast reached
    rwa [one_le_div (two_zpow_pos _)] at atLeast
  · rename_i missed
    refine ⟨below, ?_⟩
    have less : (n / d) / 2 ^ ((n.log2 : Int) - d.log2) < (1 : ℚ) := by
      rw [← value, div_lt_one scaledBottom]
      exact_mod_cast Nat.lt_of_not_le missed
    rwa [div_lt_one (two_zpow_pos _), ← sub_add_cancel ((n.log2 : Int) - d.log2) 1] at less

/-! ## Units -/

/-- The exponent of the unit in which a fraction is counted. -/
def unitOf (n d : Nat) : Int := max (floorLog2 n d - 52) (-1074)

/-- How many units a fraction has, rounded. -/
def unitsOf (n d : Nat) : Nat := roundDiv (scaled n d (unitOf n d)).1 (scaled n d (unitOf n d)).2

theorem magnitudeBits_eq (top : 0 < n) :
    magnitudeBits n d = if 971 < unitOf n d then infinityBits
      else min ((unitOf n d + 1074).toNat * 2 ^ 52 + unitsOf n d) infinityBits := by
  unfold magnitudeBits
  rw [if_neg top.ne']
  rfl

theorem unitOf_least (n d : Nat) : -1074 ≤ unitOf n d := le_max_right _ _

theorem below_unitOf (top : 0 < n) (bottom : 0 < d) : (n : ℚ) / d < 2 ^ (unitOf n d + 53) :=
  (floorLog2_spec top bottom).2.trans_le (two_zpow_le (by unfold unitOf; omega))

theorem above_unitOf (top : 0 < n) (bottom : 0 < d) (normal : -1074 < unitOf n d) :
    (2 : ℚ) ^ (unitOf n d + 52) ≤ n / d := by
  refine le_trans (two_zpow_le ?_) (floorLog2_spec top bottom).1
  unfold unitOf at normal ⊢
  omega

/-- A fraction is beyond the significands of a unit smaller than its own. -/
theorem beyond_unit (top : 0 < n) (bottom : 0 < d) (least : -1074 ≤ u) (smaller : u < unitOf n d)
    (short : m < 2 ^ 53) : (2 * m + 1) * (2 : ℚ) ^ (u - 1) < n / d := by
  have unit := two_zpow_pos (u - 1)
  have digits : (m : ℚ) + 1 ≤ 2 ^ 53 := by exact_mod_cast short
  have wide := two_zpow_add u 53
  push_cast at wide
  calc (2 * m + 1) * (2 : ℚ) ^ (u - 1) < 2 ^ 54 * 2 ^ (u - 1) := by nlinarith
    _ = 2 ^ (u + 53) := by rw [wide]
    _ ≤ 2 ^ (unitOf n d + 52) := two_zpow_le (by omega)
    _ ≤ n / d := above_unitOf top bottom (by omega)

/-- A fraction is below the full significands of a unit greater than its own. -/
theorem below_unit (top : 0 < n) (bottom : 0 < d) (greater : unitOf n d < u) (full : 2 ^ 52 ≤ m) :
    (n : ℚ) / d < (2 * m + 1) * (2 : ℚ) ^ (u - 1) := by
  have unit := two_zpow_pos (u - 1)
  have digits : (2 ^ 52 : ℚ) ≤ m := by exact_mod_cast full
  have wide := two_zpow_add u 52
  push_cast at wide
  calc (n : ℚ) / d < 2 ^ (unitOf n d + 53) := below_unitOf top bottom
    _ ≤ 2 ^ (u + 52) := two_zpow_le (by omega)
    _ = 2 ^ 53 * 2 ^ (u - 1) := by rw [wide]
    _ ≤ (2 * m + 1) * (2 : ℚ) ^ (u - 1) := by nlinarith

theorem lt_unitsOf_iff (bottom : 0 < d) (m : Nat) :
    m < unitsOf n d ↔ (2 * m + 1) * (2 : ℚ) ^ (unitOf n d - 1) < n / d ∨
      (2 * m + 1) * (2 : ℚ) ^ (unitOf n d - 1) = n / d ∧ m % 2 = 1 := by
  have positive := scaled_bottom_pos (n := n) bottom (unitOf n d)
  have cast : (0 : ℚ) < (scaled n d (unitOf n d)).2 := by exact_mod_cast positive
  have value := scaled_value n d (unitOf n d)
  have half : (2 : ℚ) ^ unitOf n d = 2 * 2 ^ (unitOf n d - 1) := by
    rw [← zpow_one_add₀ two_ne_zero, add_sub_cancel]
  have unit := two_zpow_pos (unitOf n d - 1)
  rw [half] at value
  unfold unitsOf
  rw [lt_roundDiv_iff positive]
  generalize (scaled n d (unitOf n d)).1 = a at value ⊢
  generalize (scaled n d (unitOf n d)).2 = b at value cast ⊢
  generalize (2 : ℚ) ^ (unitOf n d - 1) = h at value unit ⊢
  have whole : (0 : ℚ) < 2 * h := by positivity
  -- Both sides compare the number of units with a half more than `m`.
  have less : (2 * m + 1) * b < 2 * a ↔ (2 * m + 1) * h < (n : ℚ) / d := by
    have counted : (2 * m + 1) * b < 2 * a ↔ ((2 * m + 1) / 2 : ℚ) < a / b := by
      rw [lt_div_iff₀ cast, ← Nat.cast_lt (α := ℚ)]
      push_cast
      constructor <;> intro lt <;> linarith
    rw [counted, value, lt_div_iff₀ whole]
    constructor <;> intro lt <;> linarith
  have equal : (2 * m + 1) * b = 2 * a ↔ (2 * m + 1) * h = (n : ℚ) / d := by
    have counted : (2 * m + 1) * b = 2 * a ↔ ((2 * m + 1) / 2 : ℚ) = a / b := by
      rw [eq_div_iff cast.ne', ← Nat.cast_inj (R := ℚ)]
      push_cast
      constructor <;> intro eq <;> linarith
    rw [counted, value, eq_div_iff whole.ne']
    constructor <;> intro eq <;> linarith
  rw [less, equal]

theorem unitsOf_le (top : 0 < n) (bottom : 0 < d) : unitsOf n d ≤ 2 ^ 53 := by
  refine Nat.le_of_not_lt fun more => ?_
  have below := below_unitOf top bottom
  have wide := two_zpow_add (unitOf n d) 53
  have unit := two_zpow_pos (unitOf n d - 1)
  push_cast at wide
  rcases (lt_unitsOf_iff bottom _).mp more with low | ⟨low, -⟩ <;>
  · push_cast at low
    nlinarith

theorem le_unitsOf (top : 0 < n) (bottom : 0 < d) (normal : -1074 < unitOf n d) :
    2 ^ 52 ≤ unitsOf n d := by
  have above := above_unitOf top bottom normal
  have wide := two_zpow_add (unitOf n d) 52
  have unit := two_zpow_pos (unitOf n d - 1)
  push_cast at wide
  have less : 2 ^ 52 - 1 < unitsOf n d := (lt_unitsOf_iff bottom (2 ^ 52 - 1)).mpr (.inl (by
    norm_num
    nlinarith))
  omega

/-! ## Bits -/

/-- The significand and the exponent of the unit of magnitude bits. -/
def magnitudeParts (bits : Nat) : Nat × Int :=
  if bits / 2 ^ 52 = 0 then (bits, -1074)
  else (2 ^ 52 + bits % 2 ^ 52, (bits / 2 ^ 52 : Nat) - 1075)

/-- A significand and an exponent as a binary number keeps them: the significand
has at most 53 binary digits, and fewer only at the least exponent. -/
structure Canonical (m : Nat) (u : Int) : Prop where
  short : m < 2 ^ 53
  least : -1074 ≤ u
  normal : -1074 < u → 2 ^ 52 ≤ m

theorem magnitudeParts_canonical (bits : Nat) :
    Canonical (magnitudeParts bits).1 (magnitudeParts bits).2 := by
  unfold magnitudeParts
  split <;> exact ⟨by dsimp only; omega, by dsimp only; omega, by dsimp only; omega⟩

/-- The bits count units of the least exponent, and then the exponent itself. -/
theorem magnitudeParts_bits (bits : Nat) :
    (bits : Int) = ((magnitudeParts bits).2 + 1074) * 2 ^ 52 + (magnitudeParts bits).1 := by
  unfold magnitudeParts
  split <;> dsimp only <;> omega

/-- The midpoint between a magnitude and the next greater one. -/
def midpoint (bits : Nat) : ℚ :=
  (2 * (magnitudeParts bits).1 + 1) * 2 ^ ((magnitudeParts bits).2 - 1)

/-- A rational rounds to more bits than the given ones exactly if it is above the
midpoint, or on it when the bits are odd. -/
theorem lt_magnitudeBits_iff (top : 0 < n) (bottom : 0 < d) {bits : Nat}
    (finite : bits < infinityBits) :
    bits < magnitudeBits n d ↔
      midpoint bits < n / d ∨ midpoint bits = n / d ∧ bits % 2 = 1 := by
  have canonical := magnitudeParts_canonical bits
  have count := magnitudeParts_bits bits
  rw [magnitudeBits_eq top]
  unfold midpoint
  generalize (magnitudeParts bits).1 = m at canonical count ⊢
  generalize (magnitudeParts bits).2 = u at canonical count ⊢
  obtain ⟨short, least, normal⟩ := canonical
  have range : (bits : Int) < 2047 * 2 ^ 52 := by exact_mod_cast finite
  have infinite : infinityBits = 2047 * 2 ^ 52 := rfl
  have lowest := unitOf_least n d
  rcases lt_trichotomy u (unitOf n d) with smaller | rfl | greater
  · have many := le_unitsOf top bottom (by omega)
    refine iff_of_true ?_ (.inl (beyond_unit top bottom least smaller short))
    split <;> omega
  · rw [if_neg (by omega), lt_min_iff]
    have parity : bits % 2 = m % 2 := by omega
    rw [parity, ← lt_unitsOf_iff bottom]
    omega
  · have full := normal (by omega)
    have under := below_unit top bottom greater full
    have few := unitsOf_le top bottom
    refine iff_of_false ?_ ?_
    · rw [if_neg (by omega)]
      omega
    · rintro (beyond | ⟨reached, -⟩)
      · exact absurd beyond under.le.not_gt
      · exact under.ne' reached

end Discharge.Binary64
