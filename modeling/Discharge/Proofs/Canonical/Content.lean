import Mathlib.Data.Rat.Lemmas
import Mathlib.Tactic.FieldSimp
import Mathlib.Tactic.LinearCombination
import Mathlib.Tactic.Positivity
import Mathlib.Tactic.Ring
import Discharge.Proofs.Normal.Terms

/-! The content of a polynomial is the greatest rational of which all
coefficients are integer multiples, so that it follows multiples of the
polynomial. -/

namespace Discharge.Poly

variable {p : Poly} {ts : List (Monomial × Rat)}

theorem dvd_foldl_gcd (a g : Nat) :
    a ∣ ts.foldl (fun g t => Nat.gcd g t.2.num.natAbs) g ↔
      a ∣ g ∧ ∀ t ∈ ts, a ∣ t.2.num.natAbs := by
  induction ts generalizing g with
  | nil => simp
  | cons t ts ih => rw [List.foldl_cons, ih, Nat.dvd_gcd_iff, List.forall_mem_cons, and_assoc]

theorem foldl_lcm_dvd (b l : Nat) :
    ts.foldl (fun l t => Nat.lcm l t.2.den) l ∣ b ↔ l ∣ b ∧ ∀ t ∈ ts, t.2.den ∣ b := by
  induction ts generalizing l with
  | nil => simp
  | cons t ts ih => rw [List.foldl_cons, ih, Nat.lcm_dvd_iff, List.forall_mem_cons, and_assoc]

/-- The content is the common divisor of the numerators over the common multiple
of the denominators. -/
theorem content_eq (nonzero : ∃ t ∈ p.terms, t.2 ≠ 0) :
    ∃ g l : Nat, 0 < g ∧ 0 < l ∧ p.content = (g : ℚ) / l ∧
      (∀ a, a ∣ g ↔ ∀ t ∈ p.terms, a ∣ t.2.num.natAbs) ∧
      ∀ b, l ∣ b ↔ ∀ t ∈ p.terms, t.2.den ∣ b := by
  let g := p.terms.foldl (fun g t => Nat.gcd g t.2.num.natAbs) 0
  let l := p.terms.foldl (fun l t => Nat.lcm l t.2.den) 1
  have numerators : ∀ a, a ∣ g ↔ ∀ t ∈ p.terms, a ∣ t.2.num.natAbs := fun a => by
    rw [dvd_foldl_gcd, and_iff_right (dvd_zero a)]
  have denominators : ∀ b, l ∣ b ↔ ∀ t ∈ p.terms, t.2.den ∣ b := fun b => by
    rw [foldl_lcm_dvd, and_iff_right (one_dvd b)]
  have proper : g ≠ 0 := by
    intro zero
    obtain ⟨t, member, coefficient⟩ := nonzero
    have divides := (numerators g).mp (dvd_refl g) t member
    rw [zero, zero_dvd_iff, Int.natAbs_eq_zero] at divides
    exact coefficient (Rat.num_eq_zero.mp divides)
  have multiples : ∀ (ts : List (Monomial × Rat)) (l : Nat), l ≠ 0 →
      ts.foldl (fun l t => Nat.lcm l t.2.den) l ≠ 0 := by
    intro ts
    induction ts with
    | nil => exact fun l positive => positive
    | cons t ts ih => exact fun l positive => ih _ (Nat.lcm_ne_zero positive t.2.den_nz)
  have positive : 0 < l := Nat.pos_of_ne_zero (multiples p.terms 1 one_ne_zero)
  refine ⟨g, l, Nat.pos_of_ne_zero proper, positive, ?_, numerators, denominators⟩
  unfold content
  rw [if_neg proper, Rat.mkRat_eq_div]
  rfl

theorem content_pos (p : Poly) : 0 < p.content := by
  by_cases nonzero : ∃ t ∈ p.terms, t.2 ≠ 0
  · obtain ⟨g, l, above, below, same, -, -⟩ := content_eq nonzero
    rw [same]
    positivity
  · push Not at nonzero
    have none : p.terms.foldl (fun g t => Nat.gcd g t.2.num.natAbs) 0 = 0 := by
      refine Nat.eq_zero_of_zero_dvd ((dvd_foldl_gcd 0 0).mpr ⟨dvd_refl 0, fun t member => ?_⟩)
      rw [nonzero t member]
      rfl
    unfold content
    rw [if_pos none]
    exact one_pos

/-- All coefficients are integer multiples of a rational exactly if the content
is one. -/
theorem content_spec (nonzero : ∃ t ∈ p.terms, t.2 ≠ 0) {q : ℚ} :
    (∃ k : ℤ, p.content = k * q) ↔ ∀ t ∈ p.terms, ∃ k : ℤ, t.2 = k * q := by
  obtain ⟨g, l, above, below, same, numerators, denominators⟩ := content_eq nonzero
  have above' : (g : ℚ) ≠ 0 := by positivity
  have below' : (l : ℚ) ≠ 0 := by positivity
  constructor
  · rintro ⟨k, multiple⟩ t member
    obtain ⟨n, numerator⟩ := Int.natCast_dvd.mpr ((numerators g).mp (dvd_refl g) t member)
    obtain ⟨d, denominator⟩ := (denominators l).mp (dvd_refl l) t member
    have value := Rat.mul_den_eq_num t.2
    have numerator := congrArg (Int.cast (R := ℚ)) numerator
    have denominator := congrArg (Nat.cast (R := ℚ)) denominator
    push_cast at numerator denominator
    have coefficient : t.2 = n * d * p.content := by
      have total : p.content * l = g := by rw [same, div_mul_cancel₀ _ below']
      refine mul_right_cancel₀ below' ?_
      linear_combination t.2 * denominator + d * value + d * numerator - n * d * total
    exact ⟨n * d * k, by rw [coefficient, multiple]; push_cast; ring⟩
  · intro each
    have parts : ∀ t ∈ p.terms, q.num.natAbs ∣ t.2.num.natAbs ∧ t.2.den ∣ q.den := by
      intro t member
      obtain ⟨k, multiple⟩ := each t member
      have cross : t.2.num * q.den = k * q.num * t.2.den := by
        have value := Rat.mul_den_eq_num t.2
        have value' := Rat.mul_den_eq_num q
        have product : (t.2.num * q.den : ℚ) = k * q.num * t.2.den := by
          rw [← value, ← value', multiple]
          ring
        exact_mod_cast product
      constructor
      · have divides : q.num.natAbs ∣ t.2.num.natAbs * q.den := by
          have absolute := congrArg Int.natAbs cross
          rw [Int.natAbs_mul, Int.natAbs_mul, Int.natAbs_mul, Int.natAbs_natCast,
            Int.natAbs_natCast] at absolute
          exact ⟨k.natAbs * t.2.den, by rw [absolute]; ring⟩
        exact q.reduced.dvd_of_dvd_mul_right divides
      · have divides : t.2.den ∣ t.2.num.natAbs * q.den := by
          have absolute := congrArg Int.natAbs cross
          rw [Int.natAbs_mul, Int.natAbs_mul, Int.natAbs_mul, Int.natAbs_natCast,
            Int.natAbs_natCast] at absolute
          exact ⟨k.natAbs * q.num.natAbs, by rw [absolute]; ring⟩
        exact t.2.reduced.symm.dvd_of_dvd_mul_left divides
    obtain ⟨n, numerator⟩ := Int.natAbs_dvd.mp (Int.natCast_dvd_natCast.mpr
      ((numerators q.num.natAbs).mpr fun t member => (parts t member).1))
    obtain ⟨d, denominator⟩ := (denominators q.den).mpr fun t member => (parts t member).2
    refine ⟨n * d, ?_⟩
    have value := Rat.mul_den_eq_num q
    have numerator := congrArg (Int.cast (R := ℚ)) numerator
    have denominator := congrArg (Nat.cast (R := ℚ)) denominator
    push_cast at numerator denominator
    rw [same, div_eq_iff below']
    push_cast
    linear_combination numerator - n * value + n * q * denominator

theorem terms_scale {c : ℚ} (proper : c ≠ 0) :
    (p.scale c).terms = p.terms.map fun t => (t.1, t.2 * c) := by
  rw [scale, if_neg proper]

/-- The content of a multiple. -/
theorem content_scale (nonzero : ∃ t ∈ p.terms, t.2 ≠ 0) {c : ℚ} (proper : c ≠ 0) :
    (p.scale c).content = p.content * |c| := by
  have scaled : ∃ t ∈ (p.scale c).terms, t.2 ≠ 0 := by
    obtain ⟨t, member, coefficient⟩ := nonzero
    refine ⟨(t.1, t.2 * c), ?_, mul_ne_zero coefficient proper⟩
    rw [terms_scale proper]
    exact List.mem_map_of_mem member
  have first := p.content_pos
  have second := (p.scale c).content_pos
  have absolute : 0 < |c| := abs_pos.mpr proper
  have sign : ∃ s : ℤ, c = s * |c| := by
    rcases abs_choice c with same | same
    · exact ⟨1, by rw [same]; simp⟩
    · exact ⟨-1, by rw [same]; simp⟩
  have sign' : ∃ s : ℤ, |c| = s * c := by
    rcases abs_choice c with same | same
    · exact ⟨1, by rw [same]; simp⟩
    · exact ⟨-1, by rw [same]; simp⟩
  obtain ⟨s, signed⟩ := sign
  obtain ⟨s', signed'⟩ := sign'
  -- Each of the two is an integer multiple of the other.
  obtain ⟨j, above⟩ : ∃ j : ℤ, (p.scale c).content = j * (p.content * |c|) := by
    refine (content_spec scaled).mpr fun t member => ?_
    rw [terms_scale proper] at member
    obtain ⟨u, old, rfl⟩ := List.mem_map.mp member
    obtain ⟨k, multiple⟩ := (content_spec nonzero (q := p.content)).mp ⟨1, by simp⟩ u old
    refine ⟨k * s, ?_⟩
    push_cast
    rw [multiple]
    linear_combination (k * p.content : ℚ) * signed
  obtain ⟨k, below⟩ : ∃ k : ℤ, p.content = k * ((p.scale c).content / |c|) := by
    refine (content_spec nonzero).mpr fun t member => ?_
    have inside : (t.1, t.2 * c) ∈ (p.scale c).terms := by
      rw [terms_scale proper]
      exact List.mem_map_of_mem member
    obtain ⟨i, multiple⟩ := (content_spec scaled (q := (p.scale c).content)).mp ⟨1, by simp⟩ _ inside
    dsimp only at multiple
    refine ⟨i * s', ?_⟩
    rw [← mul_div_assoc, eq_div_iff absolute.ne', signed']
    push_cast
    linear_combination (s' : ℚ) * multiple
  have unit : j * k = 1 := by
    have product : ((j * k : ℤ) : ℚ) * p.content = 1 * p.content := by
      rw [above] at below
      field_simp at below
      push_cast
      linear_combination -p.content * below
    exact_mod_cast mul_right_cancel₀ first.ne' product
  have positive : 0 < j := by
    have product : 0 < (j : ℚ) * (p.content * |c|) := above ▸ second
    exact_mod_cast (mul_pos_iff_of_pos_right (mul_pos first absolute)).mp product
  have one : j = 1 := by
    rcases Int.eq_one_or_neg_one_of_mul_eq_one unit with same | same
    · exact same
    · omega
  rw [above, one, Int.cast_one, one_mul]

/-- The content of a single term. -/
theorem content_single (m : Monomial) {c : ℚ} (proper : c ≠ 0) : content ⟨[(m, c)]⟩ = |c| := by
  have multiple : (⟨[(m, c)]⟩ : Poly) = scale ⟨[(m, 1)]⟩ c := by simp [scale, proper]
  have one : content ⟨[(m, 1)]⟩ = 1 := by simp [content, Rat.mkRat_eq_div]
  rw [multiple, content_scale ⟨(m, 1), List.mem_cons_self, one_ne_zero⟩ proper, one, one_mul]

end Discharge.Poly
