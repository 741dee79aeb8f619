import Discharge.Oracle
import Discharge.Proofs.Canonical.Content
import Discharge.Proofs.Normal.Shift

/-! Distributed and factored forms. The reciprocal of the denominator has to be
found for the first one. Taking the content and the common monomial out of a
numerator fails only where a term cannot be divided by the monomial; the content
does not matter. -/

namespace Discharge

namespace Poly

variable {p : Poly} {m : Monomial} {c : ℚ}

theorem commonMonomial_scale (proper : c ≠ 0) :
    (p.scale c).commonMonomial = p.commonMonomial := by
  unfold commonMonomial
  rw [terms_scale proper]
  obtain ⟨ts⟩ := p
  cases ts with
  | nil => rfl
  | cons t ts => simp only [List.map_cons, List.foldl_cons, List.foldl_map]

theorem shift_scale_ok_iff (proper : c ≠ 0) :
    (∃ q, (p.scale c).shift m = .ok q) ↔ ∃ q, p.shift m = .ok q := by
  rw [shift_ok_iff, shift_ok_iff, terms_scale proper, List.forall_mem_map]

end Poly

namespace Fraction

variable {r : Fraction}

/-- The distributed form is the tree itself, or a product or a sum. -/
theorem isLiteralZero_of_expanded {x : Expr} (ran : r.expanded = .ok x)
    (zero : x.isLiteralZero = true) : r.toExpr.isLiteralZero = true := by
  unfold expanded at ran
  split at ran
  · cases ran
    exact zero
  · obtain ⟨reciprocal, -, rest⟩ := bind_eq_ok ran
    dsimp only at rest
    split at rest
    · rename_i y single
      cases rest
      have member : x ∈ [x] := List.mem_singleton.mpr rfl
      rw [← single] at member
      obtain ⟨t, -, rfl⟩ := List.mem_map.mp member
      cases zero
    · cases rest
      cases zero

theorem expanded_ok_iff : (∃ x, r.expanded = .ok x) ↔
    r.den.isOne = true ∨ ∃ s, make .one r.den = .ok s := by
  unfold expanded
  cases r.den.isOne with
  | true => exact iff_of_true ⟨_, rfl⟩ (.inl rfl)
  | false =>
    cases make .one r.den with
    | error e =>
      refine iff_of_false ?_ ?_
      · rintro ⟨x, ran⟩
        cases ran
      · rintro (one | ⟨s, made⟩)
        · cases one
        · cases made
    | ok s =>
      refine iff_of_true ?_ (.inr ⟨s, rfl⟩)
      simp only [bind, Except.bind, Bool.false_eq_true, ↓reduceIte]
      generalize r.num.terms.map _ = xs
      rcases xs with _ | ⟨x, _ | ⟨y, xs⟩⟩
      · exact ⟨_, rfl⟩
      · exact ⟨_, rfl⟩
      · exact ⟨_, rfl⟩

theorem signedContent_ne_zero (r : Fraction) : r.signedContent ≠ 0 := by
  unfold signedContent
  split
  · exact neg_ne_zero.mpr (Poly.content_pos _).ne'
  · exact (Poly.content_pos _).ne'

/-- A factored form is found exactly if the numerator is zero or can be divided by
its common monomial. -/
theorem factored_ok_iff : (∃ y, r.factored = .ok y) ↔ r.isZero = true ∨
    ∃ k q, r.num.commonMonomial.inverse = .ok k ∧ r.num.shift k = .ok q := by
  unfold factored
  by_cases empty : r.isZero = true
  · rw [if_pos empty]
    exact iff_of_true ⟨_, rfl⟩ (.inl empty)
  rw [if_neg empty, or_iff_right empty]
  cases inverted : r.num.commonMonomial.inverse with
  | error e =>
    simp only [inverted]
    exact ⟨fun ⟨_, ran⟩ => (nomatch ran), fun ⟨_, _, ran, _⟩ => (nomatch ran)⟩
  | ok k =>
    have scaled := Poly.shift_scale_ok_iff (p := r.num) (m := k) (inv_ne_zero r.signedContent_ne_zero)
    cases shifted : (r.num.scale r.signedContent⁻¹).shift k with
    | error e =>
      simp only [inverted, shifted, bind, Except.bind]
      refine iff_of_false (fun ⟨_, ran⟩ => (nomatch ran)) ?_
      rintro ⟨_, q, found, divided⟩
      cases found
      obtain ⟨inner, ran⟩ := scaled.mpr ⟨q, divided⟩
      cases shifted.symm.trans ran
    | ok inner =>
      obtain ⟨q, divided⟩ := scaled.mp ⟨inner, shifted⟩
      refine iff_of_true ?_ ⟨k, q, rfl, divided⟩
      simp only [inverted, shifted, bind, Except.bind]
      generalize List.filter _ _ = factors
      rcases factors with _ | ⟨x, _ | ⟨y, xs⟩⟩
      · exact ⟨_, rfl⟩
      · exact ⟨_, rfl⟩
      · exact ⟨_, rfl⟩

end Fraction

end Discharge
