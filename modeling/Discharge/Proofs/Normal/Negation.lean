import Discharge.Proofs.Normal.Symmetry
import Discharge.Proofs.Normal.Quotient

/-! Negatives of polynomials and fractions. Changing the sign of every
coefficient of a polynomial commutes with sums, products and shifts, with the
same failures, and so with every step that brings a quotient to canonical form:
the canonical form of a quotient is an odd function of its numerator. Hence the
two differences of two fractions are negatives of each other. -/

namespace Discharge

namespace Poly

variable {lower : Monomial → Outcome Poly}

theorem eq_of_terms {p q : Poly} (same : p.terms = q.terms) : p = q := by
  cases p
  cases q
  exact congrArg Poly.mk same

@[simp] theorem neg_terms (p : Poly) : p.neg.terms = p.terms.map fun t => (t.1, -t.2) := by
  simp [neg, scale]

protected theorem neg_neg (p : Poly) : p.neg.neg = p := by
  apply eq_of_terms
  simp [Function.comp_def]

theorem neg_inj {p q : Poly} : p.neg = q.neg ↔ p = q :=
  ⟨fun same => by rw [← p.neg_neg, same, q.neg_neg], congrArg neg⟩

@[simp] theorem isZero_neg (p : Poly) : p.neg.isZero = p.isZero := by simp [isZero]

theorem leading_neg (p : Poly) : p.neg.leading? = p.leading?.map (-·) := by
  obtain ⟨ts⟩ := p
  cases ts <;> simp [leading?]

theorem neg_scale (p : Poly) (c : Rat) : p.neg.scale c = (p.scale c).neg := by
  by_cases zero : c = 0
  · rw [scale, scale, if_pos zero, if_pos zero]
    rfl
  · apply eq_of_terms
    simp [scale, zero]

theorem scale_neg (p : Poly) (c : Rat) : p.scale (-c) = (p.scale c).neg := by
  by_cases zero : c = 0
  · rw [zero, Rat.neg_zero, scale, if_pos rfl]
    rfl
  · apply eq_of_terms
    simp [scale, zero]

theorem term_neg (m : Monomial) (c : Rat) : term m (-c) = (term m c).neg := by
  by_cases zero : c = 0
  · rw [zero, Rat.neg_zero, term, if_pos rfl]
    rfl
  · apply eq_of_terms
    simp [term, zero]

/-! ## Sums -/

theorem mergeTerms_neg (ts us : List (Monomial × Rat)) :
    mergeTerms (ts.map fun t => (t.1, -t.2)) (us.map fun t => (t.1, -t.2)) =
      (mergeTerms ts us).map fun t => (t.1, -t.2) := by
  refine merge_induction (motive := fun ts us out =>
    mergeTerms (ts.map fun t => (t.1, -t.2)) (us.map fun t => (t.1, -t.2)) =
      out.map fun t => (t.1, -t.2)) ?left ?right ?less ?greater ?cancel ?both ts us
  case left => exact fun us => mergeTerms_nil_left _
  case right => exact fun ts => mergeTerms_nil_right _
  case less =>
    intro m c ts n d us out order rest
    rw [List.map_cons, List.map_cons, mergeTerms_cons_cons, order, List.map_cons, ← rest]
    rfl
  case greater =>
    intro m c ts n d us out order rest
    rw [List.map_cons, List.map_cons, mergeTerms_cons_cons, Monomial.compare_gt_iff.mpr order,
      List.map_cons, ← rest]
    rfl
  case cancel =>
    intro m c ts d us out opposite rest
    rw [List.map_cons, List.map_cons, mergeTerms_cons_cons, (Monomial.compare_eq_iff m m).mpr rfl]
    dsimp only
    rw [if_pos (by grind), rest]
  case both =>
    intro m c ts d us out different rest
    rw [List.map_cons, List.map_cons, mergeTerms_cons_cons, (Monomial.compare_eq_iff m m).mpr rfl]
    dsimp only
    rw [if_neg (by grind), rest, List.map_cons, ← Rat.neg_add]

protected theorem neg_add (p q : Poly) : (p.add q).neg = p.neg.add q.neg := by
  apply eq_of_terms
  simp [add, mergeTerms_neg]

theorem addPairs_map_neg (ps : List Poly) : addPairs (ps.map neg) = (addPairs ps).map neg := by
  fun_induction addPairs ps with
  | case1 p q ps rest =>
    rw [List.map_cons, List.map_cons, addPairs, rest, List.map_cons, Poly.neg_add]
  | case2 ps short =>
    rcases ps with _ | ⟨p, _ | ⟨q, ps⟩⟩
    · rfl
    · rfl
    · exact absurd rfl (short p q ps)

theorem sumRounds_map_neg (rounds : Nat) (ps : List Poly) :
    sumRounds rounds (ps.map neg) = (sumRounds rounds ps).neg := by
  induction rounds generalizing ps with
  | zero =>
    induction ps with
    | nil => rfl
    | cons p ps rest =>
      have rest : (ps.map neg).foldr add zero = (ps.foldr add zero).neg := rest
      simp only [sumRounds, List.map_cons, List.foldr_cons, rest, Poly.neg_add]
  | succ rounds ih =>
    rcases ps with _ | ⟨p, _ | ⟨q, ps⟩⟩
    · rfl
    · rfl
    · have pairs := addPairs_map_neg (p :: q :: ps)
      simp only [List.map_cons] at pairs
      simp only [sumRounds, List.map_cons, pairs, ← ih]

theorem sum_map_neg (ps : List Poly) : sum (ps.map neg) = (sum ps).neg := by
  rw [sum, sum, List.length_map, sumRounds_map_neg]

/-! ## Products -/

theorem timesTerm_neg (m : Monomial) (c : Rat) (us : List (Monomial × Rat)) :
    timesTerm lower m (-c) us = (timesTerm lower m c us).map (List.map neg) := by
  induction us with
  | nil => rfl
  | cons u us rest =>
    obtain ⟨n, d⟩ := u
    simp only [timesTerm, rest, Rat.neg_mul, scale_neg]
    cases m.combine n with
    | error e => rfl
    | ok k =>
      simp only [bind, Except.bind]
      cases lower k with
      | error e => rfl
      | ok product => cases timesTerm lower m c us <;> rfl

theorem timesTerms_neg (us ts : List (Monomial × Rat)) :
    timesTerms lower us (ts.map fun t => (t.1, -t.2)) =
      (timesTerms lower us ts).map (List.map neg) := by
  induction ts with
  | nil => rfl
  | cons t ts rest =>
    simp only [List.map_cons, timesTerms, rest, timesTerm_neg]
    cases timesTerm lower t.1 t.2 us with
    | error e => rfl
    | ok row =>
      cases timesTerms lower us ts with
      | error e => rfl
      | ok rows => exact congrArg Except.ok List.map_append.symm

/-- A product is an odd function of its first factor. -/
protected theorem neg_mul (p q : Poly) : p.neg.mul q = (p.mul q).map neg := by
  simp only [mul, mulWith, neg_terms, List.length_map, timesTerms_neg]
  split
  · rfl
  · cases timesTerms Monomial.reduce q.terms p.terms with
    | error e => rfl
    | ok ps =>
      simp only [Except.map, bind, Except.bind, sum_map_neg, neg_terms, List.length_map]
      split <;> rfl

theorem shiftTerms_neg (m : Monomial) (ts : List (Monomial × Rat)) :
    shiftTerms m (ts.map fun t => (t.1, -t.2)) = (shiftTerms m ts).map (List.map neg) := by
  induction ts with
  | nil => rfl
  | cons t ts rest =>
    obtain ⟨n, c⟩ := t
    simp only [List.map_cons, shiftTerms, rest, scale_neg]
    cases n.combine m with
    | error e => rfl
    | ok k =>
      simp only [bind, Except.bind]
      cases k.reduce with
      | error e => rfl
      | ok product => cases shiftTerms m ts <;> rfl

/-- So is what is left of a polynomial divided by a monomial. -/
theorem neg_shift (p : Poly) (m : Monomial) : p.neg.shift m = (p.shift m).map neg := by
  rw [shift, shift, neg_terms, shiftTerms_neg]
  cases shiftTerms m p.terms with
  | error e => rfl
  | ok ps => exact congrArg Except.ok (sum_map_neg ps)

end Poly

/-! ## Quotients -/

namespace Fraction

variable {num den : Poly} {r s t : Fraction}

theorem neg_ofPoly (p : Poly) : (ofPoly p).neg = ofPoly p.neg := rfl

protected theorem neg_neg (r : Fraction) : r.neg.neg = r := by
  obtain ⟨num, den⟩ := r
  rw [neg, neg, Poly.neg_neg]

theorem rationalise_neg (rounds : Nat) (num den : Poly) :
    rationalise rounds num.neg den =
      (rationalise rounds num den).map fun sides => (sides.1.neg, sides.2) := by
  induction rounds generalizing num den with
  | zero =>
    unfold rationalise
    cases den.firstSurd? <;> rfl
  | succ rounds ih =>
    unfold rationalise
    cases den.firstSurd? with
    | none => rfl
    | some surd =>
      simp only [Poly.neg_mul]
      cases num.mul (conjugator den surd) with
      | error e => rfl
      | ok top =>
        simp only [Except.map, bind, Except.bind]
        cases den.mul (conjugator den surd) with
        | error e => rfl
        | ok bottom =>
          dsimp only
          split
          · rfl
          · exact ih top bottom

theorem cancelMonomial_neg (num den : Poly) :
    cancelMonomial num.neg den =
      (cancelMonomial num den).map fun sides => (sides.1.neg, sides.2) := by
  unfold cancelMonomial
  dsimp only
  split
  · rfl
  · cases den.commonMonomial.inverse with
    | error e => rfl
    | ok inverse =>
      simp only [bind, Except.bind, Poly.neg_shift]
      cases num.shift inverse with
      | error e => rfl
      | ok top => cases den.shift inverse <;> rfl

theorem monic_neg (num den : Poly) : monic num.neg den = (monic num den).neg := by
  unfold monic
  simp only [Poly.neg_scale, Poly.leading_neg]
  cases (num.scale (den.leading?.getD 1)⁻¹).leading? with
  | none => rfl
  | some ratio =>
    simp only [Option.map_some, Poly.neg_terms, List.length_map, Poly.scale_neg, Poly.neg_inj]
    split
    · rw [constant, constant, neg_ofPoly, Poly.constant, Poly.term_neg]
      rfl
    · rfl

/-- The canonical form of a quotient is an odd function of its numerator. -/
theorem make_neg (num den : Poly) : make num.neg den = (make num den).map neg := by
  unfold make
  rw [Poly.isZero_neg, rationalise_neg]
  cases den.isZero with
  | true => rfl
  | false =>
  cases num.isZero with
  | true => rfl
  | false =>
  cases rationalise maxRounds num den with
  | error e => rfl
  | ok sides =>
    simp only [Except.map, bind, Except.bind, cancelMonomial_neg]
    cases cancelMonomial sides.1 sides.2 with
    | error e => rfl
    | ok sides =>
      dsimp only [Except.map]
      cases sides.2.singleTerm? with
      | none => exact congrArg Except.ok (monic_neg _ _)
      | some t =>
        dsimp only
        cases t.1.inverse with
        | error e => rfl
        | ok inverse =>
          dsimp only
          rw [Poly.neg_shift]
          cases sides.1.shift inverse with
          | error e => rfl
          | ok quotient => exact congrArg (Except.ok ∘ ofPoly) (Poly.neg_scale quotient _)

/-- The sides of a difference taken the other way round. -/
theorem sumSides_swap (ran : sumSides r s.neg = .ok (num, den)) :
    sumSides s r.neg = .ok (num.neg, den) := by
  unfold sumSides at ran ⊢
  by_cases same : r.den = s.den
  · rw [if_pos (show r.den = s.neg.den from same)] at ran
    rw [if_pos (show s.den = r.neg.den from same.symm)]
    cases ran
    rw [neg, neg, Poly.neg_add, Poly.neg_neg, Poly.add_comm, same]
  · rw [if_neg (show ¬ r.den = s.neg.den from same)] at ran
    rw [if_neg (show ¬ s.den = r.neg.den from Ne.symm same)]
    obtain ⟨left, first, ran⟩ := bind_eq_ok ran
    obtain ⟨right, second, ran⟩ := bind_eq_ok ran
    obtain ⟨bottom, third, ran⟩ := bind_eq_ok ran
    cases ran
    rw [neg, Poly.neg_mul] at second
    obtain ⟨product, positive, rfl⟩ := map_eq_ok second
    simp only [neg] at first third ⊢
    simp only [Poly.neg_mul, first, positive, Poly.mul_comm.mp third, bind, Except.bind,
      Except.map, pure, Except.pure]
    rw [Poly.neg_add, Poly.neg_neg, Poly.add_comm]

/-- Exchanging the operands of a difference negates it. -/
theorem sub_swap : r.sub s = .ok t ↔ s.sub r = .ok t.neg := by
  have swap : ∀ {r s t : Fraction}, r.sub s = .ok t → s.sub r = .ok t.neg := by
    intro r s t ran
    rw [sub, add_eq_make] at ran ⊢
    obtain ⟨⟨num, den⟩, sides, ran⟩ := bind_eq_ok ran
    rw [sumSides_swap sides]
    show make num.neg den = .ok t.neg
    rw [make_neg, ran]
    rfl
  exact ⟨swap, fun ran => t.neg_neg ▸ swap ran⟩

end Fraction

end Discharge
