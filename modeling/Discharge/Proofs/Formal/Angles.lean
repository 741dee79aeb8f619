import Discharge.Proofs.Elementary.Verification
import Discharge.Proofs.Formal.Faithful

/-! Angles in exponents. An exponential takes an exact angle out of its exponent,
and keeps any other. In the product of two sums whose exponents have one angle in
all terms of a sum, the exponents again have one: the sum of the two, or none if
that is exact. Values do not tell the two apart that an exact angle has inside an
exponent and outside of it, so they are compared at the same angle only, and what
is taken out on the way is a factor of the product. -/

namespace Discharge

open Failure (IsRefusalIn)
open Monomial (halfTurn)

namespace Poly

variable {p q u : Poly} {α β : ℚ}

/-- The multiple of `i·π`. -/
def angle (p : Poly) : Rat := (p.coefficient? halfTurn).getD 0

/-- The angle that an exponential keeps in its exponent. -/
def keptAngle (α : Rat) : Rat := if (unitRoot? α).isSome then 0 else α

theorem angle_eq_coefficients (ordered : p.Ordered) :
    p.angle = coefficients p.terms halfTurn := by
  rw [angle, coefficient?, coefficient_eq ordered]

theorem angle_add (left : p.Ordered) (right : q.Ordered) :
    (p.add q).angle = p.angle + q.angle := by
  rw [angle_eq_coefficients left, angle_eq_coefficients right,
    angle_eq_coefficients (left.add right)]
  exact DFunLike.congr_fun (coefficients_mergeTerms p.terms q.terms) halfTurn

theorem angle_of_all (none : p.All (· ≠ halfTurn)) : p.angle = 0 := by
  cases found : p.coefficient? halfTurn with
  | none => rw [angle, found, Option.getD_none]
  | some c => exact absurd rfl (none _ (Valuation.mem_of_coefficient found))

theorem keptAngle_of_exact (exact : unitRoot? α = some u) : keptAngle α = 0 := by
  rw [keptAngle, exact]
  rfl

theorem keptAngle_of_inexact (inexact : unitRoot? α = none) : keptAngle α = α := by
  rw [keptAngle, inexact]
  rfl

theorem unitRoot_zero : unitRoot? 0 = some .one := by decide_cbv

@[simp] theorem keptAngle_zero : keptAngle 0 = 0 := keptAngle_of_exact unitRoot_zero

@[simp] theorem keptAngle_keptAngle (α : Rat) : keptAngle (keptAngle α) = keptAngle α := by
  cases exact : unitRoot? α with
  | none => rw [keptAngle_of_inexact exact, keptAngle_of_inexact exact]
  | some u => rw [keptAngle_of_exact exact, keptAngle_zero]

/-- The exact value at the angle, if there is one, contains no roots besides those
of the system. -/
def TameAngle (R : Set (ℕ × ℕ)) (α : Rat) : Prop :=
  ∀ u, unitRoot? α = some u → u.All fun m => ∀ f ∈ m.factors, f.1.RootIn R

theorem tameAngle_zero (R : Set (ℕ × ℕ)) : TameAngle R 0 := by
  intro u exact
  cases exact.symm.trans unitRoot_zero
  exact .term (fun _ member => absurd member List.not_mem_nil) 1

/-- A kept angle is none, or not exact. -/
theorem tameAngle_of_kept {R : Set (ℕ × ℕ)} (kept : keptAngle α = α) : TameAngle R α := by
  intro u exact
  rw [keptAngle_of_exact exact] at kept
  subst kept
  exact tameAngle_zero R u exact

end Poly

namespace Formal

open Interpretation (complex complex_elementary complex_sqrt)
open Discharge.Poly (keptAngle TameAngle tameAngle_of_kept)

variable {R : Set (ℕ × ℕ)} {S : Finset Atom} {max : Nat} {p q u : Poly} {m n : Monomial}
  {ts : List (Monomial × Rat)} {α β : ℚ}

/-! ## Exact angles -/

/-- A point of the unit circle. -/
noncomputable def rotation (α : ℚ) : Formal :=
  algebraMap ℂ Formal (Complex.exp (α * (Real.pi * Complex.I)))

@[simp] theorem rotation_zero : rotation 0 = 1 := by simp [rotation]

/-- Exact values of exponentials as complex numbers. -/
noncomputable def plane : Valuation ℂ where
  atom := Atom.value (complex 0)
  exp _ := 1
  exp_zero := rfl
  exp_add _ _ := (one_mul 1).symm
  known a := a = .imaginary ∨ ∃ n : ℕ, a = .root (.constant ((n : ℕ) : ℚ)) 2
  invertible _ := False
  isUnit _ := False.elim
  turning := False

theorem plane_knows : plane.KnowsAngles where
  imaginary := .inl rfl
  surd n _ := .inr ⟨n, rfl⟩

theorem unitRoot_exp (found : Poly.unitRoot? α = some u) : u.All fun m => m.exp = .zero :=
  (Valuation.unitRoot_admitted plane_knows found).all.mono fun _ admitted =>
    admitted.turning.resolve_right id

/-- Numbers of the system have the same values in the plane. -/
theorem atomValue_eq_plane {a : Atom} (known : plane.known a) (inside : a.RootIn R) :
    atomValue R a = algebraMap ℂ Formal (plane.atom a) := by
  rcases known with rfl | ⟨n, rfl⟩
  · rw [atomValue]
    rfl
  · have value : plane.atom (.root (.constant ((n : ℕ) : ℚ)) 2) = (√(n : ℝ) : ℝ) := by
      refine (Interpretation.value_root_constant (complex_elementary 0) _).trans ?_
      rw [complex_sqrt 0 (Nat.cast_nonneg n), Rat.cast_natCast]
    rw [atomValue, if_pos inside, value, Radical.radicand_constant, Radical.value,
      Real.sqrt_eq_rpow, Nat.cast_ofNat]

namespace Adjunction

variable {A : Type} [CommRing A] [Algebra ℚ A] [Algebra Formal A] (E : Adjunction S A)

theorem factors_eq_plane (adjoinable : Adjoinable R S) {fs : List (Atom × Int)}
    (known : ∀ f ∈ fs, plane.known f.1) (inside : ∀ f ∈ fs, f.1.RootIn R) :
    (E.valuation R max).factors fs =
      algebraMap Formal A (algebraMap ℂ Formal (plane.factors fs)) := by
  induction fs with
  | nil => rw [Valuation.factors_nil, Valuation.factors_nil, map_one, map_one]
  | cons f fs ih =>
    obtain ⟨a, n⟩ := f
    obtain ⟨head, tail⟩ := List.forall_mem_cons.mp known
    obtain ⟨head', tail'⟩ := List.forall_mem_cons.mp inside
    have atom : (E.valuation R max).atom a =
        algebraMap Formal A (algebraMap ℂ Formal (plane.atom a)) := by
      rw [← atomValue_eq_plane head head', ← E.value_of_root adjoinable head']
      rfl
    rw [Valuation.factors_cons, Valuation.factors_cons, map_mul, map_mul, ih tail tail', atom,
      intPower_algebraMap, intPower_eq_zpow, map_zpow₀ (algebraMap ℂ Formal)]

theorem terms_eq_plane (adjoinable : Adjoinable R S) (admitted : ∀ t ∈ ts, plane.Admits t.1)
    (tame : ∀ t ∈ ts, ∀ f ∈ t.1.factors, f.1.RootIn R) : (E.valuation R max).terms ts =
      algebraMap Formal A (algebraMap ℂ Formal (plane.terms ts)) := by
  induction ts with
  | nil => rw [Valuation.terms_nil, Valuation.terms_nil, map_zero, map_zero]
  | cons t ts ih =>
    obtain ⟨m, c⟩ := t
    obtain ⟨head, tail⟩ := List.forall_mem_cons.mp admitted
    obtain ⟨head', tail'⟩ := List.forall_mem_cons.mp tame
    have plain : m.exp = .zero := head.turning.resolve_right id
    have number : algebraMap ℚ A c = algebraMap Formal A (algebraMap ℂ Formal (c : ℂ)) := by
      rw [IsScalarTower.algebraMap_apply ℚ Formal A, map_ratCast (algebraMap ℂ Formal),
        eq_ratCast (algebraMap ℚ Formal)]
    rw [Valuation.terms_cons, Valuation.terms_cons, map_add, map_add, map_mul, map_mul,
      ih tail tail', Valuation.monomial_eq, Valuation.monomial_eq, plain, Valuation.poly_zero,
      Valuation.poly_zero, Valuation.exp_zero, Valuation.exp_zero, mul_one, mul_one,
      E.factors_eq_plane adjoinable (fun f member => (head.factor f member).known) head', number,
      eq_ratCast]

/-- The exact value of an exponential at an angle is a point of the unit circle. -/
theorem unitRoot_value (adjoinable : Adjoinable R S) (found : Poly.unitRoot? α = some u)
    (tame : TameAngle R α) : (E.valuation R max).poly u = algebraMap Formal A (rotation α) := by
  obtain ⟨admitted, value⟩ :=
    (complex_elementary 0).unitRoot_value (v := plane) rfl plane_knows found
  rw [Valuation.poly_eq, E.terms_eq_plane adjoinable admitted.all (tame u found),
    ← Valuation.poly_eq, value]
  rfl

theorem unitRoot_admits (system : Radical.Independent R) (adjoinable : Adjoinable R S)
    (found : Poly.unitRoot? α = some u) (tame : TameAngle R α) :
    (E.valuation R max).AdmitsPoly u := by
  refine E.admits_of_rootsIn system adjoinable (fun t term => ?_)
    (Valuation.unitRoot_admitted (Vocabulary.canonical_closed max).angles found)
  refine ⟨fun f factor => .inl (tame u found t term f factor), ?_, ?_⟩
  · rw [unitRoot_exp found t term]
    exact .zero
  · rw [unitRoot_exp found t term]
    exact Poly.every_zero

/-- The factor by which a value changes when an angle is taken out of an exponent. -/
noncomputable def twist (R : Set (ℕ × ℕ)) (max : Nat) (α : ℚ) : A :=
  algebraMap Formal A (rotation α) *
    (E.valuation R max).exp (-(algebraMap ℚ A α * (E.valuation R max).monomial halfTurn))

@[simp] theorem twist_zero : E.twist R max 0 = 1 := by
  rw [twist, rotation_zero, map_one, map_zero, zero_mul, neg_zero, Valuation.exp_zero, one_mul]

/-- What is taken out of an exponent and what is left of it. -/
theorem takeTurn_value (system : Radical.Independent R) (adjoinable : Adjoinable R S)
    (ordered : p.Ordered) (inner : p.All fun m => m.Canonical max ∧ m.Every (Nonnegative S))
    (exact : Poly.unitRoot? p.angle = some u) (tame : TameAngle R p.angle) :
    (Monomial.takeTurn p).1.Ordered ∧ (Monomial.takeTurn p).1.All (E.valuation R max).inner ∧
      (∀ q ∈ (Monomial.takeTurn p).2, (E.valuation R max).AdmitsPoly q) ∧
      (E.valuation R max).exp ((E.valuation R max).poly (Monomial.takeTurn p).1) *
          ((Monomial.takeTurn p).2.map (E.valuation R max).poly).prod =
        E.twist R max p.angle * (E.valuation R max).exp ((E.valuation R max).poly p) := by
  cases found : p.coefficient? halfTurn with
  | none =>
    have angle : p.angle = 0 := by rw [Poly.angle, found, Option.getD_none]
    have turn : Monomial.takeTurn p = (p, []) := by rw [Monomial.takeTurn, found, Option.bind_none]
    rw [turn, angle]
    refine ⟨ordered, fun t member => ⟨?_, inner t member⟩, by simp, by simp⟩
    intro half
    have absent := List.lookup_eq_none_iff.mp found t member
    rw [half] at absent
    simp at absent
  | some c =>
    have angle : p.angle = c := by rw [Poly.angle, found, Option.getD_some]
    rw [angle] at exact tame ⊢
    have turn : Monomial.takeTurn p = (p.erase halfTurn, [u]) := by
      rw [Monomial.takeTurn, found, Option.bind_some, exact]
    rw [turn]
    refine ⟨ordered.erase _, fun t member => ?_, ?_, ?_⟩
    · obtain ⟨old, other⟩ := List.mem_filter.mp member
      exact ⟨of_decide_eq_true other, inner t old⟩
    · intro q member
      rw [List.mem_singleton.mp member]
      exact E.unitRoot_admits system adjoinable exact tame
    · have undone : (E.valuation R max).exp
          (-(algebraMap ℚ A c * (E.valuation R max).monomial halfTurn)) *
          (E.valuation R max).exp (algebraMap ℚ A c * (E.valuation R max).monomial halfTurn) =
          1 := by
        rw [← Valuation.exp_add, neg_add_cancel, Valuation.exp_zero]
      rw [List.map_singleton, List.prod_singleton, E.unitRoot_value adjoinable exact tame,
        Valuation.poly_erase ordered found, Valuation.exp_add, twist]
      linear_combination -algebraMap Formal A (rotation c) *
        (E.valuation R max).exp ((E.valuation R max).poly (p.erase halfTurn)) * undone

/-! ## Sums at an angle -/

/-- The formal values, with any angle in an exponent. -/
noncomputable def angled (R : Set (ℕ × ℕ)) (max : Nat) : Valuation A :=
  { E.valuation R max with inner := fun m => m.Canonical max ∧ m.Every (Nonnegative S) }

theorem angled_monomial (m : Monomial) :
    (E.angled R max).monomial m = (E.valuation R max).monomial m :=
  Valuation.monomial_congr (v := E.valuation R max) (w := E.angled R max) rfl rfl m

theorem angled_factor {f : Atom × Int} :
    (E.angled R max).AdmitsFactor f ↔ (E.valuation R max).AdmitsFactor f :=
  ⟨fun ⟨nonzero, fits, known, regular⟩ => ⟨nonzero, fits, known, regular⟩,
    fun ⟨nonzero, fits, known, regular⟩ => ⟨nonzero, fits, known, regular⟩⟩

/-- A monomial that can be computed with, but for the angle in its exponent. -/
structure MonomialAt (R : Set (ℕ × ℕ)) (max : Nat) (α : ℚ) (m : Monomial) : Prop where
  admitted : (E.angled R max).Admits m
  angle : m.exp.angle = α

/-- A sum of such monomials, all with the same angle. -/
structure PolyAt (R : Set (ℕ × ℕ)) (max : Nat) (α : ℚ) (p : Poly) : Prop where
  ordered : p.Ordered
  all : p.All (E.MonomialAt R max α)

theorem linear_at (α : ℚ) : Poly.Linear (E.PolyAt R max α) where
  zero := ⟨.zero, .zero⟩
  add left right := ⟨left.ordered.add right.ordered, left.all.add right.all⟩
  scale member c := ⟨member.ordered.scale c, member.all.scale c⟩

variable {E}

/-- What can be computed with has no angles. -/
theorem monomialAt_zero (admitted : (E.valuation R max).Admits m) : E.MonomialAt R max 0 m where
  admitted := ⟨admitted.increasing, fun f member => E.angled_factor.mpr (admitted.factor f member),
    admitted.exponent, admitted.turning, admitted.inner.mono fun _ inside => inside.2⟩
  angle := Poly.angle_of_all (admitted.inner.mono fun _ inside => inside.1)

theorem polyAt_zero (admitted : (E.valuation R max).AdmitsPoly p) : E.PolyAt R max 0 p :=
  ⟨admitted.ordered, admitted.all.mono fun _ => monomialAt_zero⟩

theorem MonomialAt.factor (member : E.MonomialAt R max α m) :
    ∀ f ∈ m.factors, (E.valuation R max).AdmitsFactor f := fun f occurs =>
  E.angled_factor.mp (member.admitted.factor f occurs)

/-- The same exponent with other factors. -/
theorem MonomialAt.withFactors (member : E.MonomialAt R max α m) {fs : List (Atom × Int)}
    (admitted : ∀ f ∈ fs, (E.valuation R max).AdmitsFactor f)
    (atoms : (fs.map Prod.fst).Sublist (m.factors.map Prod.fst)) :
    E.MonomialAt R max α ⟨fs, m.exp⟩ where
  admitted := ⟨member.admitted.increasing.of_sublist atoms, fun f occurs =>
    E.angled_factor.mpr (admitted f occurs), member.admitted.exponent, member.admitted.turning,
    member.admitted.inner⟩
  angle := member.angle

/-- No exponent of an adjoined root is negative. -/
theorem PolyAt.nonnegative (member : E.PolyAt R max α p) : p.Every (Nonnegative S) := by
  refine Poly.every_iff.mpr fun t term => Monomial.every_iff.mpr ⟨fun f factor inside => ?_, ?_⟩
  · by_contra negative
    exact (((member.all t term).factor f factor).regular (not_le.mp negative)).1 inside
  · exact Poly.every_iff.mpr fun u inner => ((member.all t term).admitted.inner u inner).2

/-! ## Reduction -/

variable (E) in
/-- The reduction of a monomial at one angle is a sum at another one, and changes the
value by a factor. -/
def ReducesAt (R : Set (ℕ × ℕ)) (max : Nat) (lower : Monomial → Outcome Poly) (α β : ℚ) (x : A) :
    Prop :=
  ∀ m, E.MonomialAt R max α m → Ensures (lower m) (fun r => E.PolyAt R max β r ∧
    (E.valuation R max).poly r = x * (E.valuation R max).monomial m) (IsRefusalIn A)

variable {lower : Monomial → Outcome Poly} {γ : ℚ} {x : A}

/-- Angles are added up in a product. -/
theorem ReducesAt.multiplies (reduces : E.ReducesAt R max lower (α + β) γ x) :
    (E.valuation R max).Multiplies lower (E.MonomialAt R max α) (E.MonomialAt R max β)
      (E.PolyAt R max γ) x (IsRefusalIn A) := by
  intro m n left right
  have sum (k : Monomial) (ran : m.combine n = .ok k) : k.exp.angle = α + β := by
    obtain ⟨fs, -, rest⟩ := bind_eq_ok ran
    cases rest
    rw [← left.angle, ← right.angle]
    exact Poly.angle_add left.admitted.exponent right.admitted.exponent
  have combined := (Valuation.combine_ensures left.admitted right.admitted).and sum
  refine .bind (combined.mono_error fun _ large => large.isRefusalIn A) ?_
  rintro k ⟨⟨admitted, value⟩, angle⟩
  rw [angled_monomial, angled_monomial, angled_monomial] at value
  rw [← value]
  exact reduces k ⟨admitted, angle⟩

/-- Multiplying by sums without angles, one after the other. -/
theorem ReducesAt.foldlM (reduces : E.ReducesAt R max lower α α 1) (ps : List Poly)
    (each : ∀ q ∈ ps, (E.valuation R max).AdmitsPoly q) (start : E.PolyAt R max α p) :
    Ensures (ps.foldlM (Poly.mulWith lower) p) (fun r => E.PolyAt R max α r ∧
      (E.valuation R max).poly r =
        (E.valuation R max).poly p * (ps.map (E.valuation R max).poly).prod) (IsRefusalIn A) := by
  induction ps generalizing p with
  | nil => exact ⟨start, by simp⟩
  | cons q ps ih =>
    obtain ⟨head, tail⟩ := List.forall_mem_cons.mp each
    rw [List.foldlM_cons]
    have multiplies : (E.valuation R max).Multiplies lower (E.MonomialAt R max α)
        (E.MonomialAt R max 0) (E.PolyAt R max α) 1 (IsRefusalIn A) :=
      ReducesAt.multiplies (by rwa [add_zero])
    refine .bind (multiplies.mulWith (E.linear_at α) (fun _ large => large.isRefusalIn A) start.all
      (polyAt_zero head).all) ?_
    rintro r ⟨member, value⟩
    refine (ih tail member).mono ?_
    rintro s ⟨final, whole⟩
    rw [one_mul] at value
    exact ⟨final, by rw [whole, value, List.map_cons, List.prod_cons, mul_assoc]⟩

theorem settle_at (lawful : (E.valuation R max).Lawful) (α : ℚ) :
    E.ReducesAt R max Monomial.settle α α 1 := by
  intro m member
  refine .bind (Valuation.settleFactors_ensures lawful member.factor) ?_
  rintro ⟨c, fs⟩ ⟨value, rest, atoms⟩
  refine ⟨⟨.term _ c, .term (member.withFactors rest atoms) c⟩, ?_⟩
  rw [Valuation.poly_term, Valuation.monomial_eq, Valuation.monomial_eq, value]
  ring

/-- The reduction of a monomial takes an exact angle out of its exponent. -/
theorem reduceWith_at (system : Radical.Independent R) (adjoinable : Adjoinable R S)
    (lawful : (E.valuation R max).Lawful) (reduces : (E.valuation R max).Reduces lower)
    (keeps : keptAngle α = α → E.ReducesAt R max lower α α 1) (tame : TameAngle R α) :
    E.ReducesAt R max (Monomial.reduceWith lower) α (keptAngle α)
      (E.twist R max (α - keptAngle α)) := by
  intro m member
  obtain ⟨dropped, atoms⟩ := Valuation.dropExcess_spec member.factor
  refine .bind (Valuation.settleFactors_ensures lawful dropped) ?_
  rintro ⟨c, fs⟩ ⟨settled, rest, sublist⟩
  refine .bind (Valuation.excesses_ensures lawful reduces member.factor) ?_
  rintro powers ⟨multiplied, value⟩
  have inside := sublist.trans atoms
  cases exact : Poly.unitRoot? α with
  | none =>
    have kept : Monomial.takeTurn m.exp = (m.exp, []) := by
      unfold Monomial.takeTurn
      cases found : m.exp.coefficient? halfTurn with
      | none => rfl
      | some d =>
        have same : d = α := by rw [← member.angle, Poly.angle, found, Option.getD_some]
        rw [Option.bind_some, same, exact]
    have unchanged := Poly.keptAngle_of_inexact exact
    rw [kept, unchanged, sub_self, twist_zero]
    change Ensures ((powers ++ []).foldlM (Poly.mulWith lower) (Poly.term ⟨fs, m.exp⟩ c)) _ _
    rw [List.append_nil]
    refine ((keeps unchanged).foldlM powers multiplied
      ⟨.term _ c, .term (member.withFactors rest inside) c⟩).mono ?_
    rintro r ⟨final, whole⟩
    refine ⟨final, ?_⟩
    rw [whole, Valuation.poly_term, Valuation.monomial_eq, Valuation.monomial_eq, value, settled]
    ring
  | some u =>
    rw [← member.angle] at exact tame
    obtain ⟨ordered, inner, turns, taken⟩ := E.takeTurn_value system adjoinable
      member.admitted.exponent member.admitted.inner exact tame
    have start : (E.valuation R max).Admits ⟨fs, (Monomial.takeTurn m.exp).1⟩ :=
      ⟨member.admitted.increasing.of_sublist inside, rest, ordered, .inr trivial, inner⟩
    rw [← member.angle, Poly.keptAngle_of_exact exact, sub_zero]
    refine (Valuation.foldlM_mulWith_ensures reduces (powers ++ (Monomial.takeTurn m.exp).2)
      (List.forall_mem_append.mpr ⟨multiplied, turns⟩) (.term start c)).mono ?_
    rintro r ⟨final, whole⟩
    refine ⟨polyAt_zero final, ?_⟩
    rw [whole, Valuation.poly_term, Valuation.monomial_eq, Valuation.monomial_eq, value, settled,
      List.map_append, List.prod_append]
    linear_combination algebraMap ℚ A c * (E.valuation R max).factors fs *
      (powers.map (E.valuation R max).poly).prod * taken

/-- The reduction takes an exact angle out, and keeps any other.  The induction is on
the rounds of reduction. -/
theorem reduce_at (system : Radical.Independent R) (adjoinable : Adjoinable R S)
    (lawful : (E.valuation R max).Lawful) (tame : TameAngle R α) :
    E.ReducesAt R max Monomial.reduce α (keptAngle α) (E.twist R max (α - keptAngle α)) := by
  have rounds (n : Nat) {α : ℚ} (tame : TameAngle R α) :
      E.ReducesAt R max (Monomial.reduceAt n) α (keptAngle α)
        (E.twist R max (α - keptAngle α)) := by
    induction n generalizing α with
    | zero =>
      exact reduceWith_at system adjoinable lawful (Valuation.settle_reduces lawful)
        (fun _ => settle_at lawful α) tame
    | succ n ih =>
      refine reduceWith_at system adjoinable lawful (Valuation.reduceAt_reduces lawful n)
        (fun kept => ?_) tame
      have below := ih tame
      rwa [kept, sub_self, twist_zero] at below
  exact fun m member => rounds m.rootDepth tame m member

theorem mul_at (system : Radical.Independent R) (adjoinable : Adjoinable R S)
    (lawful : (E.valuation R max).Lawful) (tame : TameAngle R (α + β))
    (left : E.PolyAt R max α p) (right : E.PolyAt R max β q) :
    Yields (p.mul q) (fun r => E.PolyAt R max (keptAngle (α + β)) r ∧
      (E.valuation R max).poly r = E.twist R max (α + β - keptAngle (α + β)) *
        ((E.valuation R max).poly p * (E.valuation R max).poly q)) :=
  ((reduce_at system adjoinable lawful tame).multiplies.mulWith (E.linear_at _)
    (fun _ large => large.isRefusalIn A) left.all right.all).mono_error fun _ _ => trivial

/-- Sums at a kept angle can stand in numerators. -/
theorem numerators_at (system : Radical.Independent R) (adjoinable : Adjoinable R S)
    (lawful : (E.valuation R max).Lawful) (kept : keptAngle α = α) :
    (E.valuation R max).Numerators (E.PolyAt R max α) := by
  have reduces : E.ReducesAt R max Monomial.reduce α (keptAngle α) _ :=
    reduce_at system adjoinable lawful (tameAngle_of_kept kept)
  rw [kept, sub_self, twist_zero] at reduces
  have multiplies : (E.valuation R max).Multiplies Monomial.reduce (E.MonomialAt R max α)
      (E.MonomialAt R max 0) (E.PolyAt R max α) 1 (IsRefusalIn A) :=
    ReducesAt.multiplies (by rwa [add_zero])
  refine ⟨E.linear_at α, fun {p q} left right => ?_, fun {p m} left right => ?_,
    fun {q c} admitted proper member => ?_⟩
  · have product : Yields (p.mul q) _ := (multiplies.mulWith (E.linear_at α)
      (fun _ large => large.isRefusalIn A) left.all (polyAt_zero right).all).mono_error
      fun _ _ => trivial
    simpa only [one_mul] using product
  · have product := multiplies.shift (E.linear_at α) left.all (monomialAt_zero right)
    simpa only [one_mul] using product.mono_error fun _ _ => trivial
  · by_cases zero : c = 0
    · rw [zero]
      exact (E.linear_at α).zero
    -- A term of the denominator has no angle, and one of the numerator has this one.
    obtain ⟨_ | ⟨t, ts⟩⟩ := q
    · cases proper
    have none := (polyAt_zero admitted).all t List.mem_cons_self
    have some := member.all (t.1, t.2 * c) (by simp [Poly.scale, zero])
    rw [← some.angle, none.angle]
    exact polyAt_zero (.constant c)

/-! ## Fractions at an angle -/

variable {r s : Fraction} {y : A} {a b : Expr}

variable (E) in
/-- The fraction has the value `x`, and one angle in all terms of its numerator. -/
abbrev FractionAt (R : Set (ℕ × ℕ)) (max : Nat) (α : ℚ) (r : Fraction) (x : A) : Prop :=
  (E.valuation R max).RepresentsOver (E.PolyAt R max α) (Poly.Canonical max) r x

theorem FractionAt.isZero (system : Radical.Independent R) (adjoinable : Adjoinable R S)
    (zero : E.FractionAt R max α r 0) : r.isZero = true := by
  obtain ⟨⟨top, -, canonical, -, value⟩, -⟩ := zero
  rw [zero_mul] at value
  exact E.isZero_of_value system adjoinable canonical top.nonnegative value

section Arithmetic

variable (system : Radical.Independent R) (adjoinable : Adjoinable R S) (rooted : E.Rooted R max)

include system adjoinable rooted

theorem FractionAt.mul (tame : TameAngle R (α + β)) (left : E.FractionAt R max α r x)
    (right : E.FractionAt R max β s y) :
    Yields (r.mul s) (E.FractionAt R max (keptAngle (α + β)) ·
      (E.twist R max (α + β - keptAngle (α + β)) * (x * y))) := by
  have := E.nontrivial
  have lawful := E.lawful system adjoinable rooted
  exact Valuation.RepresentsOver.mul (E.cancelling system adjoinable rooted)
    (numerators_at system adjoinable lawful (Poly.keptAngle_keptAngle _)) left right
    (mul_at system adjoinable lawful tame left.ratio.top right.ratio.top)

end Arithmetic

/-! ## Trees at an angle -/

section Trees

variable (system : Radical.Independent R) (adjoinable : Adjoinable R S) (rooted : E.Rooted R max)

include system adjoinable rooted

end Trees

end Adjunction

end Formal

end Discharge
