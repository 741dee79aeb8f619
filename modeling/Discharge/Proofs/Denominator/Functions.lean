import Discharge.Proofs.Denominator.Arithmetic
import Discharge.Proofs.Subterm

/-! Exponentials, logarithms, symbolic powers and the functions give fractions
whose denominators have their shape, and that are regular as long as nothing is
zero that was divided by or raised to a symbolic exponent. So do expressions. -/

namespace Discharge

theorem Traced.lnPlain_keeps (r : Traced) :
    Yields r.lnPlain (fun t => r.divisors ⊆ t.divisors) := by
  unfold lnPlain
  split
  · unfold lnConstant
    split
    · exact add_keeps _ _
    · exact List.Subset.refl _
  · exact List.Subset.refl _

namespace Valuation

variable {K : Type*} [Field K] [Algebra ℚ K] {v : Valuation K} {given : Prop} {used : List Poly}
  {r s t : Traced} {p : Poly} {max : Nat}

/-! ## Exponentials and logarithms -/

theorem takeLogarithms_sane (max : Nat) (ls : List (Fraction × Int)) (sane : v.Sane given r)
    (each : v.Complete → given → v.Clear r.divisors → ∀ l ∈ ls, v.Regular l.1) :
    Yields (Traced.takeLogarithms max r ls) (v.Sane given) := by
  induction ls generalizing r with
  | nil => exact sane
  | cons l ls ih =>
    obtain ⟨argument, n⟩ := l
    unfold Traced.takeLogarithms
    dsimp only
    split
    · trivial
    have base : v.Safe (given ∧ v.Clear r.divisors) (.whole argument) :=
      fun complete holds _ => each complete holds.1 holds.2 _ List.mem_cons_self
    refine .bind (powInt_sane base _ _) fun power raised => ?_
    refine .bind ((mul_sane sane.safe raised.safe).and fun t ran =>
      (Traced.mul_keeps _ _).of_ok ran) ?_
    rintro t ⟨product, kept⟩
    exact ih product fun complete holds clear l member =>
      each complete holds (clear.mono kept) l (List.mem_cons_of_mem _ member)

/-- The arguments of logarithms that are taken out of an exponential are regular. -/
theorem logarithm_regular (complete : v.Complete) (admitted : v.AdmitsPoly p) :
    ∀ l ∈ p.terms.filterMap Fraction.logarithm?, v.Regular l.1 := by
  intro l member
  obtain ⟨t, term, found⟩ := List.mem_filterMap.mp member
  have factors := (admitted.all t term).factor
  unfold Fraction.logarithm? at found
  split at found
  · rename_i argument c
    split at found
    · cases found
      exact (complete.ln _).mp (factors (.ln argument, 1) List.mem_cons_self).known
    · cases found
  · cases found

/-- Some of the terms of an admitted polynomial may stand in an exponent. -/
theorem exponential_admitted (complete : v.Complete) (admitted : v.AdmitsPoly p)
    {ts : List (Monomial × Rat)} (part : ts.Sublist p.terms) : v.Admits (.exponential ⟨ts⟩) := by
  refine ⟨.nil, fun _ member => absurd member List.not_mem_nil, ?_, .inr complete.turning, ?_⟩
  · exact ⟨admitted.ordered.increasing.sublist part,
      fun t member => admitted.ordered.nonzero t (part.subset member)⟩
  · exact fun t member => (complete.inner _).mpr (admitted.all t (part.subset member))

theorem exp_sane (safe : v.Safe given r) (max : Nat) : Yields (r.exp max) (v.Sane given) := by
  unfold Traced.exp
  dsimp only
  split
  · exact sane_ofPoly fun _ _ _ => .one
  split
  · exact sane_ofAtom fun complete holds clear => (complete.exp _).mpr (safe complete holds clear)
  have start : v.Sane given ⟨.one, r.divisors⟩ := sane_ofPoly fun _ _ _ => .one
  have taken := takeLogarithms_sane max _ start fun complete holds clear =>
    logarithm_regular complete (safe complete holds clear).num
  refine .bind (taken.and fun t ran => (Traced.takeLogarithms_keeps max _ _).of_ok ran) ?_
  rintro t ⟨whole, kept⟩
  refine Yields.bind_ok fun p ran =>
    mul_sane whole.safe (sane_ofPoly fun complete holds _ => ?_).safe
  have regular := safe complete holds.1 (holds.2.mono kept)
  exact ((reduce_reduces complete.lawful _
    (exponential_admitted complete regular.num List.filter_sublist)).of_ok ran).1

theorem lnPositive_sane (q : Rat) : v.Sane given ⟨Fraction.lnPositive q, used⟩ := by
  unfold Fraction.lnPositive
  split
  · exact sane_ofPoly fun _ _ _ => .zero
  · exact sane_ofAtom fun complete _ _ => (complete.ln _).mpr (.of_poly (.constant q))

theorem halfTurn_admitted (complete : v.Complete) : v.Admits .halfTurn := by
  refine ⟨?_, fun f member => ?_, .zero, .inl rfl, .zero⟩
  · exact List.pairwise_pair.mpr (by simp [Atom.compare, Atom.kind, compareInt])
  · rcases List.mem_pair.mp member with rfl | rfl
    · exact ⟨one_ne_zero, rfl, complete.pi, by simp⟩
    · exact ⟨one_ne_zero, rfl, complete.imaginary, by simp⟩

theorem lnPlain_sane (safe : v.Safe given r) : Yields r.lnPlain (v.Sane given) := by
  unfold Traced.lnPlain
  split
  · unfold Traced.lnConstant
    split
    · exact add_sane (lnPositive_sane _).safe
        (sane_ofPoly fun complete _ _ => .term (halfTurn_admitted complete) 1).safe
    · exact lnPositive_sane _
  · exact sane_ofAtom fun complete holds clear => (complete.ln _).mpr (safe complete holds clear)

/-- Taking the exponential out of a single term. -/
theorem realExponential_regular {rest : Fraction} {exponent : Poly} {f : Fraction}
    (complete : v.Complete) (regular : v.Regular f)
    (found : f.realExponential? = some (rest, exponent)) :
    v.Regular rest ∧ v.AdmitsPoly exponent := by
  unfold Fraction.realExponential? at found
  split at found
  · rename_i m c one single
    split at found
    · cases found
      have admitted : v.Admits m := by
        have member : (m, c) ∈ f.num.terms := by
          rw [singleTerm_eq single]
          exact List.mem_singleton.mpr rfl
        exact regular.num.all _ member
      have plain : v.Admits ⟨m.factors, .zero⟩ :=
        ⟨admitted.increasing, admitted.factor, .zero, .inl rfl, .zero⟩
      refine ⟨.of_poly (.term plain c), ?_⟩
      exact ⟨admitted.exponent, fun t member => (complete.inner _).mp (admitted.inner t member)⟩
    · cases found
  · cases found

theorem ln_sane (safe : v.Safe given r) : Yields r.ln (v.Sane given) := by
  unfold Traced.ln
  dsimp only
  split
  · trivial
  split
  · rename_i rest exponent found
    have parts : v.Complete → given → v.Clear r.divisors →
        v.Regular rest ∧ v.AdmitsPoly exponent := fun complete holds clear =>
      realExponential_regular complete (safe complete holds clear) found
    have plain : v.Safe given ⟨rest, r.divisors⟩ :=
      fun complete holds clear => (parts complete holds clear).1
    refine .bind ((lnPlain_sane plain).and fun t ran => (Traced.lnPlain_keeps _).of_ok ran) ?_
    rintro t ⟨logarithm, kept⟩
    exact add_sane logarithm.safe (sane_ofPoly fun complete holds _ =>
      (parts complete holds.1 (holds.2.mono kept)).2).safe
  · exact lnPlain_sane safe

/-! ## Symbolic powers -/

/-- What is left of an exponent without its constant term is no constant. -/
theorem constant_symbolic (ordered : p.Ordered) (proper : p.constant? = none)
    {c : Rat} (nonzero : c ≠ 0) : ((p.erase .one).scale c).constant? = none := by
  obtain ⟨ts⟩ := p
  have part : ((Poly.mk ts).erase .one).scale c =
      ⟨(ts.filter fun t => t.1 ≠ .one).map fun t => (t.1, t.2 * c)⟩ := if_neg nonzero
  rw [part]
  unfold Poly.constant?
  split
  · rename_i empty
    -- Then all terms are constant, and there is at most one.
    have each : ∀ t ∈ ts, t.1 = .one := by simpa using empty
    exfalso
    match ts, ordered.increasing, proper, each with
    | [], _, proper, _ => cases proper
    | [(m, d)], _, proper, each =>
      obtain rfl : m = .one := each _ List.mem_cons_self
      cases proper
    | (m, d) :: (n, d') :: ts, increasing, _, each =>
      have less := (List.pairwise_cons.mp increasing).1 (n, d') List.mem_cons_self
      have same : m = n := (each _ List.mem_cons_self).trans
        (each _ (List.mem_cons_of_mem _ List.mem_cons_self)).symm
      rw [same, (Monomial.compare_eq_iff n n).mpr rfl] at less
      cases less
  · rename_i d single
    obtain ⟨t, old, same⟩ := List.mem_map.mp (single.symm ▸ List.mem_singleton.mpr rfl)
    have other : t.1 ≠ .one := by simpa using (List.mem_filter.mp old).2
    exact absurd (congrArg Prod.fst same) other
  · rfl

theorem powPoly_sane (sane : v.Sane given r) {exponent : Poly}
    (proper : exponent.constant? = none)
    (admitted : v.Complete → given → v.Clear r.divisors → v.AdmitsPoly exponent)
    (base : given → v.poly r.fraction.num ≠ 0) (fits : given → fitsInt64 max = true) :
    Yields (r.powPoly exponent max) (v.Sane given) := by
  unfold Traced.powPoly
  dsimp only
  split
  · trivial
  rename_i bounded
  refine Yields.bind_ok fun p ran => ?_
  have power : v.Sane given ⟨.ofPoly p, r.divisors⟩ := by
    refine sane_ofPoly fun complete holds clear => ?_
    refine ((reduce_reduces complete.lawful _ ?_).of_ok ran).1
    have regular := sane.safe complete holds clear
    have symbolic := admitted complete holds clear
    unfold Monomial.ofAtom
    split
    · exact .one
    rename_i nonzero
    have inverse : ((Fraction.exponentUnit (exponent.erase .one) : Rat))⁻¹ ≠ 0 :=
      inv_ne_zero (by exact_mod_cast nonzero)
    have rest : v.AdmitsPoly (exponent.erase .one) :=
      ⟨symbolic.ordered.erase _, fun t member => symbolic.all t (List.mem_filter.mp member).1⟩
    have known := (complete.power r.fraction _).mpr ⟨regular, .of_poly (rest.scale _),
      constant_symbolic symbolic.ordered proper inverse⟩
    refine ⟨List.pairwise_singleton _ _, fun f member => ?_, .zero, .inl rfl, .zero⟩
    rw [List.mem_singleton.mp member]
    exact ⟨nonzero, by simpa using bounded, known, fun _ =>
      complete.invertible _ (complete.power_ne_zero _ _ regular (base holds))⟩
  split
  · exact power
  · refine .bind (powRat_sane sane _ fits) fun t raised => ?_
    exact mul_sane power.safe raised.safe.later

theorem pureExponential_admitted {f : Fraction} {exponent : Poly} (complete : v.Complete)
    (regular : v.Regular f) (found : f.pureExponential? = some exponent) :
    v.AdmitsPoly exponent := by
  unfold Fraction.pureExponential? at found
  split at found
  · rename_i e c one single
    split at found
    · cases found
      have member : (⟨[], exponent⟩, c) ∈ f.num.terms := by
        rw [singleTerm_eq single]
        exact List.mem_singleton.mpr rfl
      have admitted := regular.num.all _ member
      exact ⟨admitted.exponent, fun t member => (complete.inner _).mp (admitted.inner t member)⟩
    · cases found
  · cases found

/-- A power, where the base of a symbolic power has to be other than zero. -/
theorem pow_sane (left : v.Sane given r) (right : v.Safe given s)
    (base : given → s.fraction.constant? = none → r.fraction.isZero = false →
      v.poly r.fraction.num ≠ 0)
    (fits : given → fitsInt64 max = true) : Yields (r.pow s max) (v.Sane given) := by
  have first : v.Sane given ⟨r.fraction, r.divisors ++ s.divisors⟩ :=
    ⟨left.shaped, fun complete holds clear => left.safe complete holds (Clear.append.mp clear).1⟩
  have second : v.Complete → given → v.Clear (r.divisors ++ s.divisors) → v.Regular s.fraction :=
    fun complete holds clear => right complete holds (Clear.append.mp clear).2
  unfold Traced.pow
  dsimp only
  split
  · exact powRat_sane first _ fits
  rename_i symbolic
  split
  · exact first
  rename_i proper
  rw [Bool.not_eq_true, Bool.or_eq_false_iff] at proper
  split
  · rename_i e found
    have exponent : v.Sane given ⟨.ofPoly e, r.divisors ++ s.divisors⟩ :=
      sane_ofPoly fun complete holds clear =>
        pureExponential_admitted complete (first.safe complete holds clear) found
    exact .bind (mul_sane exponent.safe right.later) fun t product => exp_sane product.safe max
  split
  · rename_i whole
    have constant : s.fraction.num.constant? = none := by
      rwa [Fraction.constant?, if_pos whole] at symbolic
    exact powPoly_sane first constant (fun complete holds clear => (second complete holds clear).num)
      (fun holds => base holds symbolic proper.1) fits
  · exact sane_ofAtom fun complete holds clear => (complete.power _ _).mpr
      ⟨first.safe complete holds clear, second complete holds clear, symbolic⟩

/-! ## Functions -/

theorem half_safe : v.Safe given (.whole .half) := (sane_ofPoly fun _ _ _ => .constant _).safe

theorem imaginary_safe : v.Safe given (.whole .imaginary) :=
  (sane_ofAtom fun complete _ _ => complete.imaginary).safe

theorem sin_sane (safe : v.Safe given r) (max : Nat) : Yields (r.sin max) (v.Sane given) := by
  refine .bind (mul_sane imaginary_safe safe.later) fun turned around => ?_
  refine .bind (exp_sane around.safe max) fun up first => ?_
  refine .bind (exp_sane around.safe.neg max) fun down second => ?_
  refine .bind (sub_sane first.safe second.safe.later) fun diff third => ?_
  exact .bind (mul_sane third.safe imaginary_safe.neg) fun t fourth =>
    mul_sane fourth.safe half_safe

theorem cos_sane (safe : v.Safe given r) (max : Nat) : Yields (r.cos max) (v.Sane given) := by
  refine .bind (mul_sane imaginary_safe safe.later) fun turned around => ?_
  refine .bind (exp_sane around.safe max) fun up first => ?_
  refine .bind (exp_sane around.safe.neg max) fun down second => ?_
  exact .bind (add_sane first.safe second.safe.later) fun t third => mul_sane third.safe half_safe

theorem apply_sane (f : Function) (sane : v.Sane given r) (max : Nat) :
    Yields (r.apply f max) (v.Sane given) := by
  have up := exp_sane sane.safe max
  have down := exp_sane sane.safe.neg max
  cases f with
  | exp => exact up
  | ln => exact ln_sane sane.safe
  | sqrt =>
    have fits : fitsInt64 (2 : Nat) = true := by decide
    exact root_sane sane fun _ => fits
  | sin => exact sin_sane sane.safe max
  | cos => exact cos_sane sane.safe max
  | tan =>
    refine .bind (sin_sane sane.safe max) fun s first => ?_
    refine .bind (cos_sane sane.safe max) fun c second => ?_
    dsimp only
    split
    · trivial
    · exact div_sane first.safe second.safe.later
  | sinh =>
    refine .bind up fun a first => .bind down fun b second => ?_
    exact .bind (sub_sane first.safe second.safe.later) fun t third =>
      mul_sane third.safe half_safe
  | cosh =>
    refine .bind up fun a first => .bind down fun b second => ?_
    exact .bind (add_sane first.safe second.safe.later) fun t third =>
      mul_sane third.safe half_safe

/-! ## Expressions -/

end Valuation

/-- The numerators of what is raised to exponents that are no constants. -/
def Expr.IsPowerBase (max : Nat) (e : Expr) (p : Poly) : Prop :=
  ∃ b x r s, Subterm (.power b x) e ∧ Fraction.ofExpr max b = .ok r ∧
    Fraction.ofExpr max x = .ok s ∧ s.constant? = none ∧ r.isZero = false ∧ p = r.num

theorem Expr.IsPowerBase.operand {max : Nat} {c e : Expr} {p : Poly} (member : c ∈ e.operands)
    (base : c.IsPowerBase max p) : e.IsPowerBase max p := by
  obtain ⟨b, x, r, s, inside, rest⟩ := base
  exact ⟨b, x, r, s, inside.operand member, rest⟩

namespace Valuation

variable {K : Type*} [Field K] [Algebra ℚ K] {v : Valuation K} {given : Prop} {max : Nat}

/-- No base of a symbolic power is zero, if what is given holds. -/
def Based (v : Valuation K) (given : Prop) (max : Nat) (e : Expr) : Prop :=
  given → ∀ p, e.IsPowerBase max p → v.poly p ≠ 0

theorem Based.operand {c e : Expr} (based : v.Based given max e) (member : c ∈ e.operands) :
    v.Based given max c :=
  fun holds p base => based holds p (base.operand member)

mutual
/-- The canonical form of an expression. -/
theorem ofExpr_sane (fits : given → fitsInt64 max = true) :
    ∀ e, v.Based given max e → Yields (Traced.ofExpr max e) (v.Sane given)
  | .number q, _ => by
    rw [Traced.ofExpr]
    exact sane_ofPoly fun _ _ _ => .constant q
  | .symbol s, _ => by
    rw [Traced.ofExpr]
    exact sane_ofAtom fun complete _ _ => complete.symbol s
  | .constant .pi, _ => by
    rw [Traced.ofExpr]
    exact sane_ofAtom fun complete _ _ => complete.pi
  | .constant .imaginary, _ => by
    rw [Traced.ofExpr]
    exact sane_ofAtom fun complete _ _ => complete.imaginary
  | .constant .euler, _ => by
    rw [Traced.ofExpr]
    exact sane_ofPoly fun complete _ _ =>
      .term (exponential_admitted complete .one (List.Sublist.refl _)) 1
  | .sum xs, based => by
    rw [Traced.ofExpr]
    exact ofSum_sane fits xs (sane_ofPoly fun _ _ _ => .zero) fun x member => based.operand member
  | .product xs, based => by
    rw [Traced.ofExpr]
    exact ofProduct_sane fits xs (sane_ofPoly fun _ _ _ => .one) fun x member =>
      based.operand member
  | .power b e, based => by
    rw [Traced.ofExpr]
    refine .bind ((ofExpr_sane fits b (based.operand (by simp [Expr.operands]))).and
      fun r ran => ran) ?_
    rintro r ⟨left, ran⟩
    refine .bind ((ofExpr_sane fits e (based.operand (by simp [Expr.operands]))).and
      fun s ran => ran) ?_
    rintro s ⟨right, ran'⟩
    refine pow_sane left right.safe (fun holds symbolic proper => based holds _ ?_) fits
    refine ⟨b, e, r.fraction, s.fraction, .refl _, ?_, ?_, symbolic, proper, rfl⟩
    · rw [← Traced.ofExpr_erases max b, ran]
      rfl
    · rw [← Traced.ofExpr_erases max e, ran']
      rfl
  | .apply f x, based => by
    rw [Traced.ofExpr]
    exact .bind (ofExpr_sane fits x (based.operand (by simp [Expr.operands]))) fun r sane =>
      apply_sane f sane max

theorem ofSum_sane (fits : given → fitsInt64 max = true) {total : Traced} :
    ∀ xs, v.Sane given total → (∀ x ∈ xs, v.Based given max x) →
      Yields (Traced.ofSum max total xs) (v.Sane given)
  | [], sane, _ => by
    rw [Traced.ofSum]
    exact sane
  | x :: xs, sane, based => by
    obtain ⟨head, tail⟩ := List.forall_mem_cons.mp based
    rw [Traced.ofSum]
    refine .bind (ofExpr_sane fits x head) fun r first => ?_
    exact .bind (add_sane sane.safe first.safe.later) fun t next => ofSum_sane fits xs next tail

theorem ofProduct_sane (fits : given → fitsInt64 max = true) {total : Traced} :
    ∀ xs, v.Sane given total → (∀ x ∈ xs, v.Based given max x) →
      Yields (Traced.ofProduct max total xs) (v.Sane given)
  | [], sane, _ => by
    rw [Traced.ofProduct]
    exact sane
  | x :: xs, sane, based => by
    obtain ⟨head, tail⟩ := List.forall_mem_cons.mp based
    rw [Traced.ofProduct]
    refine .bind (ofExpr_sane fits x head) fun r first => ?_
    exact .bind (mul_sane sane.safe first.safe.later) fun t next => ofProduct_sane fits xs next tail
end

end Valuation

end Discharge
