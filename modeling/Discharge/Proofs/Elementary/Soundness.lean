import Discharge.Oracle
import Discharge.Proofs.Elementary.Angle
import Discharge.Proofs.Elementary.Radical
import Discharge.Proofs.Normal.Divisors

/-! Soundness of the normal form on elementary expressions. Under every
elementary interpretation that makes none of the divisors zero, the canonical
form of an expression has the value of the expression. -/

namespace Discharge

/-! ## Arithmetic -/

namespace Valuation

variable {K : Type*} [Field K] [Algebra ℚ K] {v : Valuation K} {r s : Traced} {x y : K}

/-- The fraction has the value `x`, unless one of its divisors is zero. -/
def Sound (v : Valuation K) (t : Traced) (x : K) : Prop :=
  (∀ d ∈ t.divisors, v.poly d ≠ 0) → v.Denotes t.fraction x

theorem make_sound (dividing : v.Dividing) {used : List Poly} {num den : Poly}
    (sides : (∀ d ∈ used, v.poly d ≠ 0) → v.Sides num den x) :
    Yields (Traced.make used num den) (v.Sound · x) := by
  unfold Traced.make
  cases ran : Fraction.make num den with
  | error e => trivial
  | ok r =>
    intro regular
    obtain ⟨before, divisors⟩ := List.forall_mem_append.mp regular
    have sides := sides before
    obtain ⟨denotes, -⟩ :=
      (make_ensures dividing sides.top sides.bottom divisors).of_ok ran
    rwa [sides.value (divisors den List.mem_cons_self)] at denotes

theorem add_sound (dividing : v.Dividing) (left : v.Sound r x) (right : v.Sound s y) :
    Yields (r.add s) (v.Sound · (x + y)) := by
  refine Yields.bind_ok fun q ran => make_sound dividing fun regular => ?_
  obtain ⟨first, second⟩ := List.forall_mem_append.mp regular
  have sides := sumSides_ensures dividing.lawful (left first) (right second)
  exact (sides.of_ok ran).1

theorem mul_sound (dividing : v.Dividing) (left : v.Sound r x) (right : v.Sound s y) :
    Yields (r.mul s) (v.Sound · (x * y)) := by
  refine Yields.bind_ok fun q ran => make_sound dividing fun regular => ?_
  obtain ⟨first, second⟩ := List.forall_mem_append.mp regular
  have sides := productSides_ensures dividing.lawful (left first) (right second).sides
  exact (sides.of_ok ran).1

theorem neg_sound (sound : v.Sound r x) : v.Sound r.neg (-x) := by
  intro regular
  have denotes := sound regular
  refine ⟨denotes.num.neg, denotes.den, denotes.regular, ?_⟩
  change v.poly r.fraction.num.neg = -x * v.poly r.fraction.den
  rw [poly_neg, denotes.value, neg_mul]

theorem sub_sound (dividing : v.Dividing) (left : v.Sound r x) (right : v.Sound s y) :
    Yields (r.sub s) (v.Sound · (x - y)) := by
  rw [sub_eq_add_neg]
  exact add_sound dividing left (neg_sound right)

theorem inverse_sound (dividing : v.Dividing) (sound : v.Sound r x) :
    Yields r.inverse (v.Sound · x⁻¹) := by
  unfold Traced.inverse
  split
  · trivial
  · exact make_sound dividing fun regular => (sound regular).reciprocal

theorem div_sound (dividing : v.Dividing) (left : v.Sound r x) (right : v.Sound s y) :
    Yields (r.div s) (v.Sound · (x / y)) := by
  unfold Traced.div
  split
  · trivial
  · refine Yields.bind_ok fun q ran => make_sound dividing fun regular => ?_
    obtain ⟨first, second⟩ := List.forall_mem_append.mp regular
    have sides := productSides_ensures dividing.lawful (left first) (right second).reciprocal
    rw [div_eq_mul_inv]
    exact (sides.of_ok ran).1

theorem sound_of_poly {p : Poly} (admitted : v.AdmitsPoly p) (used : List Poly) :
    v.Sound ⟨.ofPoly p, used⟩ (v.poly p) := fun _ => .of_poly admitted

theorem sound_one (used : List Poly) : v.Sound ⟨.one, used⟩ 1 := by
  rw [← v.poly_one]
  exact sound_of_poly .one used

theorem powInt_sound (dividing : v.Dividing) (sound : v.Sound r x) (n : Int) (max : Nat) :
    Yields (r.powInt n max) (v.Sound · (x ^ n)) := by
  have power : ∀ b y, v.Sound b y → Yields (squaring Traced.mul ⟨.one, b.divisors⟩ b n.natAbs)
      (v.Sound · (1 * y ^ n.natAbs)) := fun b y base =>
    squaring_ensures v.Sound (fun r s x y left right => mul_sound dividing left right) n.natAbs
      (sound_one b.divisors) base
  unfold Traced.powInt
  dsimp only
  split
  · trivial
  split
  · rename_i negative
    refine .bind (inverse_sound dividing sound) fun b base => (power b x⁻¹ base).mono ?_
    intro t final
    obtain ⟨k, rfl⟩ := Int.eq_negSucc_of_lt_zero negative
    simpa [Int.natAbs_negSucc, zpow_negSucc] using final
  · rename_i nonneg
    refine Ensures.mono (power r x sound) fun t final => ?_
    obtain ⟨k, rfl⟩ := Int.eq_ofNat_of_zero_le (not_lt.mp nonneg)
    simpa using final

end Valuation

theorem Poly.eq_one_of_isOne {p : Poly} (one : p.isOne = true) : p = .one := by
  obtain ⟨ts⟩ := p
  have constant : Poly.constant? ⟨ts⟩ = some 1 := by simpa [Poly.isOne] using one
  unfold Poly.constant? at constant
  split at constant
  · cases constant
  · rename_i c terms
    cases constant
    exact congrArg Poly.mk terms
  · cases constant

/-! ## Exponentials -/

/-- Nothing that was divided by is forgotten in a product. -/
theorem Traced.mul_keeps (r s : Traced) : Yields (r.mul s) (fun t => r.divisors ⊆ t.divisors) := by
  refine Yields.bind_ok fun q _ => ?_
  obtain ⟨num, den⟩ := q
  change Yields (Traced.make _ num den) _
  unfold Traced.make
  cases Fraction.make num den with
  | error e => trivial
  | ok t =>
    intro d member
    simp [member]

theorem Traced.takeLogarithms_keeps (max : Nat) (r : Traced) (ls : List (Fraction × Int)) :
    Yields (takeLogarithms max r ls) (fun t => r.divisors ⊆ t.divisors) := by
  induction ls generalizing r with
  | nil => exact List.Subset.refl _
  | cons l ls ih =>
    obtain ⟨argument, n⟩ := l
    unfold takeLogarithms
    dsimp only
    split
    · trivial
    refine Yields.bind_ok fun power _ => ?_
    refine .bind (mul_keeps r power) fun t kept => ?_
    exact (ih t).mono fun u later => List.Subset.trans kept later

theorem Traced.exp_keeps (r : Traced) (max : Nat) :
    Yields (r.exp max) (fun t => r.divisors ⊆ t.divisors) := by
  unfold exp
  dsimp only
  split
  · exact List.Subset.refl _
  split
  · exact List.Subset.refl _
  refine .bind (takeLogarithms_keeps max ⟨.one, r.divisors⟩ _) fun t kept => ?_
  refine Yields.bind_ok fun p _ => ?_
  exact (mul_keeps t _).mono fun u later => List.Subset.trans kept later

namespace Interpretation.Elementary

variable {K : Type*} [Field K] [CharZero K] {I : Interpretation K} (elementary : I.Elementary)

include elementary in
/-- The laws of the normal form follow from those of the interpretation. -/
theorem lawful_of_atoms {v : Valuation K} (atoms : v.atom = Atom.value I)
    (known : v.known = Atom.IsElementary) (exponential : v.exp = I.apply .exp) : v.Lawful where
  imaginary _ := by
    rw [atoms, Atom.value]
    exact elementary.imaginary
  root p k occurs := by
    rw [known] at occurs
    obtain ⟨rfl, c, positive, rfl⟩ := occurs
    rw [atoms, value_root_constant elementary, elementary.sqrt_sq c positive,
      Valuation.poly_constant, eq_ratCast]
  index p k occurs := by
    rw [known] at occurs
    obtain ⟨rfl, -⟩ := occurs
    rfl
  radicand p k occurs proper := by
    rw [known] at occurs
    obtain ⟨-, c, -, rfl⟩ := occurs
    rw [Poly.constant?_constant] at proper
    cases proper
  turn _ _ angle p found := by
    have angles : v.KnowsAngles :=
      ⟨known ▸ trivial, fun n surd => known ▸
        ⟨rfl, n, by exact_mod_cast (Valuation.prime_of_surd surd).pos, rfl⟩⟩
    obtain ⟨admitted, value⟩ := elementary.unitRoot_value atoms angles found
    refine ⟨admitted, ?_⟩
    rw [value, exponential, atoms, Atom.value, Atom.value, eq_ratCast]

theorem dividing : elementary.valuation.Dividing where
  lawful := elementary.lawful_of_atoms rfl rfl rfl
  nonnegative := elementary.lawful_of_atoms rfl rfl rfl
  invertible _ nonzero := nonzero

variable {r : Traced} {x : K}

theorem sound_of_atom {a : Atom} (known : a.IsElementary) (used : List Poly) :
    elementary.valuation.Sound ⟨.ofAtom a, used⟩ (a.value I) := by
  have sound := Valuation.sound_of_poly (.ofAtom (v := elementary.valuation) known) used
  rwa [Valuation.poly_ofAtom] at sound

/-- Elementary canonical forms have no logarithms. -/
theorem logarithm_eq_none {p : Poly} (admitted : elementary.valuation.AdmitsPoly p) :
    ∀ t ∈ p.terms, Fraction.logarithm? t = none := by
  intro t member
  have factors := (admitted.all t member).factor
  unfold Fraction.logarithm?
  split
  · rename_i argument c
    have known := (factors (.ln argument, 1) List.mem_cons_self).known
    exact known.elim
  · rfl

/-- The exponential of a whole form is kept as a monomial. -/
theorem exponential_value {p : Poly} (admitted : elementary.valuation.AdmitsPoly p) :
    elementary.valuation.Admits (.exponential p) ∧
      elementary.valuation.monomial (.exponential p) =
        I.apply .exp (elementary.valuation.poly p) := by
  constructor
  · exact ⟨.nil, fun _ member => absurd member List.not_mem_nil, admitted.ordered, .inr trivial,
      fun _ _ => trivial⟩
  · rw [Valuation.monomial_eq]
    exact one_mul _

/-- A form without logarithms is not split by its exponential. -/
theorem exponent_eq {p : Poly} (admitted : elementary.valuation.AdmitsPoly p) :
    p.terms.filterMap Fraction.logarithm? = [] ∧
      Poly.mk (p.terms.filter fun t => (Fraction.logarithm? t).isNone) = p := by
  have none := elementary.logarithm_eq_none admitted
  refine ⟨List.filterMap_eq_nil_iff.mpr none, ?_⟩
  obtain ⟨ts⟩ := p
  refine congrArg Poly.mk (List.filter_eq_self.mpr fun t member => ?_)
  rw [none t member]
  rfl

theorem exp_sound (sound : elementary.valuation.Sound r x) (max : Nat) :
    Yields (r.exp max) (elementary.valuation.Sound · (I.apply .exp x)) := by
  by_cases regular : ∀ d ∈ r.divisors, elementary.valuation.poly d ≠ 0
  · have denotes := sound regular
    have quotient := denotes.eq_div
    unfold Traced.exp
    dsimp only
    split
    · rename_i zero
      -- The exponential of zero.
      rw [quotient, Valuation.poly_of_isZero zero, zero_div, elementary.exp_zero]
      exact Valuation.sound_one r.divisors
    split
    · -- A proper quotient is kept as an atom.
      have value : I.apply .exp x = Atom.value I (.exp r.fraction) := by
        obtain ⟨⟨num, den⟩, used⟩ := r
        rw [Atom.value, Fraction.value, ← poly_eq_value elementary, ← poly_eq_value elementary,
          quotient]
      rw [value]
      exact elementary.sound_of_atom (a := .exp r.fraction) trivial r.divisors
    · rename_i whole
      have one : r.fraction.den = .one := Poly.eq_one_of_isOne (by simpa using whole)
      rw [one, Valuation.poly_one, div_one] at quotient
      obtain ⟨logarithms, exponent⟩ := elementary.exponent_eq denotes.num
      obtain ⟨admitted, value⟩ := elementary.exponential_value denotes.num
      rw [logarithms, exponent]
      rw [← quotient] at value
      have reduced := Valuation.reduce_reduces elementary.dividing.lawful _ admitted
      refine Yields.bind_ok fun t start => Yields.bind_ok fun p ran => ?_
      cases start
      obtain ⟨final, power⟩ := reduced.of_ok ran
      rw [← one_mul (I.apply .exp x), ← value, ← power]
      exact Valuation.mul_sound elementary.dividing (Valuation.sound_one r.divisors)
        (Valuation.sound_of_poly final [])
  · -- The divisors are kept, so one of them is still zero.
    refine (Traced.exp_keeps r max).mono fun t kept all => absurd ?_ regular
    exact fun d member => all d (kept member)

/-! ## Functions -/

theorem sound_constant (q : ℚ) :
    elementary.valuation.Sound (.whole (.constant q)) (q : K) := by
  have sound := Valuation.sound_of_poly (.constant (v := elementary.valuation) q) []
  rwa [Valuation.poly_constant, eq_ratCast] at sound

theorem sound_half : elementary.valuation.Sound (.whole .half) (1 / 2 : K) := by
  have sound := elementary.sound_constant (1 / 2)
  rwa [Rat.cast_div, Rat.cast_one, Rat.cast_ofNat] at sound

theorem sound_imaginary :
    elementary.valuation.Sound (.whole .imaginary) (I.constant .imaginary) := by
  have sound := elementary.sound_of_atom (a := .imaginary) trivial []
  rwa [Atom.value] at sound

theorem sin_sound (sound : elementary.valuation.Sound r x) (max : Nat) :
    Yields (r.sin max) (elementary.valuation.Sound · (I.apply .sin x)) := by
  have square := elementary.imaginary
  have nonzero : I.constant .imaginary ≠ 0 := by
    intro zero
    rw [zero] at square
    norm_num at square
  have value : I.apply .sin x = (I.apply .exp (I.constant .imaginary * x) -
      I.apply .exp (-(I.constant .imaginary * x))) * -I.constant .imaginary * (1 / 2) := by
    rw [elementary.sin, div_eq_iff (mul_ne_zero two_ne_zero nonzero)]
    linear_combination (I.apply .exp (I.constant .imaginary * x) -
      I.apply .exp (-(I.constant .imaginary * x))) * square
  have dividing := elementary.dividing
  refine .bind (Valuation.mul_sound dividing elementary.sound_imaginary sound) fun turned up => ?_
  refine .bind (elementary.exp_sound up max) fun a first => ?_
  refine .bind (elementary.exp_sound (Valuation.neg_sound up) max) fun b second => ?_
  refine .bind (Valuation.sub_sound dividing first second) fun diff third => ?_
  refine .bind (Valuation.mul_sound dividing third
    (Valuation.neg_sound elementary.sound_imaginary)) fun t fourth => ?_
  rw [value]
  exact Valuation.mul_sound dividing fourth elementary.sound_half

theorem cos_sound (sound : elementary.valuation.Sound r x) (max : Nat) :
    Yields (r.cos max) (elementary.valuation.Sound · (I.apply .cos x)) := by
  have dividing := elementary.dividing
  refine .bind (Valuation.mul_sound dividing elementary.sound_imaginary sound) fun turned up => ?_
  refine .bind (elementary.exp_sound up max) fun a first => ?_
  refine .bind (elementary.exp_sound (Valuation.neg_sound up) max) fun b second => ?_
  refine .bind (Valuation.add_sound dividing first second) fun total third => ?_
  rw [elementary.cos, div_eq_mul_one_div]
  exact Valuation.mul_sound dividing third elementary.sound_half

/-- Every function but the root and the logarithm. -/
theorem apply_sound {f : Function} (proper : f ≠ .sqrt) (proper' : f ≠ .ln)
    (sound : elementary.valuation.Sound r x) (max : Nat) :
    Yields (r.apply f max) (elementary.valuation.Sound · (I.apply f x)) := by
  have dividing := elementary.dividing
  have opposite := Valuation.neg_sound sound
  cases f with
  | exp => exact elementary.exp_sound sound max
  | ln => exact absurd rfl proper'
  | sqrt => exact absurd rfl proper
  | sin => exact elementary.sin_sound sound max
  | cos => exact elementary.cos_sound sound max
  | tan =>
    refine .bind (elementary.sin_sound sound max) fun s first => ?_
    refine .bind (elementary.cos_sound sound max) fun c second => ?_
    dsimp only
    split
    · trivial
    · rw [elementary.tan]
      exact Valuation.div_sound dividing first second
  | sinh =>
    refine .bind (elementary.exp_sound sound max) fun a first => ?_
    refine .bind (elementary.exp_sound opposite max) fun b second => ?_
    refine .bind (Valuation.sub_sound dividing first second) fun diff third => ?_
    rw [elementary.sinh, div_eq_mul_one_div]
    exact Valuation.mul_sound dividing third elementary.sound_half
  | cosh =>
    refine .bind (elementary.exp_sound sound max) fun a first => ?_
    refine .bind (elementary.exp_sound opposite max) fun b second => ?_
    refine .bind (Valuation.add_sound dividing first second) fun total third => ?_
    rw [elementary.cosh, div_eq_mul_one_div]
    exact Valuation.mul_sound dividing third elementary.sound_half

theorem sqrt_sound (q : ℚ) (max : Nat) :
    Yields (Traced.apply .sqrt (.whole (.constant q)) max)
      (elementary.valuation.Sound · (I.apply .sqrt (q : K))) := by
  have radical := elementary.rationalRadical_value rfl rfl elementary.dividing.lawful
    (v := elementary.valuation) q
  change Yields (Traced.root (.whole (.constant q)) 2) _
  unfold Traced.root Traced.whole
  dsimp only
  rw [if_neg (by decide), if_neg (by decide), Fraction.constant?_constant]
  refine Yields.bind_ok fun p ran => ?_
  obtain ⟨admitted, value⟩ := radical.of_ok ran
  rw [← value]
  exact Valuation.sound_of_poly admitted []

end Interpretation.Elementary

/-! ## Expressions -/

/-- Expressions of numbers, symbols, constants, sums, products, integer powers,
square roots of numbers, and functions other than roots and logarithms. -/
inductive Expr.IsElementary : Expr → Prop
  | number (q : Rat) : IsElementary (.number q)
  | symbol (s : String) : IsElementary (.symbol s)
  | constant (c : Constant) : IsElementary (.constant c)
  | sum {xs : List Expr} : (∀ x ∈ xs, IsElementary x) → IsElementary (.sum xs)
  | product {xs : List Expr} : (∀ x ∈ xs, IsElementary x) → IsElementary (.product xs)
  | power {b : Expr} (n : Int) : IsElementary b → IsElementary (.power b (.int n))
  | sqrt (q : Rat) : IsElementary (.apply .sqrt (.number q))
  | apply {f : Function} {x : Expr} :
      f ≠ .sqrt → f ≠ .ln → IsElementary x → IsElementary (.apply f x)

namespace Interpretation.Elementary

variable {K : Type*} [Field K] [CharZero K] {I : Interpretation K} (elementary : I.Elementary)
  {max : Nat}

/-- Normalising keeps the value of an expression. -/
abbrev Preserves (max : Nat) (e : Expr) : Prop :=
  Yields (Traced.ofExpr max e) (elementary.valuation.Sound · (e.value I))

theorem ofSum_sound {xs : List Expr} (each : ∀ x ∈ xs, elementary.Preserves max x) {t : Traced}
    {x : K} (start : elementary.valuation.Sound t x) :
    Yields (Traced.ofSum max t xs)
      (elementary.valuation.Sound · (x + (Expr.values I xs).sum)) := by
  induction xs generalizing t x with
  | nil =>
    rw [Traced.ofSum, Expr.values_nil, List.sum_nil, add_zero]
    exact start
  | cons y ys ih =>
    obtain ⟨head, tail⟩ := List.forall_mem_cons.mp each
    rw [Traced.ofSum, Expr.values_cons, List.sum_cons, ← add_assoc]
    refine .bind head fun s first => ?_
    exact .bind (Valuation.add_sound elementary.dividing start first) fun u next => ih tail next

theorem ofProduct_sound {xs : List Expr} (each : ∀ x ∈ xs, elementary.Preserves max x)
    {t : Traced} {x : K} (start : elementary.valuation.Sound t x) :
    Yields (Traced.ofProduct max t xs)
      (elementary.valuation.Sound · (x * (Expr.values I xs).prod)) := by
  induction xs generalizing t x with
  | nil =>
    rw [Traced.ofProduct, Expr.values_nil, List.prod_nil, mul_one]
    exact start
  | cons y ys ih =>
    obtain ⟨head, tail⟩ := List.forall_mem_cons.mp each
    rw [Traced.ofProduct, Expr.values_cons, List.prod_cons, ← mul_assoc]
    refine .bind head fun s first => ?_
    exact .bind (Valuation.mul_sound elementary.dividing start first) fun u next => ih tail next

theorem constant_sound (c : Constant) : elementary.Preserves max (.constant c) := by
  unfold Preserves
  rw [Traced.ofExpr.eq_def, Expr.value_constant]
  cases c with
  | pi =>
    have sound := elementary.sound_of_atom (a := .pi) trivial []
    rwa [Atom.value] at sound
  | imaginary => exact elementary.sound_imaginary
  | euler =>
    have admitted : elementary.valuation.Admits (.exponential .one) :=
      ⟨.nil, fun _ member => absurd member List.not_mem_nil, .term .one 1, .inr trivial,
        fun _ _ => trivial⟩
    have value : elementary.valuation.poly (.term (.exponential .one) 1) = I.constant .euler := by
      rw [Valuation.poly_term, Valuation.monomial_eq, elementary.euler]
      simp [Monomial.exponential]
      rfl
    rw [← value]
    exact Valuation.sound_of_poly (.term admitted 1) []

theorem power_sound {b : Expr} (base : elementary.Preserves max b) (n : Int) :
    elementary.Preserves max (.power b (.int n)) := by
  unfold Preserves
  rw [Traced.ofExpr]
  refine .bind base fun r sound => ?_
  have literal : Traced.ofExpr max (.int n) = .ok (.whole (.constant n)) := by
    rw [Expr.int, Traced.ofExpr]
  rw [literal]
  change Yields (r.pow (.whole (.constant n)) max) _
  unfold Traced.pow Traced.whole
  rw [Fraction.constant?_constant]
  dsimp only
  unfold Traced.powRat
  rw [if_pos (Rat.den_intCast n), Rat.num_intCast, List.append_nil]
  dsimp only
  split
  · trivial
  · rw [Expr.value_power, Expr.int, Expr.value_number, Rat.cast_intCast, elementary.pow]
    exact Valuation.powInt_sound elementary.dividing sound n max

theorem preserves {e : Expr} (inside : e.IsElementary) : elementary.Preserves max e := by
  induction inside with
  | number q =>
    unfold Preserves
    rw [Traced.ofExpr, Expr.value_number]
    exact elementary.sound_constant q
  | symbol s =>
    have sound := elementary.sound_of_atom (a := .symbol s) trivial []
    unfold Preserves
    rw [Traced.ofExpr, Expr.value_symbol]
    rwa [Atom.value] at sound
  | constant c => exact elementary.constant_sound c
  | sum _ ih =>
    have zero := elementary.sound_constant 0
    have total := elementary.ofSum_sound ih zero
    unfold Preserves
    rw [Traced.ofExpr, Expr.value_sum]
    rwa [Rat.cast_zero, zero_add] at total
  | product _ ih =>
    have total := elementary.ofProduct_sound ih (Valuation.sound_one [])
    unfold Preserves
    rw [Traced.ofExpr, Expr.value_product]
    rwa [one_mul] at total
  | power n _ ih => exact elementary.power_sound ih n
  | sqrt q =>
    unfold Preserves
    rw [Traced.ofExpr, Traced.ofExpr, Expr.value_apply, Expr.value_number]
    exact elementary.sqrt_sound q max
  | apply proper proper' _ ih =>
    unfold Preserves
    rw [Traced.ofExpr, Expr.value_apply]
    exact .bind ih fun r sound => elementary.apply_sound proper proper' sound max

end Interpretation.Elementary

end Discharge
