import Discharge.Proofs.Canonical.Functions
import Discharge.Proofs.Differential.Antiderivative

/-! Exponents out of range. Adding exponents is checked whenever monomials are
multiplied, and a sum that is no machine integer is refused. Nothing is refused
where other exponents are computed: negatives, in the reciprocals of monomials
and where negative powers are cleared for a limit, and successors and their
squares, in an integral.

Arithmetic is repeated here with exact integers in these places, and with a
record of what is computed there. `Follows` compares: a computation gives what
the exact one gives as long as all recorded exponents are machine integers, and
otherwise it is abandoned at the first that is none. -/

namespace Discharge

open Fraction (Belongs)

/-! ## Recorded exponents -/

/-- How an exponent is computed, other than as a sum. -/
inductive ExponentOperation where
  /-- In the reciprocal of a monomial, and to clear negative powers for a limit. -/
  | negative
  /-- In the antiderivative of a power of the variable. -/
  | successor
  /-- In that of a power of the variable times its logarithm. -/
  | square
  deriving DecidableEq

/-- An exponent that is computed from `operand`. -/
structure ExponentStep where
  operation : ExponentOperation
  operand : Int
  deriving DecidableEq

/-- The least exponent. -/
def leastExponent : Int := -9223372036854775808

/-- The greatest exponent. -/
def greatestExponent : Int := 9223372036854775807

namespace ExponentStep

/-- The exponent. -/
def result (s : ExponentStep) : Int :=
  match s.operation with
  | .negative => -s.operand
  | .successor => s.operand + 1
  | .square => s.operand * s.operand

/-- What an overflow names the operation. -/
def name (s : ExponentStep) : String :=
  match s.operation with
  | .negative => "negate"
  | .successor => "add"
  | .square => "multiply"

/-- Is the exponent no machine integer? -/
def overflows (s : ExponentStep) : Bool := !fitsInt64 s.result

/-- The only operands that are machine integers themselves and come to none. -/
def Extreme (s : ExponentStep) : Prop :=
  match s.operation with
  | .negative => s.operand = leastExponent
  | .successor => s.operand = greatestExponent
  | .square => 3037000499 < s.operand.natAbs

/-- Only the least exponent has no negative, only the greatest one no successor,
and squares up to the root of the greatest are machine integers. -/
theorem extreme_of_overflows {s : ExponentStep} (fits : fitsInt64 s.operand = true)
    (overflows : s.overflows = true) : s.Extreme := by
  obtain ⟨operation, n⟩ := s
  rw [ExponentStep.overflows, Bool.not_eq_true', ← Bool.not_eq_true, Monomial.fitsInt64_iff]
    at overflows
  rw [Monomial.fitsInt64_iff] at fits
  cases operation with
  | negative =>
    change n = -9223372036854775808
    change ¬ (_ ≤ -n ∧ -n ≤ _) at overflows
    dsimp only at fits
    omega
  | successor =>
    change n = 9223372036854775807
    change ¬ (_ ≤ n + 1 ∧ n + 1 ≤ _) at overflows
    dsimp only at fits
    omega
  | square =>
    change 3037000499 < n.natAbs
    change ¬ (_ ≤ n * n ∧ n * n ≤ _) at overflows
    by_contra small
    have square : n.natAbs * n.natAbs ≤ 3037000499 * 3037000499 :=
      Nat.mul_le_mul (not_lt.mp small) (not_lt.mp small)
    have same := Int.natAbs_mul_self (a := n)
    omega

end ExponentStep

/-- A computation with exact exponents, and the exponents it has computed. -/
structure Recorded (α : Type) where
  steps : List ExponentStep
  outcome : Outcome α

namespace Recorded

variable {α β : Type}

/-- A computation that fails. -/
def fail (e : Failure) : Recorded α := ⟨[], .error e⟩

instance : Monad Recorded where
  pure a := ⟨[], .ok a⟩
  bind x f :=
    match x.outcome with
    | .ok a => ⟨x.steps ++ (f a).steps, (f a).outcome⟩
    | .error e => ⟨x.steps, .error e⟩

/-- What has no other exponents than sums. -/
instance : MonadLift Outcome Recorded := ⟨fun x => ⟨[], x⟩⟩

/-- Computes an exponent. -/
def exponent (operation : ExponentOperation) (operand : Int) : Recorded Int :=
  let s : ExponentStep := ⟨operation, operand⟩
  ⟨[s], .ok s.result⟩

/-- The first exponent that is no machine integer. -/
def overflow? (x : Recorded α) : Option ExponentStep := x.steps.find? ExponentStep.overflows

theorem overflow?_bind (steps : List ExponentStep) (a : α) (f : α → Recorded β) :
    ((⟨steps, .ok a⟩ : Recorded α) >>= f).overflow? =
      (⟨steps, .ok a⟩ : Recorded α).overflow?.or (f a).overflow? := List.find?_append

/-- The reciprocal of a monomial. -/
def reciprocal (m : Monomial) : Recorded Monomial :=
  ⟨m.factors.map fun f => ⟨.negative, f.2⟩, .ok m.reciprocal⟩

/-! ## Recorded arithmetic -/

def cancelMonomial (num den : Poly) : Recorded (Poly × Poly) := do
  let common := den.commonMonomial
  if common.isOne then return (num, den)
  let inverse ← reciprocal common
  return (← num.shift inverse, ← den.shift inverse)

def make (num den : Poly) : Recorded Fraction := do
  if den.isZero then fail Fraction.zeroDenominator
  if num.isZero then return .zero
  let (num, den) ← Fraction.rationalise Fraction.maxRounds num den
  let (num, den) ← cancelMonomial num den
  match den.singleTerm? with
  | some (m, c) => return .ofPoly ((← num.shift (← reciprocal m)).scale c⁻¹)
  | none => return Fraction.monic num den

def add (r s : Fraction) : Recorded Fraction := do
  let (num, den) ← Fraction.sumSides r s
  make num den

def sub (r s : Fraction) : Recorded Fraction := add r s.neg

def mul (r s : Fraction) : Recorded Fraction := do
  let (num, den) ← r.productSides s.num s.den
  make num den

def inverse (r : Fraction) : Recorded Fraction :=
  if r.isZero then fail (.divisionByZero "reciprocal of zero") else make r.den r.num

def div (r s : Fraction) : Recorded Fraction :=
  if s.isZero then fail (.divisionByZero "division by an expression equal to zero")
  else do
    let (num, den) ← r.productSides s.den s.num
    make num den

/-- `result · base ^ n`, by repeated squaring. -/
def squaring (result base : Fraction) (n : Nat) : Recorded Fraction :=
  if n = 0 then pure result
  else (if n % 2 = 1 then mul result base else pure result) >>= fun next =>
    if n < 2 then pure next
    else mul base base >>= fun square => squaring next square (n / 2)
termination_by n

def powInt (r : Fraction) (n : Int) (max : Nat) : Recorded Fraction := do
  if max < n.natAbs then fail (Fraction.exponentError n max)
  let base ← if n < 0 then inverse r else pure r
  squaring .one base n.natAbs

end Recorded

/-! ## What the computation itself gives -/

section

variable {α β : Type} {good wanted : α → Prop} {good' : β → Prop}
variable {x : Recorded α} {y : Outcome α}

/-- The computation `y` comes to what the recorded one comes to, and its answer is
`good`, if no recorded exponent is out of range. Otherwise it is abandoned at the
first one, whose operand is an extreme one. -/
def Follows (good : α → Prop) (x : Recorded α) (y : Outcome α) : Prop :=
  match x.overflow? with
  | none => y = x.outcome ∧ Yields y good
  | some s => y = .error (.overflow s.name) ∧ s.Extreme

namespace Follows

theorem answer {a : α} (holds : good a) : Follows good (pure a) (.ok a) := ⟨rfl, holds⟩

theorem fail {e : Failure} : Follows good (.fail e) (.error e) := ⟨rfl, trivial⟩

/-- A computation without recorded exponents. -/
theorem lift (yields : Yields y good) : Follows good (liftM y) y := ⟨rfl, yields⟩

theorem of_within (within : x.overflow? = none) (same : y = x.outcome) (yields : Yields y good) :
    Follows good x y := by
  rw [Follows, within]
  exact ⟨same, yields⟩

theorem of_overflow {s : ExponentStep} (beyond : x.overflow? = some s)
    (stopped : y = .error (.overflow s.name)) (extreme : s.Extreme) : Follows good x y := by
  rw [Follows, beyond]
  exact ⟨stopped, extreme⟩

/-- Running one computation after another. What follows an overflow is recorded as
well, but no longer matters. -/
theorem bind {f : α → Recorded β} {g : α → Outcome β} (first : Follows good x y)
    (next : ∀ a, good a → Follows good' (f a) (g a)) : Follows good' (x >>= f) (y >>= g) := by
  obtain ⟨steps, outcome⟩ := x
  unfold Follows at first
  cases beyond : (Recorded.mk steps outcome).overflow? with
  | some s =>
    rw [beyond] at first
    obtain ⟨rfl, extreme⟩ := first
    refine of_overflow ?_ rfl extreme
    cases outcome with
    | error e => exact beyond
    | ok a =>
      rw [Recorded.overflow?_bind, beyond]
      rfl
  | none =>
    rw [beyond] at first
    obtain ⟨rfl, holds⟩ := first
    cases y with
    | error e => exact of_within beyond rfl trivial
    | ok a =>
      have follows := next a holds
      unfold Follows at follows ⊢
      rw [Recorded.overflow?_bind, beyond]
      exact follows

theorem ite {c : Prop} [Decidable c] {x' : Recorded α} {y' : Outcome α}
    (yes : c → Follows good x y) (no : ¬ c → Follows good x' y') :
    Follows good (if c then x else x') (if c then y else y') := by
  split
  · exact yes ‹c›
  · exact no ‹¬ c›

/-- What the computation itself yields. -/
theorem yielding (follows : Follows good x y) (yields : Yields y wanted) : Follows wanted x y := by
  unfold Follows at follows ⊢
  split
  · rename_i within
    rw [within] at follows
    exact ⟨follows.1, yields⟩
  · rename_i s beyond
    rwa [beyond] at follows

theorem mono (follows : Follows good x y) (imp : ∀ a, good a → wanted a) : Follows wanted x y := by
  unfold Follows at follows ⊢
  split
  · rename_i within
    rw [within] at follows
    exact ⟨follows.1, follows.2.mono imp⟩
  · rename_i s beyond
    rwa [beyond] at follows

theorem map {f : α → β} (follows : Follows good x y) :
    Follows (fun _ => True) (f <$> x) (y.map f) := by
  have mapped : y.map f = y >>= fun a => .ok (f a) := by cases y <;> rfl
  rw [mapped]
  exact follows.bind fun a _ => answer trivial

/-- An exponent is exact, or the computation is abandoned. -/
theorem exponent (operation : ExponentOperation) {operand : Int}
    (fits : fitsInt64 operand = true) :
    Follows (fun n => n = (ExponentStep.mk operation operand).result ∧ fitsInt64 n = true)
      (.exponent operation operand)
      (machineInt (ExponentStep.mk operation operand).name
        (ExponentStep.mk operation operand).result) := by
  unfold machineInt
  split
  · rename_i within
    refine of_within ?_ rfl ⟨rfl, within⟩
    simp [Recorded.overflow?, Recorded.exponent, ExponentStep.overflows, within]
  · rename_i beyond
    have overflows : (ExponentStep.mk operation operand).overflows = true := by
      simpa [ExponentStep.overflows] using beyond
    refine of_overflow ?_ rfl (ExponentStep.extreme_of_overflows fits overflows)
    simp [Recorded.overflow?, Recorded.exponent, overflows]

/-- The reciprocal of a monomial has exact exponents, or the computation is abandoned. -/
theorem reciprocal {m : Monomial} (fits : ∀ f ∈ m.factors, fitsInt64 f.2 = true) :
    Follows (fun k => m.isInvertible = true ∧ k = m.reciprocal) (.reciprocal m) m.inverse := by
  cases beyond : (Recorded.reciprocal m).overflow? with
  | none =>
    have invertible : m.isInvertible = true := by
      refine Monomial.isInvertible_iff.mpr fun f member => ?_
      have within := List.find?_eq_none.mp beyond ⟨.negative, f.2⟩ (List.mem_map_of_mem member)
      simpa [ExponentStep.overflows, ExponentStep.result] using within
    have inverted := Monomial.inverse_of_invertible invertible
    refine of_within beyond inverted ?_
    rw [inverted]
    exact ⟨invertible, rfl⟩
  | some s =>
    have overflows := List.find?_some beyond
    obtain ⟨f, member, rfl⟩ := List.mem_map.mp (List.mem_of_find?_eq_some beyond)
    refine of_overflow beyond (if_neg fun invertible => ?_)
      (ExponentStep.extreme_of_overflows (fits f member) overflows)
    have within := Monomial.isInvertible_iff.mp invertible f member
    simp [ExponentStep.overflows, ExponentStep.result, within] at overflows

end Follows

end

/-! ## Admitted polynomials -/

namespace Vocabulary

variable {max : Nat} {m : Monomial} {p : Poly}

/-- The atoms of canonical forms, with any exponents of `exp`. -/
def outer (max : Nat) : Vocabulary where
  known := Atom.Canonical max
  inner _ := True

theorem outer_admits (admitted : (canonical max).valuation.Admits m) :
    (outer max).valuation.Admits m := by
  refine ⟨admitted.increasing, fun f member => ?_, admitted.exponent, admitted.turning,
    fun _ _ => trivial⟩
  have factor := admitted.factor f member
  exact ⟨factor.nonzero, factor.fits, factor.known, fun _ => trivial⟩

theorem outer_admitsPoly (admitted : (canonical max).valuation.AdmitsPoly p) :
    (outer max).valuation.AdmitsPoly p :=
  ⟨admitted.ordered, admitted.all.mono fun _ => outer_admits⟩

theorem outer_closed (max : Nat) : (outer max).Closed where
  angles := ⟨(canonical_closed max).angles.imaginary, (canonical_closed max).angles.surd⟩
  index := (canonical_closed max).index
  radicand p k known symbolic :=
    outer_admitsPoly ((canonical_closed max).radicand p k known symbolic)

/-- Admitted polynomials are closed under arithmetic. -/
theorem admittedClass {V : Vocabulary} (closed : V.Closed) :
    Poly.Class V.valuation.AdmitsPoly where
  constant := .constant
  add := .add
  scale := .scale
  mul left right := ((Valuation.mul_ensures closed.lawful left right).mono fun _ product =>
    product.1).mono_error fun _ _ => trivial
  conjugator admitted found := Valuation.conjugator_admitted admitted found
  common admitted divisor invertible := ((Valuation.shift_ensures closed.lawful admitted
    (divisor.commonMonomial.reciprocal invertible fun _ _ => trivial)).mono fun _ product =>
      product.1).mono_error fun _ _ => trivial
  single admitted divisor invertible := ((Valuation.shift_ensures closed.lawful admitted
    ((divisor.all _ List.mem_cons_self).reciprocal invertible fun _ _ => trivial)).mono
      fun _ product => product.1).mono_error fun _ _ => trivial

end Vocabulary

/-- A polynomial of canonical atoms. -/
def Poly.Admitted (max : Nat) : Poly → Prop := (Vocabulary.outer max).valuation.AdmitsPoly

theorem Poly.admittedClass (max : Nat) : Poly.Class (Poly.Admitted max) :=
  Vocabulary.admittedClass (Vocabulary.outer_closed max)

theorem Poly.Canonical.admitted {max : Nat} {p : Poly} (canonical : p.Canonical max) :
    p.Admitted max :=
  Vocabulary.outer_admitsPoly (Vocabulary.canonical_poly.mp canonical).1

theorem Fraction.Canonical.admitted {max : Nat} {r : Fraction} (canonical : r.Canonical max) :
    Belongs (Poly.Admitted max) r :=
  ⟨canonical.belongs.num.admitted, canonical.belongs.den.admitted⟩

namespace Recorded

/-! ## Quotients -/

variable {max : Nat} {num den : Poly} {r s : Fraction}

theorem cancelMonomial_follows (top : num.Admitted max) (bottom : den.Admitted max) :
    Follows (fun q => q.1.Admitted max ∧ q.2.Admitted max) (cancelMonomial num den)
      (Fraction.cancelMonomial num den) := by
  have cls := Poly.admittedClass max
  have common := Valuation.AdmitsPoly.commonMonomial bottom
  unfold cancelMonomial Fraction.cancelMonomial
  refine .ite (fun _ => .answer ⟨top, bottom⟩) fun _ => ?_
  refine .bind (.reciprocal fun f member => (common.factor f member).fits) ?_
  rintro _ ⟨invertible, rfl⟩
  exact .bind (.lift (cls.common top bottom invertible)) fun num' top' =>
    .bind (.lift (cls.common bottom bottom invertible)) fun den' bottom' => .answer ⟨top', bottom'⟩

theorem make_follows (top : num.Admitted max) (bottom : den.Admitted max) :
    Follows (Belongs (Poly.Admitted max)) (make num den) (Fraction.make num den) := by
  have cls := Poly.admittedClass max
  unfold make Fraction.make
  refine .ite (fun _ => .fail) fun _ => .ite (fun _ => .answer (cls.ofPoly cls.zero)) fun _ => ?_
  refine .bind (.lift (cls.rationalise _ top bottom)) fun q sides => ?_
  refine .bind (cancelMonomial_follows sides.1 sides.2) fun q' sides' => ?_
  obtain ⟨num', den'⟩ := q'
  obtain ⟨top', bottom'⟩ := sides'
  dsimp only at top' bottom' ⊢
  cases single : den'.singleTerm? with
  | none => exact .answer (cls.monic top' bottom')
  | some term =>
    obtain ⟨m, c⟩ := term
    rw [Valuation.singleTerm_eq single] at bottom'
    have admitted := bottom'.all _ List.mem_cons_self
    refine .bind (.reciprocal fun f member => (admitted.factor f member).fits) ?_
    rintro _ ⟨invertible, rfl⟩
    exact .bind (.lift (cls.single top' bottom' invertible)) fun p shifted =>
      .answer (cls.ofPoly (cls.scale shifted _))

/-! ## Arithmetic -/

section

variable (left : Belongs (Poly.Admitted max) r) (right : Belongs (Poly.Admitted max) s)

include left

theorem inverse_follows :
    Follows (Belongs (Poly.Admitted max)) (inverse r) r.inverse :=
  .ite (fun _ => .fail) fun _ => make_follows left.den left.num

include right

theorem add_follows : Follows (Belongs (Poly.Admitted max)) (add r s) (r.add s) := by
  rw [Fraction.add_eq_make]
  exact .bind (.lift ((Poly.admittedClass max).sumSides left right)) fun q sides =>
    make_follows sides.1 sides.2

theorem sub_follows : Follows (Belongs (Poly.Admitted max)) (sub r s) (r.sub s) :=
  add_follows left ((Poly.admittedClass max).neg right)

theorem mul_follows : Follows (Belongs (Poly.Admitted max)) (mul r s) (r.mul s) := by
  rw [Fraction.mul_eq_make]
  exact .bind (.lift ((Poly.admittedClass max).productSides left right.num right.den)) fun q sides =>
    make_follows sides.1 sides.2

theorem div_follows : Follows (Belongs (Poly.Admitted max)) (div r s) (r.div s) := by
  rw [Fraction.div_eq_make]
  exact .ite (fun _ => .fail) fun _ =>
    .bind (.lift ((Poly.admittedClass max).productSides left right.den right.num)) fun q sides =>
      make_follows sides.1 sides.2

end

theorem squaring_follows (n : Nat) (left : Belongs (Poly.Admitted max) r)
    (right : Belongs (Poly.Admitted max) s) :
    Follows (Belongs (Poly.Admitted max)) (squaring r s n)
      (Discharge.squaring Fraction.mul r s n) := by
  induction n using Nat.strong_induction_on generalizing r s with
  | _ n ih =>
    rw [squaring, squaring_step]
    refine .ite (fun _ => .answer left) fun positive => ?_
    refine .bind (.ite (fun _ => mul_follows left right) fun _ => .answer left) fun t product => ?_
    refine .ite (fun _ => .answer product) fun _ => ?_
    exact .bind (mul_follows right right) fun u square => ih (n / 2) (by omega) product square

theorem powInt_follows (base : Belongs (Poly.Admitted max) r) (n : Int) (limit : Nat) :
    Follows (Belongs (Poly.Admitted max)) (powInt r n limit) (r.powInt n limit) := by
  have cls := Poly.admittedClass max
  have run {b : Fraction} (admitted : Belongs (Poly.Admitted max) b) :=
    squaring_follows n.natAbs (cls.ofPoly cls.one) admitted
  unfold powInt Fraction.powInt
  refine .ite (fun _ => .fail) fun _ => ?_
  exact .ite (fun _ => .bind (inverse_follows base) fun b => run) fun _ => run base

end Recorded

end Discharge
