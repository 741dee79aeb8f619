import Discharge.Normal.OfExpr
import Discharge.Proofs.Ensures
import Discharge.Proofs.Normal.Quotient

/-! The divisors of a canonical form. Normalising an expression is repeated with
fractions that carry the polynomials they were divided by, and the fractions
that come out are the same. The divisors are those of `Fraction.make`: every
denominator that it is given, and the conjugates that the denominator is
multiplied with. -/

namespace Discharge

/-- A fraction with what was divided by on the way to it. -/
structure Traced where
  fraction : Fraction
  divisors : List Poly

namespace Traced

/-! ## Arithmetic -/

/-- A fraction that needed no division. -/
def whole (r : Fraction) : Traced := ⟨r, []⟩

/-- The canonical form of a quotient of polynomials for which `used` was divided
by. -/
def make (used : List Poly) (num den : Poly) : Outcome Traced :=
  (Fraction.make num den).map fun r => ⟨r, used ++ Fraction.divisors num den⟩

def add (r s : Traced) : Outcome Traced := do
  let (num, den) ← Fraction.sumSides r.fraction s.fraction
  make (r.divisors ++ s.divisors) num den

def neg (r : Traced) : Traced := ⟨r.fraction.neg, r.divisors⟩

def sub (r s : Traced) : Outcome Traced := r.add s.neg

def mul (r s : Traced) : Outcome Traced := do
  let (num, den) ← r.fraction.productSides s.fraction.num s.fraction.den
  make (r.divisors ++ s.divisors) num den

def inverse (r : Traced) : Outcome Traced :=
  if r.fraction.isZero then .error (.divisionByZero "reciprocal of zero")
  else make r.divisors r.fraction.den r.fraction.num

def div (r s : Traced) : Outcome Traced :=
  if s.fraction.isZero then .error (.divisionByZero "division by an expression equal to zero")
  else do
    let (num, den) ← r.fraction.productSides s.fraction.den s.fraction.num
    make (r.divisors ++ s.divisors) num den

def powInt (r : Traced) (n : Int) (max : Nat) : Outcome Traced := do
  if max < n.natAbs then throw (Fraction.exponentError n max)
  let base ← if n < 0 then r.inverse else .ok r
  squaring mul ⟨.one, base.divisors⟩ base n.natAbs

/-! ## Roots, powers, exponentials and logarithms -/

def root (r : Traced) (index : Nat) : Outcome Traced := do
  if index = 0 then throw (.divisionByZero "root of index zero")
  if index = 1 then return r
  match r.fraction.constant? with
  | some value => return ⟨.ofPoly (← Poly.rationalRadical value index), r.divisors⟩
  | none =>
    let lifted ← if r.fraction.den.isOne then .ok r.fraction.num
      else do r.fraction.num.mul (← r.fraction.den.pow (index - 1))
    let content := lifted.content
    let outside ← Poly.rationalRadical content index
    let root ← mul ⟨.ofPoly outside, r.divisors⟩
      (whole (.ofAtom (.root (lifted.scale content⁻¹) index)))
    if r.fraction.den.isOne then return root else root.div (whole (.ofPoly r.fraction.den))

def powRat (r : Traced) (q : Rat) (max : Nat) : Outcome Traced := do
  if q.den = 1 then
    if !fitsInt64 q.num then throw (Fraction.wideExponent q)
    r.powInt q.num max
  else
    let whole := q.floor
    let part := q - whole
    if max < part.den then throw (Fraction.exponentError part.den max)
    if !fitsInt64 part.num then throw (Fraction.wideExponent q)
    if !fitsInt64 whole then throw (Fraction.wideExponent q)
    let root ← r.root part.den
    let fractional ← root.powInt part.num max
    fractional.mul (← r.powInt whole max)

def takeLogarithms (max : Nat) (result : Traced) :
    List (Fraction × Int) → Outcome Traced
  | [] => .ok result
  | (argument, n) :: rest => do
    if !fitsInt64 n then throw (.tooLarge "logarithm multiplicity")
    let result ← result.mul (← (whole argument).powInt n max)
    takeLogarithms max result rest

def exp (r : Traced) (max : Nat) : Outcome Traced := do
  if r.fraction.isZero then return ⟨.one, r.divisors⟩
  if !r.fraction.den.isOne then return ⟨.ofAtom (.exp r.fraction), r.divisors⟩
  let terms := r.fraction.num.terms
  let result ← takeLogarithms max ⟨.one, r.divisors⟩ (terms.filterMap Fraction.logarithm?)
  let rest := terms.filter fun t => (Fraction.logarithm? t).isNone
  result.mul (whole (.ofPoly (← (Monomial.exponential ⟨rest⟩).reduce)))

def lnConstant (used : List Poly) (q : Rat) : Outcome Traced :=
  if q < 0 then
    add ⟨Fraction.lnPositive (-q), used⟩ (whole (.ofPoly (.term Monomial.halfTurn 1)))
  else .ok ⟨Fraction.lnPositive q, used⟩

def lnPlain (r : Traced) : Outcome Traced :=
  match r.fraction.constant? with
  | some q => lnConstant r.divisors q
  | none => .ok ⟨.ofAtom (.ln r.fraction), r.divisors⟩

def ln (r : Traced) : Outcome Traced := do
  if r.fraction.isZero then throw (.divergent "logarithm of zero")
  match r.fraction.realExponential? with
  | some (rest, exponent) => (← lnPlain ⟨rest, r.divisors⟩).add (whole (.ofPoly exponent))
  | none => r.lnPlain

def powPoly (r : Traced) (exponent : Poly) (max : Nat) : Outcome Traced := do
  let constantPart := (exponent.coefficient? .one).getD 0
  let symbolic := exponent.erase .one
  let unit := Fraction.exponentUnit symbolic
  if !fitsInt64 unit then throw (.tooLarge "exponent coefficient")
  let atom := Atom.power r.fraction (.ofPoly (symbolic.scale (unit : Rat)⁻¹))
  let power : Traced := ⟨.ofPoly (← (Monomial.ofAtom atom unit).reduce), r.divisors⟩
  if constantPart = 0 then return power else power.mul (← r.powRat constantPart max)

def pow (r exponent : Traced) (max : Nat) : Outcome Traced := do
  match exponent.fraction.constant? with
  | some q => powRat ⟨r.fraction, r.divisors ++ exponent.divisors⟩ q max
  | none =>
    let r : Traced := ⟨r.fraction, r.divisors ++ exponent.divisors⟩
    if r.fraction.isZero || r.fraction.isOne then return r
    match r.fraction.pureExponential? with
    | some e => (← mul ⟨.ofPoly e, r.divisors⟩ exponent).exp max
    | none =>
      if exponent.fraction.den.isOne then r.powPoly exponent.fraction.num max
      else return ⟨.ofAtom (.power r.fraction exponent.fraction), r.divisors⟩

/-! ## Expressions -/

def sin (x : Traced) (max : Nat) : Outcome Traced := do
  let turned ← (whole .imaginary).mul x
  let up ← turned.exp max
  let diff ← up.sub (← turned.neg.exp max)
  (← diff.mul (whole Fraction.imaginary.neg)).mul (whole .half)

def cos (x : Traced) (max : Nat) : Outcome Traced := do
  let turned ← (whole .imaginary).mul x
  let up ← turned.exp max
  (← up.add (← turned.neg.exp max)).mul (whole .half)

def apply (f : Function) (x : Traced) (max : Nat) : Outcome Traced :=
  match f with
  | .exp => x.exp max
  | .ln => x.ln
  | .sqrt => x.root 2
  | .sin => x.sin max
  | .cos => x.cos max
  | .tan => do
    let s ← x.sin max
    let c ← x.cos max
    if c.fraction.isZero then throw (.divisionByZero "tangent at an odd multiple of pi/2")
    s.div c
  | .sinh => do
    let up ← x.exp max
    (← up.sub (← x.neg.exp max)).mul (whole .half)
  | .cosh => do
    let up ← x.exp max
    (← up.add (← x.neg.exp max)).mul (whole .half)

mutual
/-- The canonical form of an expression, with its divisors. -/
def ofExpr (max : Nat) : Expr → Outcome Traced
  | .number q => .ok (whole (.constant q))
  | .symbol s => .ok (whole (.ofAtom (.symbol s)))
  | .constant .pi => .ok (whole (.ofAtom .pi))
  | .constant .imaginary => .ok (whole .imaginary)
  | .constant .euler => .ok (whole (.ofPoly (.term (.exponential .one) 1)))
  | .sum xs => ofSum max (whole .zero) xs
  | .product xs => ofProduct max (whole .one) xs
  | .power b e => do
    let base ← ofExpr max b
    let exponent ← ofExpr max e
    base.pow exponent max
  | .apply f x => do (← ofExpr max x).apply f max

def ofSum (max : Nat) (total : Traced) : List Expr → Outcome Traced
  | [] => .ok total
  | x :: xs => do ofSum max (← total.add (← ofExpr max x)) xs

def ofProduct (max : Nat) (total : Traced) : List Expr → Outcome Traced
  | [] => .ok total
  | x :: xs => do ofProduct max (← total.mul (← ofExpr max x)) xs
end

/-! ## The same fractions -/

variable {α ε : Type}

/-- Without its divisors, the result is that of `y`. -/
def Erases (x : Except ε Traced) (y : Except ε Fraction) : Prop := x.map fraction = y

namespace Erases

variable {x : Except ε Traced} {y : Except ε Fraction}

theorem bind {f : Traced → Except ε Traced} {g : Fraction → Except ε Fraction}
    (first : Erases x y) (next : ∀ t, Erases (f t) (g t.fraction)) :
    Erases (x >>= f) (y >>= g) := by
  subst first
  cases x with
  | ok t => exact next t
  | error e => rfl

/-- A step that both computations make. -/
theorem step {z : Except ε α} {f : α → Except ε Traced} {g : α → Except ε Fraction}
    (next : ∀ a, Erases (f a) (g a)) : Erases (z >>= f) (z >>= g) := by
  cases z with
  | ok a => exact next a
  | error e => rfl

theorem ite {c : Prop} [Decidable c] {x' : Except ε Traced} {y' : Except ε Fraction}
    (yes : c → Erases x y) (no : ¬ c → Erases x' y') :
    Erases (if c then x else x') (if c then y else y') := by
  split
  · exact yes ‹c›
  · exact no ‹¬ c›

end Erases

theorem make_erases (used : List Poly) (num den : Poly) :
    Erases (make used num den) (Fraction.make num den) := by
  unfold make
  cases Fraction.make num den <;> rfl

theorem add_erases (r s : Traced) : Erases (r.add s) (r.fraction.add s.fraction) := by
  rw [Fraction.add_eq_make]
  exact .step fun q => make_erases _ q.1 q.2

theorem sub_erases (r s : Traced) : Erases (r.sub s) (r.fraction.sub s.fraction) := add_erases r s.neg

theorem mul_erases (r s : Traced) : Erases (r.mul s) (r.fraction.mul s.fraction) := by
  rw [Fraction.mul_eq_make]
  exact .step fun q => make_erases _ q.1 q.2

theorem inverse_erases (r : Traced) : Erases r.inverse r.fraction.inverse :=
  .ite (fun _ => rfl) fun _ => make_erases _ _ _

theorem div_erases (r s : Traced) : Erases (r.div s) (r.fraction.div s.fraction) := by
  rw [Fraction.div_eq_make]
  exact .ite (fun _ => rfl) fun _ => .step fun q => make_erases _ q.1 q.2

theorem squaring_erases (n : Nat) (r s : Traced) :
    Erases (squaring mul r s n) (squaring Fraction.mul r.fraction s.fraction n) := by
  induction n using Nat.strong_induction_on generalizing r s with
  | _ n ih =>
    rw [squaring_step, squaring_step]
    refine .ite (fun _ => rfl) fun positive => ?_
    refine .bind (.ite (fun _ => mul_erases r s) fun _ => rfl) fun t => ?_
    refine .ite (fun _ => rfl) fun _ => ?_
    exact .bind (mul_erases s s) fun u => ih (n / 2) (by omega) t u

theorem powInt_erases (r : Traced) (n : Int) (max : Nat) :
    Erases (r.powInt n max) (r.fraction.powInt n max) := by
  unfold powInt Fraction.powInt
  dsimp only
  split
  · rfl
  split
  · exact .bind (inverse_erases r) fun b => squaring_erases n.natAbs _ b
  · exact squaring_erases n.natAbs _ r

theorem root_erases (r : Traced) (index : Nat) :
    Erases (r.root index) (r.fraction.root index) := by
  unfold root Fraction.root
  dsimp only
  split
  · rfl
  split
  · rfl
  cases r.fraction.constant? with
  | some value => exact .step fun p => rfl
  | none =>
    refine .ite (fun _ => .step fun lifted => ?_) fun _ => .step fun power => .step fun lifted => ?_
    all_goals
      refine .step fun outside => .bind (mul_erases _ _) fun t => ?_
      exact .ite (fun _ => rfl) fun _ => div_erases t _

theorem powRat_erases (r : Traced) (q : Rat) (max : Nat) :
    Erases (r.powRat q max) (r.fraction.powRat q max) := by
  unfold powRat Fraction.powRat
  dsimp only
  split
  · split
    · rfl
    · exact powInt_erases r q.num max
  split
  · rfl
  split
  · rfl
  split
  · rfl
  · refine .bind (root_erases r _) fun root => .bind (powInt_erases root _ max) fun t => ?_
    exact .bind (powInt_erases r _ max) fun u => mul_erases t u

theorem takeLogarithms_erases (max : Nat) (result : Traced) (ls : List (Fraction × Int)) :
    Erases (takeLogarithms max result ls) (Fraction.takeLogarithms max result.fraction ls) := by
  induction ls generalizing result with
  | nil => rfl
  | cons l ls ih =>
    obtain ⟨argument, n⟩ := l
    unfold takeLogarithms Fraction.takeLogarithms
    dsimp only
    split
    · rfl
    · refine .bind (powInt_erases (whole argument) n max) fun t => ?_
      exact .bind (mul_erases result t) fun u => ih u

theorem exp_erases (r : Traced) (max : Nat) : Erases (r.exp max) (r.fraction.exp max) := by
  unfold exp Fraction.exp
  dsimp only
  split
  · rfl
  split
  · rfl
  · refine .bind (takeLogarithms_erases max _ _) fun t => ?_
    exact .step fun p => mul_erases t _

theorem lnPlain_erases (r : Traced) : Erases r.lnPlain r.fraction.lnPlain := by
  unfold lnPlain Fraction.lnPlain
  cases r.fraction.constant? with
  | some q =>
    unfold lnConstant Fraction.lnConstant
    exact .ite (fun _ => add_erases _ _) fun _ => rfl
  | none => rfl

theorem ln_erases (r : Traced) : Erases r.ln r.fraction.ln := by
  unfold ln Fraction.ln
  dsimp only
  split
  · rfl
  cases r.fraction.realExponential? with
  | some parts => exact .bind (lnPlain_erases ⟨parts.1, r.divisors⟩) fun t => add_erases t _
  | none => exact lnPlain_erases r

theorem powPoly_erases (r : Traced) (exponent : Poly) (max : Nat) :
    Erases (r.powPoly exponent max) (r.fraction.powPoly exponent max) := by
  unfold powPoly Fraction.powPoly
  dsimp only
  split
  · rfl
  · refine .step fun p => .ite (fun _ => rfl) fun _ => ?_
    exact .bind (powRat_erases r _ max) fun t => mul_erases _ t

theorem pow_erases (r exponent : Traced) (max : Nat) :
    Erases (r.pow exponent max) (r.fraction.pow exponent.fraction max) := by
  unfold pow Fraction.pow
  dsimp only
  cases exponent.fraction.constant? with
  | some q => exact powRat_erases _ q max
  | none =>
    refine .ite (fun _ => rfl) fun _ => ?_
    cases r.fraction.pureExponential? with
    | some e =>
      exact .bind (mul_erases ⟨.ofPoly e, r.divisors ++ exponent.divisors⟩ exponent) fun t =>
        exp_erases t max
    | none => exact .ite (fun _ => powPoly_erases _ _ max) fun _ => rfl

theorem sin_erases (x : Traced) (max : Nat) : Erases (x.sin max) (x.fraction.sin max) := by
  refine .bind (mul_erases _ x) fun turned => .bind (exp_erases turned max) fun up => ?_
  refine .bind (exp_erases turned.neg max) fun down => .bind (sub_erases up down) fun diff => ?_
  exact .bind (mul_erases diff _) fun t => mul_erases t _

theorem cos_erases (x : Traced) (max : Nat) : Erases (x.cos max) (x.fraction.cos max) := by
  refine .bind (mul_erases _ x) fun turned => .bind (exp_erases turned max) fun up => ?_
  refine .bind (exp_erases turned.neg max) fun down => .bind (add_erases up down) fun t => ?_
  exact mul_erases t _

theorem apply_erases (f : Function) (x : Traced) (max : Nat) :
    Erases (x.apply f max) (x.fraction.apply f max) := by
  cases f with
  | exp => exact exp_erases x max
  | ln => exact ln_erases x
  | sqrt => exact root_erases x 2
  | sin => exact sin_erases x max
  | cos => exact cos_erases x max
  | tan =>
    refine .bind (sin_erases x max) fun s => .bind (cos_erases x max) fun c => ?_
    dsimp only
    split
    · rfl
    · exact div_erases s c
  | sinh =>
    refine .bind (exp_erases x max) fun up => .bind (exp_erases x.neg max) fun down => ?_
    exact .bind (sub_erases up down) fun t => mul_erases t _
  | cosh =>
    refine .bind (exp_erases x max) fun up => .bind (exp_erases x.neg max) fun down => ?_
    exact .bind (add_erases up down) fun t => mul_erases t _

mutual
/-- Normalising with divisors gives the canonical form. -/
theorem ofExpr_erases (max : Nat) : ∀ e, Erases (ofExpr max e) (Fraction.ofExpr max e)
  | .number q => by rw [ofExpr, Fraction.ofExpr]; rfl
  | .symbol s => by rw [ofExpr, Fraction.ofExpr]; rfl
  | .constant .pi => by rw [ofExpr, Fraction.ofExpr]; rfl
  | .constant .imaginary => by rw [ofExpr, Fraction.ofExpr]; rfl
  | .constant .euler => by rw [ofExpr, Fraction.ofExpr]; rfl
  | .sum xs => by
    rw [ofExpr, Fraction.ofExpr]
    exact ofSum_erases max _ xs
  | .product xs => by
    rw [ofExpr, Fraction.ofExpr]
    exact ofProduct_erases max _ xs
  | .power b e => by
    rw [ofExpr, Fraction.ofExpr]
    exact .bind (ofExpr_erases max b) fun r => .bind (ofExpr_erases max e) fun s =>
      pow_erases r s max
  | .apply f x => by
    rw [ofExpr, Fraction.ofExpr]
    exact .bind (ofExpr_erases max x) fun r => apply_erases f r max

theorem ofSum_erases (max : Nat) (total : Traced) :
    ∀ xs, Erases (ofSum max total xs) (Fraction.ofSum max total.fraction xs)
  | [] => by rw [ofSum, Fraction.ofSum]; rfl
  | x :: xs => by
    rw [ofSum, Fraction.ofSum]
    exact .bind (ofExpr_erases max x) fun r => .bind (add_erases total r) fun t =>
      ofSum_erases max t xs

theorem ofProduct_erases (max : Nat) (total : Traced) :
    ∀ xs, Erases (ofProduct max total xs) (Fraction.ofProduct max total.fraction xs)
  | [] => by rw [ofProduct, Fraction.ofProduct]; rfl
  | x :: xs => by
    rw [ofProduct, Fraction.ofProduct]
    exact .bind (ofExpr_erases max x) fun r => .bind (mul_erases total r) fun t =>
      ofProduct_erases max t xs
end

end Traced

/-- All that normalising an expression divides by. -/
def Expr.divisors (max : Nat) (e : Expr) : List Poly :=
  match Traced.ofExpr max e with
  | .ok t => t.divisors
  | .error _ => []

/-- A canonical form comes with the divisors of its expression. -/
theorem Traced.ofExpr_of_ok {max : Nat} {e : Expr} {r : Fraction}
    (ran : Fraction.ofExpr max e = .ok r) : Traced.ofExpr max e = .ok ⟨r, e.divisors max⟩ := by
  have erased : (Traced.ofExpr max e).map fraction = .ok r := (ofExpr_erases max e).trans ran
  obtain ⟨t, traced, rfl⟩ := map_eq_ok erased
  rw [Expr.divisors, traced]

end Discharge
