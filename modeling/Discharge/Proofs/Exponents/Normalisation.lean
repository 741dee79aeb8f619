import Discharge.Proofs.Exponents.Recorded

/-! Normalising an expression with recorded exponents: every operation of the
normal form is repeated on recorded arithmetic, and follows it. -/

namespace Discharge.Recorded

/-! ## Roots, powers, exponentials and logarithms -/

def root (r : Fraction) (index : Nat) : Recorded Fraction := do
  if index = 0 then fail (.divisionByZero "root of index zero")
  if index = 1 then return r
  match r.constant? with
  | some value => return .ofPoly (← Poly.rationalRadical value index)
  | none =>
    let lifted ← if r.den.isOne then pure r.num else do r.num.mul (← r.den.pow (index - 1))
    let content := lifted.content
    let outside ← Poly.rationalRadical content index
    let root ← mul (.ofPoly outside) (.ofAtom (.root (lifted.scale content⁻¹) index))
    if r.den.isOne then return root else div root (.ofPoly r.den)

def powRat (r : Fraction) (q : Rat) (max : Nat) : Recorded Fraction := do
  if q.den = 1 then
    if !fitsInt64 q.num then fail (Fraction.wideExponent q)
    powInt r q.num max
  else
    let whole := q.floor
    let part := q - whole
    if max < part.den then fail (Fraction.exponentError part.den max)
    if !fitsInt64 part.num then fail (Fraction.wideExponent q)
    if !fitsInt64 whole then fail (Fraction.wideExponent q)
    let root ← root r part.den
    let fractional ← powInt root part.num max
    mul fractional (← powInt r whole max)

def takeLogarithms (max : Nat) (result : Fraction) : List (Fraction × Int) → Recorded Fraction
  | [] => pure result
  | (argument, n) :: rest => do
    if !fitsInt64 n then fail (.tooLarge "logarithm multiplicity")
    let result ← mul result (← powInt argument n max)
    takeLogarithms max result rest

def exp (r : Fraction) (max : Nat) : Recorded Fraction := do
  if r.isZero then return .one
  if !r.den.isOne then return .ofAtom (.exp r)
  let terms := r.num.terms
  let result ← takeLogarithms max .one (terms.filterMap Fraction.logarithm?)
  let rest := terms.filter fun t => (Fraction.logarithm? t).isNone
  mul result (.ofPoly (← (Monomial.exponential ⟨rest⟩).reduce))

def lnConstant (q : Rat) : Recorded Fraction :=
  if q < 0 then add (Fraction.lnPositive (-q)) (.ofPoly (.term Monomial.halfTurn 1))
  else pure (Fraction.lnPositive q)

def lnPlain (r : Fraction) : Recorded Fraction :=
  match r.constant? with
  | some q => lnConstant q
  | none => pure (.ofAtom (.ln r))

def ln (r : Fraction) : Recorded Fraction := do
  if r.isZero then fail (.divergent "logarithm of zero")
  match r.realExponential? with
  | some (rest, exponent) => add (← lnPlain rest) (.ofPoly exponent)
  | none => lnPlain r

def powPoly (r : Fraction) (exponent : Poly) (max : Nat) : Recorded Fraction := do
  let constantPart := (exponent.coefficient? .one).getD 0
  let symbolic := exponent.erase .one
  let unit := Fraction.exponentUnit symbolic
  if !fitsInt64 unit then fail (.tooLarge "exponent coefficient")
  let atom := Atom.power r (.ofPoly (symbolic.scale (unit : Rat)⁻¹))
  let power : Fraction := .ofPoly (← (Monomial.ofAtom atom unit).reduce)
  if constantPart = 0 then return power else mul power (← powRat r constantPart max)

def pow (r exponent : Fraction) (max : Nat) : Recorded Fraction := do
  match exponent.constant? with
  | some q => powRat r q max
  | none =>
    if r.isZero || r.isOne then return r
    match r.pureExponential? with
    | some e => exp (← mul (.ofPoly e) exponent) max
    | none =>
      if exponent.den.isOne then powPoly r exponent.num max
      else return .ofAtom (.power r exponent)

/-! ## Expressions -/

def sin (x : Fraction) (max : Nat) : Recorded Fraction := do
  let turned ← mul .imaginary x
  let up ← exp turned max
  let diff ← sub up (← exp turned.neg max)
  mul (← mul diff Fraction.imaginary.neg) .half

def cos (x : Fraction) (max : Nat) : Recorded Fraction := do
  let turned ← mul .imaginary x
  let up ← exp turned max
  mul (← add up (← exp turned.neg max)) .half

def apply (f : Function) (x : Fraction) (max : Nat) : Recorded Fraction :=
  match f with
  | .exp => exp x max
  | .ln => ln x
  | .sqrt => root x 2
  | .sin => sin x max
  | .cos => cos x max
  | .tan => do
    let s ← sin x max
    let c ← cos x max
    if c.isZero then fail (.divisionByZero "tangent at an odd multiple of pi/2")
    div s c
  | .sinh => do
    let up ← exp x max
    mul (← sub up (← exp x.neg max)) .half
  | .cosh => do
    let up ← exp x max
    mul (← add up (← exp x.neg max)) .half

mutual
/-- The canonical form of an expression, with recorded exponents. -/
def ofExpr (max : Nat) : Expr → Recorded Fraction
  | .number q => pure (.constant q)
  | .symbol s => pure (.ofAtom (.symbol s))
  | .constant .pi => pure (.ofAtom .pi)
  | .constant .imaginary => pure .imaginary
  | .constant .euler => pure (.ofPoly (.term (.exponential .one) 1))
  | .sum xs => ofSum max .zero xs
  | .product xs => ofProduct max .one xs
  | .power b e => do
    let base ← ofExpr max b
    let exponent ← ofExpr max e
    pow base exponent max
  | .apply f x => do apply f (← ofExpr max x) max

def ofSum (max : Nat) (total : Fraction) : List Expr → Recorded Fraction
  | [] => pure total
  | x :: xs => do ofSum max (← add total (← ofExpr max x)) xs

def ofProduct (max : Nat) (total : Fraction) : List Expr → Recorded Fraction
  | [] => pure total
  | x :: xs => do ofProduct max (← mul total (← ofExpr max x)) xs
end

/-! ## Canonical arithmetic -/

open Fraction (Canonical)
open Vocabulary (canonicalClass)

variable {max : Nat} {r s : Fraction} {p : Poly}

theorem add_canonical (left : r.Canonical max) (right : s.Canonical max) :
    Follows (Canonical max) (add r s) (r.add s) :=
  (add_follows left.admitted right.admitted).yielding (left.add right)

theorem sub_canonical (left : r.Canonical max) (right : s.Canonical max) :
    Follows (Canonical max) (sub r s) (r.sub s) := add_canonical left right.neg

theorem mul_canonical (left : r.Canonical max) (right : s.Canonical max) :
    Follows (Canonical max) (mul r s) (r.mul s) :=
  (mul_follows left.admitted right.admitted).yielding (left.mul right)

theorem div_canonical (left : r.Canonical max) (right : s.Canonical max) :
    Follows (Canonical max) (div r s) (r.div s) :=
  (div_follows left.admitted right.admitted).yielding (left.div right)

theorem powInt_canonical (base : r.Canonical max) (n : Int) (limit : Nat) :
    Follows (Canonical max) (powInt r n limit) (r.powInt n limit) :=
  (powInt_follows base.admitted n limit).yielding (base.powInt n limit)

/-! ## The operations of the normal form -/

theorem root_follows (canonical : r.Canonical max) {k : Nat} (fits : fitsInt64 k = true) :
    Follows (Canonical max) (root r k) (r.root k) := by
  unfold root Fraction.root
  refine .ite (fun _ => .fail) fun _ => .ite (fun _ => .answer canonical) fun _ => ?_
  have proper : 2 ≤ k := by omega
  have outside (q : Rat) : Yields (Poly.rationalRadical q k) (Poly.Canonical max) :=
    Poly.rationalRadical_canonical proper fits q
  cases r.constant? with
  | some value => exact .bind (.lift (outside value)) fun p root => .answer (.of_poly root)
  | none =>
    dsimp only
    split
    · refine .bind (.answer canonical.belongs.num) fun lifted top => ?_
      refine .bind (.lift (outside _)) fun p root => ?_
      exact .bind (mul_canonical (.of_poly root)
        (.of_atom (Fraction.radicand_canonical proper fits top))) fun t found => .answer found
    · refine .bind (.lift ((canonicalClass max).pow canonical.belongs.den (k - 1)))
        fun power raised => ?_
      refine .bind (.lift ((canonicalClass max).mul canonical.belongs.num raised))
        fun lifted product => ?_
      refine .bind (.lift (outside _)) fun p root => ?_
      exact .bind (mul_canonical (.of_poly root)
        (.of_atom (Fraction.radicand_canonical proper fits product))) fun t found =>
          div_canonical found (.of_poly canonical.belongs.den)

theorem powRat_follows (canonical : r.Canonical max) (q : Rat) (fits : fitsInt64 max = true) :
    Follows (Canonical max) (powRat r q max) (r.powRat q max) := by
  unfold powRat Fraction.powRat
  refine .ite (fun _ => .ite (fun _ => .fail) fun _ => powInt_canonical canonical _ _) fun _ => ?_
  refine .ite (fun _ => .fail) fun bounded => .ite (fun _ => .fail) fun _ => ?_
  refine .ite (fun _ => .fail) fun _ => ?_
  have index : fitsInt64 (q - q.floor).den = true := by
    rw [Monomial.fitsInt64_iff] at fits ⊢
    omega
  refine .bind (root_follows canonical index) fun root first => ?_
  refine .bind (powInt_canonical first _ _) fun fractional second => ?_
  exact .bind (powInt_canonical canonical _ _) fun whole third => mul_canonical second third

theorem takeLogarithms_follows (ls : List (Fraction × Int)) (canonical : r.Canonical max)
    (each : ∀ l ∈ ls, l.1.Canonical max) :
    Follows (Canonical max) (takeLogarithms max r ls) (Fraction.takeLogarithms max r ls) := by
  induction ls generalizing r with
  | nil => exact .answer canonical
  | cons l ls ih =>
    obtain ⟨argument, n⟩ := l
    obtain ⟨head, tail⟩ := List.forall_mem_cons.mp each
    refine .ite (fun _ => .fail) fun _ => ?_
    refine .bind (powInt_canonical head n max) fun power raised => ?_
    exact .bind (mul_canonical canonical raised) fun product multiplied => ih multiplied tail

theorem exp_follows (canonical : r.Canonical max) :
    Follows (Canonical max) (exp r max) (r.exp max) := by
  unfold exp Fraction.exp
  refine .ite (fun _ => .answer (.constant 1)) fun proper => ?_
  refine .ite (fun quotient => .answer ?_) fun _ => ?_
  · have atom : r.exp max = _ := Fraction.exp_eq_atom (by simpa using proper) (by simpa using quotient)
    exact canonical.exp.of_ok atom
  · refine .bind (takeLogarithms_follows _ (.constant 1)
      (Fraction.logarithm_canonical canonical.belongs.num)) fun t taken => ?_
    refine .bind (.lift (Vocabulary.reduce_canonical
      (Fraction.exponential_admitted canonical.belongs.num List.filter_sublist))) fun q reduced => ?_
    exact mul_canonical taken (.of_poly reduced)

theorem lnPlain_follows (canonical : r.Canonical max) (proper : r.isZero = false)
    (plain : r.realExponential? = none) : Follows (Canonical max) (lnPlain r) r.lnPlain := by
  have yields := Fraction.lnPlain_canonical canonical proper plain
  unfold lnPlain Fraction.lnPlain
  cases constant : r.constant? with
  | none => exact .answer (yields.of_ok (by rw [Fraction.lnPlain, constant]))
  | some q =>
    refine .ite (fun negative => ?_) fun positive => .answer (yields.of_ok ?_)
    · exact add_canonical (Fraction.lnPositive_canonical (neg_pos.mpr negative))
        Fraction.halfTurn_canonical
    · rw [Fraction.lnPlain, constant]
      exact if_neg positive

theorem ln_follows (canonical : r.Canonical max) : Follows (Canonical max) (ln r) r.ln := by
  unfold ln Fraction.ln
  refine .ite (fun _ => .fail) fun proper => ?_
  cases found : r.realExponential? with
  | none => exact lnPlain_follows canonical (by simpa using proper) found
  | some parts =>
    obtain ⟨first, nonzero, plain, second⟩ := Fraction.realExponential_canonical canonical found
    exact .bind (lnPlain_follows first nonzero plain) fun t logarithm =>
      add_canonical logarithm (.of_poly second)

theorem powPoly_follows (canonical : r.Canonical max) (exponent : p.Canonical max)
    (fits : fitsInt64 max = true) (symbolic : p.constant? = none) (proper : r.isZero = false)
    (other : r.isOne = false) (plain : r.pureExponential? = none) :
    Follows (Canonical max) (powPoly r p max) (r.powPoly p max) := by
  unfold powPoly Fraction.powPoly
  refine .ite (fun _ => .fail) fun bounded => ?_
  refine .bind (.lift (Fraction.unitPower_canonical canonical exponent symbolic proper other plain
    (by simpa using bounded))) fun power raised => ?_
  refine .ite (fun _ => .answer (.of_poly raised)) fun _ => ?_
  exact .bind (powRat_follows canonical _ fits) fun t second =>
    mul_canonical (.of_poly raised) second

theorem pow_follows (left : r.Canonical max) (right : s.Canonical max)
    (fits : fitsInt64 max = true) : Follows (Canonical max) (pow r s max) (r.pow s max) := by
  unfold pow Fraction.pow
  cases constant : s.constant? with
  | some q => exact powRat_follows left q fits
  | none =>
    refine .ite (fun _ => .answer left) fun proper => ?_
    obtain ⟨proper, other⟩ := Bool.or_eq_false_iff.mp (by simpa using proper)
    cases plain : r.pureExponential? with
    | some e =>
      exact .bind (mul_canonical (.of_poly (Fraction.pureExponential_canonical left plain)) right)
        fun t product => exp_follows product
    | none =>
      refine .ite (fun whole => ?_) fun quotient => .answer ?_
      · refine powPoly_follows left right.belongs.num fits ?_ proper other plain
        rwa [Fraction.constant?, if_pos whole] at constant
      · have atom : r.pow s max = _ :=
          Fraction.pow_eq_atom constant proper other plain (by simpa using quotient)
        exact (left.pow right fits).of_ok atom

/-! ## Functions -/

theorem sin_follows (canonical : r.Canonical max) :
    Follows (Canonical max) (sin r max) (r.sin max) := by
  refine .bind (mul_canonical Fraction.imaginary_canonical canonical) fun turned around => ?_
  refine .bind (exp_follows around) fun up first => ?_
  refine .bind (exp_follows around.neg) fun down second => ?_
  refine .bind (sub_canonical first second) fun diff third => ?_
  exact .bind (mul_canonical third Fraction.imaginary_canonical.neg) fun t fourth =>
    mul_canonical fourth Fraction.half_canonical

theorem cos_follows (canonical : r.Canonical max) :
    Follows (Canonical max) (cos r max) (r.cos max) := by
  refine .bind (mul_canonical Fraction.imaginary_canonical canonical) fun turned around => ?_
  refine .bind (exp_follows around) fun up first => ?_
  refine .bind (exp_follows around.neg) fun down second => ?_
  exact .bind (add_canonical first second) fun t third =>
    mul_canonical third Fraction.half_canonical

theorem apply_follows (f : Function) (canonical : r.Canonical max) :
    Follows (Canonical max) (apply f r max) (r.apply f max) := by
  cases f with
  | exp => exact exp_follows canonical
  | ln => exact ln_follows canonical
  | sqrt => exact root_follows canonical (k := 2) rfl
  | sin => exact sin_follows canonical
  | cos => exact cos_follows canonical
  | tan =>
    refine .bind (sin_follows canonical) fun s first => ?_
    refine .bind (cos_follows canonical) fun c second => ?_
    exact .ite (fun _ => .fail) fun _ => div_canonical first second
  | sinh =>
    refine .bind (exp_follows canonical) fun up first => ?_
    refine .bind (exp_follows canonical.neg) fun down second => ?_
    exact .bind (sub_canonical first second) fun t third =>
      mul_canonical third Fraction.half_canonical
  | cosh =>
    refine .bind (exp_follows canonical) fun up first => ?_
    refine .bind (exp_follows canonical.neg) fun down second => ?_
    exact .bind (add_canonical first second) fun t third =>
      mul_canonical third Fraction.half_canonical

/-! ## Expressions -/

mutual
/-- Normalising an expression follows the recorded normalisation. -/
theorem ofExpr_follows (fits : fitsInt64 max = true) :
    ∀ e, Follows (Canonical max) (ofExpr max e) (Fraction.ofExpr max e)
  | .number q => by
    rw [ofExpr, Fraction.ofExpr]
    exact .answer (.constant q)
  | .symbol s => by
    rw [ofExpr, Fraction.ofExpr]
    exact .answer ((Fraction.ofExpr_canonical fits (.symbol s)).of_ok (by rw [Fraction.ofExpr]))
  | .constant .pi => by
    rw [ofExpr, Fraction.ofExpr]
    exact .answer ((Fraction.ofExpr_canonical fits (.constant .pi)).of_ok (by rw [Fraction.ofExpr]))
  | .constant .imaginary => by
    rw [ofExpr, Fraction.ofExpr]
    exact .answer Fraction.imaginary_canonical
  | .constant .euler => by
    rw [ofExpr, Fraction.ofExpr]
    exact .answer ((Fraction.ofExpr_canonical fits (.constant .euler)).of_ok (by rw [Fraction.ofExpr]))
  | .sum xs => by
    rw [ofExpr, Fraction.ofExpr]
    exact ofSum_follows fits xs (.constant 0)
  | .product xs => by
    rw [ofExpr, Fraction.ofExpr]
    exact ofProduct_follows fits xs (.constant 1)
  | .power b e => by
    rw [ofExpr, Fraction.ofExpr]
    exact .bind (ofExpr_follows fits b) fun r left =>
      .bind (ofExpr_follows fits e) fun s right => pow_follows left right fits
  | .apply f x => by
    rw [ofExpr, Fraction.ofExpr]
    exact .bind (ofExpr_follows fits x) fun r canonical => apply_follows f canonical

theorem ofSum_follows (fits : fitsInt64 max = true) {total : Fraction} :
    ∀ xs, total.Canonical max →
      Follows (Canonical max) (ofSum max total xs) (Fraction.ofSum max total xs)
  | [], canonical => by
    rw [ofSum, Fraction.ofSum]
    exact .answer canonical
  | x :: xs, canonical => by
    rw [ofSum, Fraction.ofSum]
    refine .bind (ofExpr_follows fits x) fun r first => ?_
    exact .bind (add_canonical canonical first) fun t next => ofSum_follows fits xs next

theorem ofProduct_follows (fits : fitsInt64 max = true) {total : Fraction} :
    ∀ xs, total.Canonical max →
      Follows (Canonical max) (ofProduct max total xs) (Fraction.ofProduct max total xs)
  | [], canonical => by
    rw [ofProduct, Fraction.ofProduct]
    exact .answer canonical
  | x :: xs, canonical => by
    rw [ofProduct, Fraction.ofProduct]
    refine .bind (ofExpr_follows fits x) fun r first => ?_
    exact .bind (mul_canonical canonical first) fun t next => ofProduct_follows fits xs next
end

end Discharge.Recorded
