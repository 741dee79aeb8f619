import Discharge.Proofs.Exponents.Integration
import Discharge.Proofs.Rational.Growth
import Discharge.Proofs.Rational.Limit

/-! Limits with recorded exponents. The power of the variable that clears its
negative powers is the only exponent that a limit computes itself. -/

namespace Discharge.Recorded

open Fraction (Belongs Canonical)
open Limit (Dominant Group)

/-! ## Finite points -/

def cleared (r : Fraction) (var : String) : Recorded (Poly × Poly) := do
  let lowest := Limit.lowestPower r var
  let power := Monomial.ofAtom (.symbol var) (← exponent .negative lowest)
  let num ← r.num.shift power
  return (num, ← r.den.shift power)

def finite (guards : Guards) (var : String) (point : Expr) : Nat → Fraction → Recorded Fraction
  | rounds, r => do
    if !r.mentions var then return r
    let q ← cleared r var
    let top ← ofExpr guards.maxPower ((Fraction.ofPoly q.1).toExpr.substitute var point)
    let bottom ← ofExpr guards.maxPower ((Fraction.ofPoly q.2).toExpr.substitute var point)
    if !bottom.isZero then div top bottom
    else if !top.isZero then
      fail (.divergent (top.toExpr.render ++ " / 0 as " ++ var ++ " -> " ++ point.render))
    else match rounds with
      | 0 => fail (.indeterminate ("0/0 as " ++ var ++ " -> " ++ point.render
          ++ " after " ++ toString guards.rounds ++ " rounds of L'Hopital"))
      | rounds + 1 => do
        let top ← ofExpr guards.maxPower ((Fraction.ofPoly q.1).toExpr.derivative var)
        let bottom ← ofExpr guards.maxPower ((Fraction.ofPoly q.2).toExpr.derivative var)
        finite guards var point rounds (← div top bottom)

/-! ## Infinity -/

def infinite (r : Fraction) (var : String) (shown : Fraction) (point : LimitPoint) :
    Recorded Fraction := do
  if !r.mentions var then return r
  match ← Limit.dominant var r.num with
  | none => return .zero
  | some top =>
    match ← Limit.dominant var r.den with
    | none => fail (.divisionByZero "denominator at infinity")
    | some bottom =>
      match top.growth.compare bottom.growth with
      | .lt => return .zero
      | .gt => fail (.divergent (shown.toExpr.render ++ " grows without bound as "
          ++ var ++ " -> " ++ point.render))
      | .eq =>
        if top.key = bottom.key then make top.coefficient bottom.coefficient
        else fail (.indeterminate (shown.toExpr.render
          ++ " oscillates or has no dominant term as " ++ var ++ " -> " ++ point.render))

def limit (r : Fraction) (var : String) (point : LimitPoint) (guards : Guards) :
    Recorded Fraction := do
  if !r.mentions var then return r
  match point with
  | .finite e => finite guards var e guards.rounds r
  | .posInfinity => infinite r var r point
  | .negInfinity =>
    let flipped := r.toExpr.substitute var (-Expr.symbol var)
    infinite (← ofExpr guards.maxPower flipped) var r point

/-! ## What a limit at a finite point gives -/

variable {max : Nat} {x : String} {r : Fraction} {p : Poly}

theorem lowestPower_fits (belongs : Belongs (Poly.Admitted max) r) :
    fitsInt64 (Limit.lowestPower r x) = true := by
  obtain ⟨-, -, zero | ⟨t, member, count⟩⟩ := Limit.lowestPower_spec r x
  · rw [zero]
    rfl
  · rw [← count]
    by_cases zero : t.1.count (.symbol x) = 0
    · rw [zero]
      rfl
    · rcases List.mem_append.mp member with inside | inside
      · exact ((belongs.num.all t inside).of_count zero).fits
      · exact ((belongs.den.all t inside).of_count zero).fits

theorem cleared_follows (belongs : Belongs (Poly.Admitted max) r) :
    Follows (fun _ => True) (cleared r x) (Limit.cleared r x) := by
  have yields {y : Outcome Poly} : Yields y fun _ => True := by cases y <;> trivial
  refine .bind (.exponent .negative (lowestPower_fits belongs)) fun n _ => ?_
  exact .bind (.lift yields) fun num _ => .bind (.lift yields) fun den _ => .answer trivial

/-- One round after another follows the recorded rounds. -/
theorem finite_follows (guards : Guards) (fits : fitsInt64 guards.maxPower = true) (point : Expr)
    (rounds : Nat) (belongs : Belongs (Poly.Admitted guards.maxPower) r) :
    Follows (Belongs (Poly.Admitted guards.maxPower)) (finite guards x point rounds r)
      (Limit.finite guards x point rounds r) := by
  induction rounds generalizing r with
  | zero =>
    rw [finite, Limit.finite_eq]
    refine .ite (fun _ => .answer belongs) fun _ => .bind (cleared_follows belongs) fun q _ => ?_
    refine .bind (ofExpr_follows fits _) fun top above => ?_
    refine .bind (ofExpr_follows fits _) fun bottom below => ?_
    refine .ite (fun _ => div_follows above.admitted below.admitted) fun _ => ?_
    exact .ite (fun _ => .fail) fun _ => .fail
  | succ rounds ih =>
    rw [finite, Limit.finite_eq]
    refine .ite (fun _ => .answer belongs) fun _ => .bind (cleared_follows belongs) fun q _ => ?_
    refine .bind (ofExpr_follows fits _) fun top above => ?_
    refine .bind (ofExpr_follows fits _) fun bottom below => ?_
    refine .ite (fun _ => div_follows above.admitted below.admitted) fun _ => ?_
    refine .ite (fun _ => .fail) fun _ => ?_
    refine .bind (ofExpr_follows fits _) fun slope above => ?_
    refine .bind (ofExpr_follows fits _) fun slope' below => ?_
    exact .bind (div_follows above.admitted below.admitted) fun next quotient => ih quotient

/-! ## What a limit at infinity gives -/

/-- The polynomials of the groups are admitted. -/
def Grouped (max : Nat) (gs : List Group) : Prop := ∀ g ∈ gs, g.coefficient.Admitted max

theorem insertGroup_grouped {g : Group} {gs : List Group} (new : g.coefficient.Admitted max)
    (grouped : Grouped max gs) : Grouped max (Limit.insertGroup g gs) := by
  induction gs with
  | nil => exact List.forall_mem_singleton.mpr new
  | cons h hs ih =>
    obtain ⟨head, tail⟩ := List.forall_mem_cons.mp grouped
    rw [Limit.insertGroup]
    split
    · exact List.forall_mem_cons.mpr ⟨new, grouped⟩
    · exact List.forall_mem_cons.mpr ⟨head.add new, tail⟩
    · exact List.forall_mem_cons.mpr ⟨head, ih tail⟩

theorem groups_grouped (ts : List (Monomial × Rat)) {gs : List Group}
    (each : ∀ t ∈ ts, (Vocabulary.outer max).valuation.Admits t.1) (grouped : Grouped max gs) :
    Grouped max ((Limit.groups x ts).foldl (fun gs g => Limit.insertGroup g gs) gs) := by
  rw [Limit.groups_eq_map]
  induction ts generalizing gs with
  | nil => exact grouped
  | cons t ts ih =>
    obtain ⟨⟨fs, e⟩, c⟩ := t
    obtain ⟨head, tail⟩ := List.forall_mem_cons.mp each
    refine ih tail (insertGroup_grouped ?_ grouped)
    have free : (Vocabulary.outer max).valuation.Admits ((Monomial.mk fs e).split x).2 := by
      rw [Valuation.split_eq]
      exact head.part _ _
    exact .term free c

theorem fastest_admitted {gs : List Group} (grouped : Grouped max gs) {best : Option Dominant}
    (start : ∀ top, best = some top → top.coefficient.Admitted max) (tied : Bool) :
    Yields (Limit.fastest best tied gs) fun found =>
      ∀ top, found.1 = some top → top.coefficient.Admitted max := by
  induction gs generalizing best tied with
  | nil => exact start
  | cons g gs ih =>
    obtain ⟨head, tail⟩ := List.forall_mem_cons.mp grouped
    rw [Limit.fastest]
    refine Yields.bind_ok fun growth _ => ?_
    dsimp only
    split
    · refine ih tail ?_ false
      rintro _ ⟨⟩
      exact head
    · exact ih tail start true
    · exact ih tail start tied

theorem dominant_admitted (admitted : p.Admitted max) :
    Yields (Limit.dominant x p) fun found =>
      ∀ top, found = some top → top.coefficient.Admitted max := by
  obtain ⟨ts⟩ := p
  rw [Limit.dominant, Limit.dominantOf]
  have grouped : Grouped max ((Limit.groups x ts).foldl (fun gs g => Limit.insertGroup g gs) []) :=
    groups_grouped ts admitted.all fun _ member => absurd member List.not_mem_nil
  have start : ∀ top, (none : Option Dominant) = some top → top.coefficient.Admitted max :=
    fun _ found => by cases found
  refine .bind (fastest_admitted grouped start false) fun found held => ?_
  dsimp only
  split
  · trivial
  · exact held

theorem infinite_follows (belongs : Belongs (Poly.Admitted max) r) (shown : Fraction)
    (point : LimitPoint) :
    Follows (Belongs (Poly.Admitted max)) (infinite r x shown point)
      (Limit.infinite r x shown point) := by
  have cls := Poly.admittedClass max
  refine .ite (fun _ => .answer belongs) fun _ => ?_
  refine .bind (.lift (dominant_admitted belongs.num)) fun top above => ?_
  cases top with
  | none => exact .answer (cls.ofPoly cls.zero)
  | some top =>
    refine .bind (.lift (dominant_admitted belongs.den)) fun bottom below => ?_
    cases bottom with
    | none => exact .fail
    | some bottom =>
      dsimp only
      cases top.growth.compare bottom.growth with
      | lt => exact .answer (cls.ofPoly cls.zero)
      | gt => exact .fail
      | eq =>
        exact .ite (fun _ => make_follows (above top rfl) (below bottom rfl)) fun _ => .fail

/-- A limit follows the recorded limit. -/
theorem limit_follows (guards : Guards) (fits : fitsInt64 guards.maxPower = true)
    (belongs : Belongs (Poly.Admitted guards.maxPower) r) (point : LimitPoint) :
    Follows (Belongs (Poly.Admitted guards.maxPower)) (limit r x point guards)
      (r.limit x point guards) := by
  refine .ite (fun _ => .answer belongs) fun _ => ?_
  cases point with
  | finite e => exact finite_follows guards fits e guards.rounds belongs
  | posInfinity => exact infinite_follows belongs r .posInfinity
  | negInfinity =>
    exact .bind (ofExpr_follows fits _) fun flipped canonical =>
      infinite_follows canonical.admitted r .negInfinity

end Discharge.Recorded
