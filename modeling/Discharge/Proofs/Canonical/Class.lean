import Discharge.Proofs.Denominator.Regular

/-! Classes of polynomials that arithmetic does not leave. What holds of the
reduced products of terms holds of all terms of a product, so a class is closed
under the operations on fractions if it is closed under those on polynomials
that they consist of. -/

namespace Discharge

namespace Poly

variable {P : Monomial → Prop} {lower lower' : Monomial → Outcome Poly} {p q : Poly}
  {m : Monomial}

/-! ## Terms of products -/

theorem timesTerm_coincide {c : Rat} {ts : List (Monomial × Rat)}
    (each : ∀ t ∈ ts, ∀ k, m.combine t.1 = .ok k → Coincide (·.All P) (lower k) (lower' k)) :
    Coincide (fun ps => ∀ p ∈ ps, p.All P) (timesTerm lower m c ts) (timesTerm lower' m c ts) := by
  induction ts with
  | nil => exact .answer fun _ member => absurd member List.not_mem_nil
  | cons t ts ih =>
    obtain ⟨n, d⟩ := t
    obtain ⟨head, tail⟩ := List.forall_mem_cons.mp each
    refine .bind_ok fun k combined => .bind (head k combined) fun r reduced => ?_
    exact .bind (ih tail) fun ps rest => .answer (List.forall_mem_cons.mpr ⟨reduced.scale _, rest⟩)

theorem timesTerms_coincide {ts us : List (Monomial × Rat)}
    (each : ∀ s ∈ ts, ∀ t ∈ us, ∀ k, s.1.combine t.1 = .ok k →
      Coincide (·.All P) (lower k) (lower' k)) :
    Coincide (fun ps => ∀ p ∈ ps, p.All P) (timesTerms lower us ts) (timesTerms lower' us ts) := by
  induction ts with
  | nil => exact .answer fun _ member => absurd member List.not_mem_nil
  | cons t ts ih =>
    obtain ⟨m, c⟩ := t
    obtain ⟨head, tail⟩ := List.forall_mem_cons.mp each
    refine .bind (timesTerm_coincide head) fun row first => .bind (ih tail) fun ps rest => ?_
    exact .answer (List.forall_mem_append.mpr ⟨first, rest⟩)

/-- Products coincide if the reductions do on the products of terms, and what holds of
the reduced products of terms holds of all terms of the product. -/
theorem mulWith_coincide
    (each : ∀ s ∈ p.terms, ∀ t ∈ q.terms, ∀ k, s.1.combine t.1 = .ok k →
      Coincide (·.All P) (lower k) (lower' k)) :
    Coincide (·.All P) (mulWith lower p q) (mulWith lower' p q) := by
  refine .ite (fun _ => .refl trivial) fun _ => ?_
  refine .bind (timesTerms_coincide each) fun ps products => ?_
  exact .ite (fun _ => .refl trivial) fun _ => .answer (All.sum products)

theorem mulWith_yields
    (each : ∀ s ∈ p.terms, ∀ t ∈ q.terms, ∀ k, s.1.combine t.1 = .ok k →
      Yields (lower k) (·.All P)) : Yields (mulWith lower p q) (·.All P) :=
  (mulWith_coincide fun s first t second k combined =>
    .refl (each s first t second k combined)).yields

theorem shift_yields
    (each : ∀ t ∈ p.terms, ∀ k, t.1.combine m = .ok k → Yields k.reduce (·.All P)) :
    Yields (p.shift m) (·.All P) := by
  have products : ∀ ts : List (Monomial × Rat),
      (∀ t ∈ ts, ∀ k, t.1.combine m = .ok k → Yields k.reduce (·.All P)) →
      Yields (shiftTerms m ts) (fun ps => ∀ p ∈ ps, p.All P) := by
    intro ts each
    induction ts with
    | nil => exact fun _ member => absurd member List.not_mem_nil
    | cons t ts ih =>
      obtain ⟨n, d⟩ := t
      obtain ⟨head, tail⟩ := List.forall_mem_cons.mp each
      refine Yields.bind_ok fun k combined => .bind (head k combined) fun r reduced => ?_
      exact .bind (ih tail) fun ps rest => List.forall_mem_cons.mpr ⟨reduced.scale _, rest⟩
  exact .bind (products p.terms each) fun ps all => All.sum all

theorem All.conjugate (all : p.All P) (surd : Atom) : (p.conjugate surd).All P := by
  intro t member
  obtain ⟨u, old, rfl⟩ := List.mem_map.mp member
  exact all u old

/-! ## Classes -/

/-- A class of polynomials that the arithmetic of fractions does not leave. -/
structure Class (C : Poly → Prop) : Prop where
  constant : ∀ c, C (.constant c)
  add : ∀ {p q}, C p → C q → C (p.add q)
  scale : ∀ {p}, C p → ∀ c, C (p.scale c)
  mul : ∀ {p q}, C p → C q → Yields (p.mul q) C
  conjugator : ∀ {p a}, C p → p.firstSurd? = some a → C (Fraction.conjugator p a)
  common : ∀ {p q}, C p → C q → q.commonMonomial.isInvertible = true →
    Yields (p.shift q.commonMonomial.reciprocal) C
  single : ∀ {p m c}, C p → C ⟨[(m, c)]⟩ → m.isInvertible = true → Yields (p.shift m.reciprocal) C

end Poly

namespace Fraction

/-- Both sides belong to the class. -/
structure Belongs (C : Poly → Prop) (r : Fraction) : Prop where
  num : C r.num
  den : C r.den

end Fraction

namespace Poly.Class

open Fraction (Belongs)

variable {C : Poly → Prop} {p num den : Poly} {r s : Fraction}

section

variable (cls : Class C)

include cls

theorem zero : C .zero := cls.constant 0

theorem one : C .one := cls.constant 1

theorem ofPoly (member : C p) : Belongs C (.ofPoly p) := ⟨member, cls.one⟩

theorem pow (member : C p) (n : Nat) : Yields (p.pow n) C :=
  squaring_ensures (M := Unit) (fun (p : Poly) _ => C p) (fun _ _ _ _ left right => cls.mul left right)
    n (a := ()) (b := ()) cls.one member

theorem neg (belongs : Belongs C r) : Belongs C r.neg := by
  refine ⟨?_, belongs.den⟩
  rw [Fraction.neg, Poly.neg]
  dsimp only
  exact cls.scale belongs.num _

/-! ## The canonical form of a quotient -/

theorem rationalise (rounds : Nat) (top : C num) (bottom : C den) :
    Yields (Fraction.rationalise rounds num den) (fun q => C q.1 ∧ C q.2) := by
  induction rounds generalizing num den with
  | zero =>
    rw [Fraction.rationalise]
    split
    · exact ⟨top, bottom⟩
    · trivial
  | succ rounds ih =>
    rw [Fraction.rationalise]
    split
    · exact ⟨top, bottom⟩
    rename_i surd found
    have factor := cls.conjugator bottom found
    refine .bind (cls.mul top factor) fun num' top' => ?_
    refine .bind (cls.mul bottom factor) fun den' bottom' => ?_
    dsimp only
    split
    · trivial
    · exact ih top' bottom'

theorem cancelMonomial (top : C num) (bottom : C den) :
    Yields (Fraction.cancelMonomial num den) (fun q => C q.1 ∧ C q.2) := by
  unfold Fraction.cancelMonomial
  dsimp only
  split
  · exact ⟨top, bottom⟩
  · refine Yields.bind_ok fun k inverted => ?_
    obtain ⟨invertible, rfl⟩ := Monomial.inverse_eq_ok inverted
    exact .bind (cls.common top bottom invertible) fun num' top' =>
      .bind (cls.common bottom bottom invertible) fun den' bottom' => ⟨top', bottom'⟩

theorem monic (top : C num) (bottom : C den) : Belongs C (Fraction.monic num den) := by
  unfold Fraction.monic
  dsimp only
  split
  · split
    · exact cls.ofPoly (cls.constant _)
    · exact ⟨cls.scale top _, cls.scale bottom _⟩
  · exact ⟨cls.scale top _, cls.scale bottom _⟩

theorem make (top : C num) (bottom : C den) : Yields (Fraction.make num den) (Belongs C) := by
  cases ran : Fraction.make num den with
  | error e => trivial
  | ok r =>
    rcases Fraction.make_cases ran with ⟨-, rfl⟩ | ⟨-, q, q', first, second, last⟩
    · exact cls.ofPoly cls.zero
    obtain ⟨top, bottom⟩ := (cls.rationalise _ top bottom).of_ok first
    obtain ⟨top, bottom⟩ := (cls.cancelMonomial top bottom).of_ok second
    rcases last with ⟨m, c, p, single, invertible, shifted, rfl⟩ | ⟨-, rfl⟩
    · rw [Valuation.singleTerm_eq single] at bottom
      exact cls.ofPoly (cls.scale ((cls.single top bottom invertible).of_ok shifted) _)
    · exact cls.monic top bottom

/-! ## Arithmetic -/

theorem sumSides (left : Belongs C r) (right : Belongs C s) :
    Yields (Fraction.sumSides r s) (fun q => C q.1 ∧ C q.2) := by
  unfold Fraction.sumSides
  split
  · exact ⟨cls.add left.num right.num, left.den⟩
  · exact .bind (cls.mul left.num right.den) fun a first =>
      .bind (cls.mul right.num left.den) fun b second =>
      .bind (cls.mul left.den right.den) fun c third => ⟨cls.add first second, third⟩

theorem productSides (left : Belongs C r) (top : C num) (bottom : C den) :
    Yields (r.productSides num den) (fun q => C q.1 ∧ C q.2) :=
  .bind (cls.mul left.num top) fun _ first => .bind (cls.mul left.den bottom) fun _ second =>
    ⟨first, second⟩

theorem sum (left : Belongs C r) (right : Belongs C s) : Yields (r.add s) (Belongs C) := by
  rw [Fraction.add_eq_make]
  exact .bind (cls.sumSides left right) fun q sides => cls.make sides.1 sides.2

theorem product (left : Belongs C r) (right : Belongs C s) : Yields (r.mul s) (Belongs C) := by
  rw [Fraction.mul_eq_make]
  exact .bind (cls.productSides left right.num right.den) fun q sides => cls.make sides.1 sides.2

theorem reciprocal (belongs : Belongs C r) : Yields r.inverse (Belongs C) := by
  unfold Fraction.inverse
  split
  · trivial
  · exact cls.make belongs.den belongs.num

theorem quotient (left : Belongs C r) (right : Belongs C s) : Yields (r.div s) (Belongs C) := by
  rw [Fraction.div_eq_make]
  split
  · trivial
  · exact .bind (cls.productSides left right.den right.num) fun q sides =>
      cls.make sides.1 sides.2

theorem power (belongs : Belongs C r) (n : Int) (max : Nat) :
    Yields (r.powInt n max) (Belongs C) := by
  have run : ∀ b, Belongs C b → Yields (squaring Fraction.mul .one b n.natAbs) (Belongs C) :=
    fun b base => squaring_ensures (M := Unit) (fun r _ => Belongs C r)
      (fun r s _ _ left right => cls.product left right) n.natAbs (a := ()) (b := ())
      (cls.ofPoly cls.one) base
  unfold Fraction.powInt
  dsimp only
  split
  · trivial
  split
  · exact .bind (cls.reciprocal belongs) run
  · exact run r belongs

end

end Poly.Class

end Discharge
