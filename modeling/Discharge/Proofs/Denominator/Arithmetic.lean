import Discharge.Proofs.Denominator.Regular
import Discharge.Proofs.Elementary.Soundness

/-! Arithmetic, roots and rational powers give fractions whose denominators have
their shape, and that are regular as long as nothing is zero that was divided
by. An operation that takes its argument apart may rely on it, since what the
argument was divided by is not forgotten. -/

namespace Discharge

theorem Traced.make_keeps (used : List Poly) (num den : Poly) :
    Yields (make used num den) (fun t => used ⊆ t.divisors) := by
  unfold make
  cases Fraction.make num den with
  | error e => trivial
  | ok r => exact List.subset_append_left _ _

theorem Traced.add_keeps (r s : Traced) :
    Yields (r.add s) (fun t => r.divisors ⊆ t.divisors) := by
  refine Yields.bind_ok fun q _ => (make_keeps _ _ _).mono fun t kept => ?_
  exact List.Subset.trans (List.subset_append_left _ _) kept

namespace Valuation

variable {K : Type*} [Field K] [Algebra ℚ K] {v : Valuation K} {given more : Prop}
  {used : List Poly} {r s t : Traced} {num den p : Poly}

/-- The fraction is regular if what is given holds and none of its divisors is
zero. -/
def Safe (v : Valuation K) (given : Prop) (t : Traced) : Prop :=
  v.Complete → given → v.Clear t.divisors → v.Regular t.fraction

/-- The fraction is safe, and its denominator has its shape in any case. -/
structure Sane (v : Valuation K) (given : Prop) (t : Traced) : Prop where
  shaped : t.fraction.Shaped
  safe : v.Safe given t

theorem Safe.later (safe : v.Safe given t) : v.Safe (given ∧ more) t :=
  fun complete holds => safe complete holds.1

theorem Safe.neg (safe : v.Safe given t) : v.Safe given t.neg :=
  fun complete holds clear => (safe complete holds clear).neg

theorem sane_ofPoly (admitted : v.Complete → given → v.Clear used → v.AdmitsPoly p) :
    v.Sane given ⟨.ofPoly p, used⟩ :=
  ⟨.one rfl, fun complete holds clear => .of_poly (admitted complete holds clear)⟩

theorem sane_ofAtom {a : Atom} (known : v.Complete → given → v.Clear used → v.known a) :
    v.Sane given ⟨.ofAtom a, used⟩ :=
  sane_ofPoly fun complete holds clear => .ofAtom (known complete holds clear)

/-! ## Arithmetic -/

theorem make_sane (sides : v.Complete → given → v.Clear used →
      v.AdmitsPoly num ∧ v.AdmitsPoly den) :
    Yields (Traced.make used num den) (v.Sane given) := by
  unfold Traced.make
  cases ran : Fraction.make num den with
  | error e => trivial
  | ok r =>
    refine ⟨Fraction.make_shaped ran, fun complete holds clear => ?_⟩
    obtain ⟨before, now⟩ := Clear.append.mp clear
    obtain ⟨top, bottom⟩ := sides complete holds before
    exact complete.make_regular top bottom now ran

/-- Both operands of an operation are regular, the second one perhaps because
of the divisors of the first. -/
theorem Safe.both (left : v.Safe given r) (right : v.Safe (given ∧ v.Clear r.divisors) s)
    (complete : v.Complete) (holds : given) (clear : v.Clear (r.divisors ++ s.divisors)) :
    v.Regular r.fraction ∧ v.Regular s.fraction := by
  obtain ⟨first, second⟩ := Clear.append.mp clear
  exact ⟨left complete holds first, right complete ⟨holds, first⟩ second⟩

theorem add_sane (left : v.Safe given r) (right : v.Safe (given ∧ v.Clear r.divisors) s) :
    Yields (r.add s) (v.Sane given) := by
  refine Yields.bind_ok fun q ran => make_sane fun complete holds clear => ?_
  obtain ⟨first, second⟩ := left.both right complete holds clear
  have sides := sumSides_ensures complete.lawful first.denotes second.denotes
  exact ⟨(sides.of_ok ran).1.top, (sides.of_ok ran).1.bottom⟩

theorem sub_sane (left : v.Safe given r) (right : v.Safe (given ∧ v.Clear r.divisors) s) :
    Yields (r.sub s) (v.Sane given) :=
  add_sane left right.neg

theorem mul_sane (left : v.Safe given r) (right : v.Safe (given ∧ v.Clear r.divisors) s) :
    Yields (r.mul s) (v.Sane given) := by
  refine Yields.bind_ok fun q ran => make_sane fun complete holds clear => ?_
  obtain ⟨first, second⟩ := left.both right complete holds clear
  have sides := productSides_ensures complete.lawful first.denotes second.denotes.sides
  exact ⟨(sides.of_ok ran).1.top, (sides.of_ok ran).1.bottom⟩

theorem inverse_sane (safe : v.Safe given r) : Yields r.inverse (v.Sane given) := by
  unfold Traced.inverse
  split
  · trivial
  · refine make_sane fun complete holds clear => ?_
    have regular := safe complete holds clear
    exact ⟨regular.den, regular.num⟩

theorem div_sane (left : v.Safe given r) (right : v.Safe (given ∧ v.Clear r.divisors) s) :
    Yields (r.div s) (v.Sane given) := by
  unfold Traced.div
  split
  · trivial
  · refine Yields.bind_ok fun q ran => make_sane fun complete holds clear => ?_
    obtain ⟨first, second⟩ := left.both right complete holds clear
    have sides := productSides_ensures complete.lawful first.denotes second.denotes.reciprocal
    exact ⟨(sides.of_ok ran).1.top, (sides.of_ok ran).1.bottom⟩

theorem powInt_sane (safe : v.Safe given r) (n : Int) (max : Nat) :
    Yields (r.powInt n max) (v.Sane given) := by
  have power : ∀ b, v.Safe given b →
      Yields (squaring Traced.mul ⟨.one, b.divisors⟩ b n.natAbs) (v.Sane given) := by
    intro b base
    exact squaring_ensures_base (M := Unit) (fun t _ => v.Sane given t) (fun t _ => v.Safe given t)
      (fun r s _ _ left right => mul_sane left.safe right.later)
      (fun s _ base => (mul_sane base base.later).mono fun _ product => product.safe) n.natAbs
      (a := ()) (b := ()) (sane_ofPoly fun _ _ _ => .one) base
  unfold Traced.powInt
  dsimp only
  split
  · trivial
  split
  · exact .bind (inverse_sane safe) fun b base => power b base.safe
  · exact power r safe

/-! ## Roots and rational powers -/

section Radicals

variable {A : Type*} [CommRing A] [Algebra ℚ A] {w : Valuation A} {index : Nat}
  (roots : ∀ n : Nat, w.known (.root (.constant (n : Nat)) index))

include roots

theorem radicands_admitted (ns : List Nat) {fs : List (Atom × Int)} (start : w.Admits ⟨fs, .zero⟩) :
    w.Admits ⟨ns.foldl (fun fs r => Monomial.setCount (.root (.constant (r : Nat)) index) 1 fs) fs,
      .zero⟩ := by
  induction ns generalizing fs with
  | nil => exact start
  | cons n ns ih => exact ih (start.withAtom (roots n))

theorem positiveRadical_admitted (q : Rat) : w.AdmitsPoly (.positiveRadical q index) := by
  unfold Poly.positiveRadical Poly.integerRadical
  exact .scale (.term (radicands_admitted roots _ .one) _) _

theorem rationalRadical_admitted (lawful : w.Lawful) (imaginary : w.known .imaginary) (q : Rat) :
    Yields (Poly.rationalRadical q index) w.AdmitsPoly := by
  unfold Poly.rationalRadical
  split
  · exact .zero
  split
  · split
    · exact (mul_ensures lawful (positiveRadical_admitted roots _) (.ofAtom imaginary)).mono
        (fun _ final => final.1) |>.mono_error fun _ _ => trivial
    split
    · exact (positiveRadical_admitted roots _).neg
    · trivial
  · exact positiveRadical_admitted roots _

end Radicals

namespace Complete

variable (complete : v.Complete) {index : Nat}

include complete

theorem known_root (proper : 2 ≤ index) (fits : fitsInt64 index = true) (q : Rat) :
    v.known (.root (.constant q) index) :=
  (complete.root _ _).mpr ⟨proper, fits, .constant q⟩

theorem rationalRadical_admitted (proper : 2 ≤ index) (fits : fitsInt64 index = true) (q : Rat) :
    Yields (Poly.rationalRadical q index) v.AdmitsPoly :=
  Valuation.rationalRadical_admitted (fun n => complete.known_root proper fits n) complete.lawful
    complete.imaginary q

theorem pow_admitted (admitted : v.AdmitsPoly p) (n : Nat) : Yields (p.pow n) v.AdmitsPoly :=
  ((powWith_ensures (reduce_reduces complete.lawful) admitted n).mono
    fun _ final => final.1).mono_error fun _ _ => trivial

end Complete

variable {index max : Nat}

/-- The root of a radicand, with the root of its content in front. -/
theorem contentRoot_sane (proper : 2 ≤ index) (fits : given → fitsInt64 index = true)
    {lifted outside : Poly} (ran : Poly.rationalRadical lifted.content index = .ok outside)
    (radicand : v.Complete → given → v.Clear used → v.AdmitsPoly lifted) :
    Yields (Traced.mul ⟨.ofPoly outside, used⟩
        (.whole (.ofAtom (.root (lifted.scale lifted.content⁻¹) index))))
      (fun t => v.Sane given t ∧ used ⊆ t.divisors) := by
  have left : v.Sane given ⟨.ofPoly outside, used⟩ := sane_ofPoly fun complete holds _ =>
    (complete.rationalRadical_admitted proper (fits holds) _).of_ok ran
  have right : v.Sane (given ∧ v.Clear used)
      (.whole (.ofAtom (.root (lifted.scale lifted.content⁻¹) index))) :=
    sane_ofAtom fun complete holds _ => (complete.root _ _).mpr
      ⟨proper, fits holds.1, (radicand complete holds.1 holds.2).scale _⟩
  exact (mul_sane left.safe right.safe).and fun t ran => (Traced.mul_keeps _ _).of_ok ran

theorem root_sane (sane : v.Sane given r) (fits : given → fitsInt64 index = true) :
    Yields (r.root index) (v.Sane given) := by
  unfold Traced.root
  dsimp only
  split
  · trivial
  split
  · exact sane
  have proper : 2 ≤ index := by omega
  split
  · refine Yields.bind_ok fun p ran => sane_ofPoly fun complete holds _ => ?_
    exact (complete.rationalRadical_admitted proper (fits holds) _).of_ok ran
  split
  · refine Yields.bind_ok fun lifted same => Yields.bind_ok fun outside ran => ?_
    cases same
    have radicand : v.Complete → given → v.Clear r.divisors → v.AdmitsPoly r.fraction.num :=
      fun complete holds clear => (sane.safe complete holds clear).num
    exact .bind (contentRoot_sane proper fits ran radicand) fun t root => root.1
  · -- The denominator is moved into the radicand and divided by afterwards.
    refine Yields.bind_ok fun below raised => Yields.bind_ok fun lifted ran =>
      Yields.bind_ok fun outside ran' => ?_
    have radicand : v.Complete → given → v.Clear r.divisors → v.AdmitsPoly lifted := by
      intro complete holds clear
      have regular := sane.safe complete holds clear
      exact ((mul_ensures complete.lawful regular.num
        ((complete.pow_admitted regular.den _).of_ok raised)).of_ok ran).1
    refine .bind (contentRoot_sane proper fits ran' radicand) ?_
    rintro t ⟨root, kept⟩
    exact div_sane root.safe (sane_ofPoly fun complete holds _ =>
      (sane.safe complete holds.1 (holds.2.mono kept)).den).safe

theorem powRat_sane (sane : v.Sane given r) (q : Rat) (fits : given → fitsInt64 max = true) :
    Yields (r.powRat q max) (v.Sane given) := by
  unfold Traced.powRat
  dsimp only
  split
  · split
    · trivial
    · exact powInt_sane sane.safe _ _
  split
  · trivial
  rename_i bounded
  split
  · trivial
  split
  · trivial
  have index : given → fitsInt64 (q - q.floor).den = true := by
    intro holds
    have fits := fits holds
    rw [Monomial.fitsInt64_iff] at fits ⊢
    omega
  refine .bind (root_sane sane index) fun t root => ?_
  refine .bind (powInt_sane root.safe _ _) fun fractional part => ?_
  refine .bind (powInt_sane sane.safe _ _) fun power whole => ?_
  exact mul_sane part.safe whole.safe.later

end Valuation

end Discharge
