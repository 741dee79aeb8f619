import Mathlib
import Discharge.Proofs.Canonical.Functions
import Discharge.Proofs.Canonical.Units
import Discharge.Proofs.Formal.Adjunction
import Discharge.Proofs.Normal.Uniqueness

/-! Formal values of canonical forms. Different canonical monomials in which no
adjoined root has a negative exponent have linearly independent values: the powers
of roots of the system, of i, of the other atoms and of adjoined roots are
determined by the value, and so is the exponential. So canonical forms are
determined by their values. Arithmetic computes with these values as long as no
other roots occur among the factors, and no angle in an exponent; what is inside
exponents besides, or inside of other atoms, does not matter. -/

namespace Discharge

open Monomial (Increasing exponentIn)
open Radical (radicals)

/-! ## Roots of canonical forms -/

/-- All roots among the factors are of the system, and the exponent has no angle. -/
def Monomial.Tame (R : Set (ℕ × ℕ)) (m : Monomial) : Prop :=
  (∀ f ∈ m.factors, f.1.RootIn R) ∧ m.exp.All (· ≠ .halfTurn)

/-- All roots among the factors are of the system or adjoined, the exponent has no
angle, and no adjoined root has a negative exponent, also in the exponent. -/
structure Monomial.RootsIn (R : Set (ℕ × ℕ)) (S : Finset Atom) (m : Monomial) : Prop where
  roots : ∀ f ∈ m.factors, f.1.RootIn R ∨ f.1 ∈ S ∧ 0 ≤ f.2
  angles : m.exp.All (· ≠ .halfTurn)
  inside : m.exp.Every (Nonnegative S)

/-- All roots among the factors are of the system or adjoined; the denominator has
no adjoined ones, and is not zero. -/
structure Fraction.RootsIn (R : Set (ℕ × ℕ)) (S : Finset Atom) (r : Fraction) : Prop where
  num : r.num.All (Monomial.RootsIn R S)
  den : r.den.All fun m => m.Tame R ∧ m.exp.Every (Nonnegative S)
  proper : r.den.isZero = false

namespace Poly

variable {R : Set (ℕ × ℕ)} {S : Finset Atom} {a : Atom}

theorem rootsIn_ofAtom (inside : a.RootIn R ∨ a ∈ S) :
    (ofAtom a).All (Monomial.RootsIn R S) := by
  intro t member
  rw [List.mem_singleton.mp member]
  refine ⟨fun f factor => ?_, .zero, every_zero⟩
  rw [List.mem_singleton.mp factor]
  exact inside.imp_right fun adjoined => ⟨adjoined, Int.one_nonneg⟩

theorem rootsIn_constant (c : Rat) : (constant c).All (Monomial.RootsIn R S) :=
  .term ⟨fun _ factor => absurd factor List.not_mem_nil, .zero, every_zero⟩ c

theorem tame_constant (c : Rat) :
    (constant c).All fun m => m.Tame R ∧ m.exp.Every (Nonnegative S) :=
  .term ⟨⟨fun _ factor => absurd factor List.not_mem_nil, .zero⟩, every_zero⟩ c

end Poly

/-- Roots that can be adjoined: none of them is of the system, and all roots that
occur in a radicand are of the system or adjoined as well. -/
structure Adjoinable (R : Set (ℕ × ℕ)) (S : Finset Atom) : Prop where
  proper : ∀ a ∈ S, ∃ p k, a = .root p k ∧ 2 ≤ k
  outside : ∀ a ∈ S, ¬ a.RootIn R
  radicand : ∀ p k, .root p k ∈ S → p.All (Monomial.RootsIn R S)

/-- There is a ring with all roots that can be adjoined. -/
theorem Adjoinable.exists_rooted {R : Set (ℕ × ℕ)} {S : Finset Atom}
    (adjoinable : Adjoinable R S) (max : Nat) :
    ∃ (A : Type) (_ : CommRing A) (_ : Algebra ℚ A) (_ : Algebra Formal A)
      (E : Formal.Adjunction S A), E.Rooted R max := by
  refine Formal.Adjunction.exists_rooted R max S fun a member => ?_
  obtain ⟨p, k, rfl, proper⟩ := adjoinable.proper a member
  refine ⟨p, k, rfl, by omega, Poly.every_iff.mpr fun t term => ?_⟩
  have inside := adjoinable.radicand p k member t term
  refine Monomial.every_iff.mpr ⟨fun f factor adjoined => ?_, inside.inside⟩
  exact ((inside.roots f factor).resolve_left (adjoinable.outside _ adjoined)).2

namespace Formal

variable {R : Set (ℕ × ℕ)} {S : Finset Atom} {max : Nat} {fs : List (Atom × Int)} {m n : Monomial}

/-! ## Values -/

/-- The atom stands for itself. -/
def Generator (R : Set (ℕ × ℕ)) (S : Finset Atom) (a : Atom) : Prop :=
  a ∉ S ∧ a ≠ .imaginary ∧ ∀ p k, a = .root p k → ¬ a.RootIn R

/-- An atom is adjoined, or i, or the root of a number of the system, or a generator. -/
theorem atom_cases (R : Set (ℕ × ℕ)) (S : Finset Atom) (a : Atom) : a ∈ S ∨ a = .imaginary ∨
    (∃ b ∈ R, a = .root (.constant ((b.1 : ℕ) : ℚ)) b.2) ∨ Generator R S a := by
  by_cases adjoined : a ∈ S
  · exact .inl adjoined
  cases a with
  | imaginary => exact .inr (.inl rfl)
  | root p k =>
    by_cases number : (Atom.root p k).RootIn R
    · obtain ⟨n, rfl, member⟩ := number
      exact .inr (.inr (.inl ⟨(n, k), member, rfl⟩))
    · exact .inr (.inr (.inr ⟨adjoined, nofun, fun _ _ _ => number⟩))
  | _ => exact .inr (.inr (.inr ⟨adjoined, nofun, nofun⟩))

theorem atomValue_root {b : ℕ × ℕ} (member : b ∈ R) :
    atomValue R (.root (.constant ((b.1 : ℕ) : ℚ)) b.2) =
      algebraMap ℂ Formal (Radical.value b : ℝ) := by
  rw [atomValue, if_pos ⟨b.1, rfl, member⟩, Radical.radicand_constant]

theorem atomValue_generator {a : Atom} (generator : Generator R S a) :
    atomValue R a = product (.single a 1, 0) := by
  cases a with
  | imaginary => exact absurd rfl generator.2.1
  | root p k => rw [atomValue, if_neg (generator.2.2 p k rfl)]
  | _ => rfl

theorem atomValue_ne_zero (system : Radical.Independent R) {a : Atom} (known : a.RootIn R) :
    atomValue R a ≠ 0 := by
  rcases atom_cases R ∅ a with impossible | rfl | ⟨b, inside, rfl⟩ | generator
  · exact absurd impossible (Finset.notMem_empty a)
  · exact (map_ne_zero _).mpr Complex.I_ne_zero
  · rw [atomValue_root inside]
    exact (map_ne_zero _).mpr
      (Complex.ofReal_ne_zero.mpr (Radical.value_pos (system.positive b inside)).ne')
  · rw [atomValue_generator generator]
    exact product_ne_zero _

theorem Adjunction.value_of_root {A : Type} [CommRing A] [Algebra ℚ A] [Algebra Formal A]
    (E : Adjunction S A) (adjoinable : Adjoinable R S) {a : Atom} (root : a.RootIn R) :
    E.value R a = algebraMap Formal A (atomValue R a) :=
  if_neg fun member => adjoinable.outside a member root

/-! ## Exponents of numbers, generators and adjoined roots -/

open Classical in
/-- The exponents of the generators. -/
noncomputable def generators (R : Set (ℕ × ℕ)) (S : Finset Atom) : List (Atom × Int) → Atom →₀ ℤ
  | [] => 0
  | (a, n) :: fs =>
    if Generator R S a then .single a n + generators R S fs else generators R S fs

/-- The exponents of the adjoined roots, which are not negative. -/
noncomputable def adjoined (S : Finset Atom) : List (Atom × Int) → Atom →₀ ℕ
  | [] => 0
  | (a, n) :: fs => if a ∈ S then .single a n.toNat + adjoined S fs else adjoined S fs

open Classical in
/-- The exponents of the numbers. -/
noncomputable def numbers (R : Set (ℕ × ℕ)) : List (Atom × Int) → ℕ × ℕ →₀ ℤ
  | [] => 0
  | (.root p k, n) :: fs =>
    if (Atom.root p k).RootIn R then .single (Radical.radicand p, k) n + numbers R fs
    else numbers R fs
  | _ :: fs => numbers R fs

theorem numbers_root {b : ℕ × ℕ} (member : b ∈ R) (n : Int) :
    numbers R ((.root (.constant ((b.1 : ℕ) : ℚ)) b.2, n) :: fs) = .single b n + numbers R fs := by
  rw [numbers, if_pos ⟨b.1, rfl, member⟩, Radical.radicand_constant]

/-- Only roots of the system are numbers besides i. -/
theorem numbers_other {a : Atom} (other : ∀ p k, a = .root p k → ¬ a.RootIn R) (n : Int) :
    numbers R ((a, n) :: fs) = numbers R fs := by
  cases a with
  | root p k => rw [numbers, if_neg (other p k rfl)]
  | _ => rfl

theorem generators_generator {a : Atom} (generator : Generator R S a) (n : Int) :
    generators R S ((a, n) :: fs) = .single a n + generators R S fs := if_pos generator

theorem generators_other {a : Atom} (other : ¬ Generator R S a) (n : Int) :
    generators R S ((a, n) :: fs) = generators R S fs := if_neg other

theorem adjoined_member {a : Atom} (member : a ∈ S) (n : Int) :
    adjoined S ((a, n) :: fs) = .single a n.toNat + adjoined S fs := if_pos member

theorem adjoined_other {a : Atom} (other : a ∉ S) (n : Int) :
    adjoined S ((a, n) :: fs) = adjoined S fs := if_neg other

theorem not_generator_root {b : ℕ × ℕ} (member : b ∈ R) :
    ¬ Generator R S (.root (.constant ((b.1 : ℕ) : ℚ)) b.2) :=
  fun generator => generator.2.2 _ _ rfl ⟨b.1, rfl, member⟩

theorem root_injective {b c : ℕ × ℕ}
    (same : Atom.root (.constant ((b.1 : ℕ) : ℚ)) b.2 = .root (.constant ((c.1 : ℕ) : ℚ)) c.2) :
    b = c := by
  obtain ⟨radicands, indices⟩ := Atom.root.inj same
  refine Prod.ext ?_ indices
  have radicands := congrArg Radical.radicand radicands
  rwa [Radical.radicand_constant, Radical.radicand_constant] at radicands

theorem generators_apply (increasing : Increasing fs) {a : Atom} (generator : Generator R S a) :
    generators R S fs a = exponentIn fs a := by
  induction fs with
  | nil => simp [generators]
  | cons f fs ih =>
    obtain ⟨b, n⟩ := f
    obtain ⟨behind, rest⟩ := Monomial.increasing_cons.mp increasing
    rw [Monomial.exponentIn_cons, generators]
    split
    · rw [Finsupp.add_apply, ih rest]
      by_cases same : a = b
      · subst same
        rw [if_pos rfl, Finsupp.single_eq_same, Monomial.exponentIn_of_behind behind, add_zero]
      · rw [if_neg same, Finsupp.single_eq_of_ne same, zero_add]
    · rename_i other
      rw [if_neg, ih rest]
      rintro rfl
      exact other generator

theorem adjoined_apply (increasing : Increasing fs) (nonneg : ∀ f ∈ fs, Nonnegative S f) {a : Atom}
    (member : a ∈ S) : (adjoined S fs a : ℤ) = exponentIn fs a := by
  induction fs with
  | nil => simp [adjoined]
  | cons f fs ih =>
    obtain ⟨b, n⟩ := f
    obtain ⟨behind, rest⟩ := Monomial.increasing_cons.mp increasing
    obtain ⟨head, tail⟩ := List.forall_mem_cons.mp nonneg
    rw [Monomial.exponentIn_cons, adjoined]
    split
    · rename_i inside
      rw [Finsupp.add_apply, Nat.cast_add, ih rest tail]
      by_cases same : a = b
      · subst same
        rw [if_pos rfl, Finsupp.single_eq_same, Monomial.exponentIn_of_behind behind, add_zero]
        exact Int.toNat_of_nonneg (head inside)
      · rw [if_neg same, Finsupp.single_eq_of_ne same, Nat.cast_zero, zero_add]
    · rename_i other
      rw [if_neg, ih rest tail]
      rintro rfl
      exact other member

theorem adjoined_support (a : Atom) (occurs : a ∈ (adjoined S fs).support) : a ∈ S := by
  induction fs with
  | nil => exact absurd occurs (by simp [adjoined])
  | cons f fs ih =>
    obtain ⟨b, n⟩ := f
    rw [adjoined] at occurs
    split at occurs
    · rename_i inside
      rcases Finset.mem_union.mp (Finsupp.support_add occurs) with first | second
      · rw [Finset.mem_singleton.mp (Finsupp.support_single_subset first)]
        exact inside
      · exact ih second
    · exact ih occurs

theorem numbers_support (b : ℕ × ℕ) (occurs : b ∈ (numbers R fs).support) : b ∈ R := by
  induction fs with
  | nil => exact absurd occurs (by simp [numbers])
  | cons f fs ih =>
    obtain ⟨a, n⟩ := f
    by_cases root : ∀ p k, a = .root p k → ¬ a.RootIn R
    · rw [numbers_other root] at occurs
      exact ih occurs
    · push Not at root
      obtain ⟨p, k, rfl, r, rfl, inside⟩ := root
      rw [numbers_root (b := (r, k)) inside] at occurs
      rcases Finset.mem_union.mp (Finsupp.support_add occurs) with first | second
      · rw [Finset.mem_singleton.mp (Finsupp.support_single_subset first)]
        exact inside
      · exact ih second

theorem numbers_apply (increasing : Increasing fs) {b : ℕ × ℕ} (member : b ∈ R) :
    numbers R fs b = exponentIn fs (.root (.constant ((b.1 : ℕ) : ℚ)) b.2) := by
  induction fs with
  | nil => simp [numbers]
  | cons f fs ih =>
    obtain ⟨a, n⟩ := f
    obtain ⟨behind, rest⟩ := Monomial.increasing_cons.mp increasing
    rw [Monomial.exponentIn_cons]
    by_cases root : ∀ p k, a = .root p k → ¬ a.RootIn R
    · rw [numbers_other root, ih rest, if_neg]
      rintro rfl
      exact root _ _ rfl ⟨b.1, rfl, member⟩
    · push Not at root
      obtain ⟨p, k, rfl, r, rfl, inside⟩ := root
      rw [numbers_root (b := (r, k)) inside, Finsupp.add_apply, ih rest]
      by_cases same : b = (r, k)
      · subst same
        rw [if_pos rfl, Finsupp.single_eq_same, Monomial.exponentIn_of_behind behind, add_zero]
      · rw [if_neg fun equal => same (root_injective (c := (r, k)) equal),
          Finsupp.single_eq_of_ne same, zero_add]

/-- The exponents of settled factors are reduced. -/
theorem numbers_reduced (system : Radical.Independent R) (increasing : Increasing fs)
    (settled : ∀ f ∈ fs, Monomial.SettledFactor f) : Radical.Reduced R (numbers R fs) := by
  intro b occurs
  have inside := numbers_support b occurs
  rw [Finsupp.mem_support_iff, numbers_apply increasing inside] at occurs
  rw [numbers_apply increasing inside]
  exact ⟨inside, settled _ (Monomial.mem_of_exponentIn occurs) _ _ _ rfl
    (Poly.constant?_constant _) (system.proper b inside)⟩

/-! ## Values of monomials -/

/-- The power of i among the factors. -/
def turns (fs : List (Atom × Int)) : Fin 2 := if exponentIn fs .imaginary = 0 then 0 else 1

/-- The numbers among the factors. -/
noncomputable def number (x : (ℕ × ℕ →₀ ℤ) × Fin 2) : ℂ :=
  Radical.product x.1 • Complex.basisOneI x.2

/-- The element of the field that exponents stand for. -/
noncomputable def family (x : ((ℕ × ℕ →₀ ℤ) × Fin 2) × (Atom →₀ ℤ) × Exponent) : Formal :=
  number x.1 • product x.2

/-- The value of the factors that are not adjoined. -/
noncomputable def coefficient (R : Set (ℕ × ℕ)) (S : Finset Atom) (fs : List (Atom × Int)) :
    Formal :=
  (Complex.I ^ exponentIn fs .imaginary * (Radical.product (numbers R fs) : ℝ)) •
    product (generators R S fs, 0)

theorem coefficient_nil : coefficient R S [] = 1 := by
  change _ • product 0 = _
  simp [numbers, Radical.product]

theorem coefficient_adjoined (adjoinable : Adjoinable R S) {a : Atom} (member : a ∈ S) (n : Int) :
    coefficient R S ((a, n) :: fs) = coefficient R S fs := by
  have outside := adjoinable.outside a member
  have plain : Atom.imaginary ≠ a := by
    rintro rfl
    exact outside trivial
  rw [coefficient, coefficient, Monomial.exponentIn_cons, if_neg plain,
    numbers_other (fun _ _ _ => outside), generators_other fun generator => generator.1 member]

theorem coefficient_other (system : Radical.Independent R) {a : Atom}
    (behind : Monomial.Behind a fs) (other : a ∉ S) (n : Int) :
    coefficient R S ((a, n) :: fs) = atomValue R a ^ n * coefficient R S fs := by
  rw [coefficient, coefficient, Monomial.exponentIn_cons]
  rcases atom_cases R S a with member | rfl | ⟨b, inside, rfl⟩ | generator
  · exact absurd member other
  · rw [if_pos rfl, Monomial.exponentIn_of_behind behind, atomValue, ← map_zpow₀,
      ← Algebra.smul_def, smul_smul, zpow_zero, one_mul,
      generators_other fun generator => generator.2.1 rfl]
    rfl
  · have others : ∀ c ∈ (numbers R fs).support, 0 < c.1 := fun c occurs =>
      system.positive c (numbers_support c occurs)
    rw [if_neg nofun, numbers_root inside, generators_other (not_generator_root inside),
      Radical.product_single_add (system.positive b inside) n others, atomValue_root inside,
      ← map_zpow₀, ← Algebra.smul_def, smul_smul]
    congr 1
    push_cast
    ring
  · rw [generators_generator generator, if_neg generator.2.1.symm, numbers_other generator.2.2,
      atomValue_generator generator, ← product_zsmul, mul_smul_comm, ← product_add]
    simp

/-- The exponents of a monomial: of numbers and i, of generators and the
exponential, and of adjoined roots. -/
abbrev Index : Type :=
  (((ℕ × ℕ →₀ ℤ) × Fin 2) × (Atom →₀ ℤ) × Exponent) × (Atom →₀ ℕ)

/-- The numbers are reduced, and the adjoined roots below their indices. -/
def Proper (R : Set (ℕ × ℕ)) (S : Finset Atom) (x : Index) : Prop :=
  Radical.Reduced R x.1.1.1 ∧ Below S x.2

namespace Adjunction

variable {A : Type} [CommRing A] [Algebra ℚ A] [Algebra Formal A] (E : Adjunction S A)

/-- A product of powers of adjoined roots. -/
noncomputable def power (e : Atom →₀ ℕ) : A := e.prod fun a n => E.root a ^ n

@[simp] theorem power_zero : E.power 0 = 1 := Finsupp.prod_zero_index

theorem power_single_add (a : Atom) (n : ℕ) (e : Atom →₀ ℕ) :
    E.power (.single a n + e) = E.root a ^ n * E.power e := by
  have sum := Finsupp.prod_add_index' (f := Finsupp.single a n) (g := e)
    (h := fun b l => E.root b ^ l) (fun _ => pow_zero _) fun _ => pow_add _
  rw [power, sum, Finsupp.prod_single_index (h := fun b l => E.root b ^ l) (pow_zero _), power]

/-- The value that exponents stand for. -/
noncomputable def family (x : Index) : A := Formal.family x.1 • E.power x.2

/-- Different numbers times different products times different powers of adjoined
roots are linearly independent. -/
theorem family_linearIndepOn (system : Radical.Independent R) :
    LinearIndepOn ℚ E.family { x | Proper R S x } := by
  have numbers := linearIndependent_smul system.linearIndependent
    Complex.basisOneI.linearIndependent
  have independent := linearIndependent_smul
    (linearIndependent_smul numbers product_linearIndependent) E.independent
  let split : { x : Index | Proper R S x } →
      (({ e // Radical.Reduced R e } × Fin 2) × (Atom →₀ ℤ) × Exponent) × { e // Below S e } :=
    fun x => (((⟨x.1.1.1.1, x.2.1⟩, x.1.1.1.2), x.1.1.2), ⟨x.1.2, x.2.2⟩)
  have injective : Function.Injective split := by
    intro x y same
    have first := congrArg (fun z => z.1.1.1.1) same
    have second := congrArg (fun z => z.1.1.2) same
    have third := congrArg (fun z => z.1.2) same
    have fourth := congrArg (fun z => z.2.1) same
    exact Subtype.ext (Prod.ext (Prod.ext (Prod.ext first second) third) fourth)
  exact independent.comp split injective

/-- The value of the factors. -/
theorem factors_eq (system : Radical.Independent R) (adjoinable : Adjoinable R S)
    (increasing : Increasing fs) (nonneg : ∀ f ∈ fs, Nonnegative S f) :
    (E.valuation R max).factors fs = coefficient R S fs • E.power (adjoined S fs) := by
  induction fs with
  | nil => rw [Valuation.factors_nil, coefficient_nil, adjoined, power_zero, one_smul]
  | cons f fs ih =>
    obtain ⟨a, n⟩ := f
    obtain ⟨behind, rest⟩ := Monomial.increasing_cons.mp increasing
    obtain ⟨head, tail⟩ := List.forall_mem_cons.mp nonneg
    rw [Valuation.factors_cons, ih rest tail]
    change intPower (E.value R a) n * _ = _
    by_cases member : a ∈ S
    · rw [coefficient_adjoined adjoinable member, adjoined_member member, power_single_add, value,
        if_pos member, intPower_of_nonneg (head member), mul_smul_comm]
    · rw [coefficient_other system behind member, adjoined_other member, value, if_neg member,
        intPower_algebraMap, ← Algebra.smul_def, smul_smul]

/-! ## Independence -/

/-- The exponents of a monomial. -/
noncomputable def index (R : Set (ℕ × ℕ)) (max : Nat) (m : Monomial) : Index :=
  (((numbers R m.factors, turns m.factors),
    (generators R S m.factors, E.exponent ((E.valuation R max).poly m.exp))),
    adjoined S m.factors)

end Adjunction

/-- What is known of the factors and the exponent of a canonical monomial. -/
theorem canonical_parts (canonical : m.Canonical max) :
    (Vocabulary.canonical max).valuation.Admits m ∧ m.Irreducible :=
  Vocabulary.canonical_monomial.mp canonical

theorem turns_cases (canonical : m.Canonical max) :
    exponentIn m.factors .imaginary = 0 ∧ turns m.factors = 0 ∨
      exponentIn m.factors .imaginary = 1 ∧ turns m.factors = 1 := by
  by_cases none : exponentIn m.factors .imaginary = 0
  · exact .inl ⟨none, if_pos none⟩
  · refine .inr ⟨?_, if_neg none⟩
    have settled := (canonical_parts canonical).2.settled _ (Monomial.mem_of_exponentIn none)
    exact (Monomial.settled_imaginary settled).resolve_left none

theorem sizeOf_lt_of_mem_exp {t : Monomial × Rat} (member : t ∈ m.exp.terms) :
    sizeOf t.1 < sizeOf m := by
  obtain ⟨fs, ⟨ts⟩⟩ := m
  obtain ⟨n, c⟩ := t
  have smaller : sizeOf (n, c) < sizeOf ts := List.sizeOf_lt_of_mem member
  simp only [Monomial.mk.sizeOf_spec, Poly.mk.sizeOf_spec, Prod.mk.sizeOf_spec] at smaller ⊢
  omega

/-- Exponents of a canonical monomial lie below the index. -/
theorem below_of_canonical (canonical : m.Canonical max) {p : Poly} {k : ℕ} {n : Int}
    (member : (.root p k, n) ∈ m.factors) : n < k := by
  obtain ⟨admitted, irreducible⟩ := canonical_parts canonical
  have known := (admitted.factor _ member).known
  cases number : p.constant? with
  | some c =>
    have index : 2 ≤ k := Vocabulary.index_of_canonical known p k rfl
    exact (Monomial.settled_root number index (irreducible.settled _ member)).2
  | none =>
    have below := irreducible.below _ member
    by_contra above
    rw [Monomial.excess?, number, if_pos ⟨rfl, not_lt.mp above⟩] at below
    cases below

namespace Adjunction

variable {A : Type} [CommRing A] [Algebra ℚ A] [Algebra Formal A] (E : Adjunction S A)

theorem monomial_eq_family (system : Radical.Independent R) (adjoinable : Adjoinable R S)
    (canonical : m.Canonical max) (nonneg : ∀ f ∈ m.factors, Nonnegative S f) :
    (E.valuation R max).monomial m = E.family (E.index R max m) := by
  have turned : Complex.I ^ exponentIn m.factors .imaginary =
      Complex.basisOneI (turns m.factors) := by
    rcases turns_cases canonical with ⟨count, same⟩ | ⟨count, same⟩ <;> simp [count, same]
  have exponential : (E.valuation R max).exp ((E.valuation R max).poly m.exp) =
      algebraMap Formal A (product (0, E.exponent ((E.valuation R max).poly m.exp))) := rfl
  rw [Valuation.monomial_eq,
    E.factors_eq system adjoinable (canonical_parts canonical).1.increasing nonneg, exponential,
    mul_comm, ← Algebra.smul_def, smul_smul, coefficient, turned, mul_smul_comm, ← product_add,
    Prod.mk_add_mk, add_zero, zero_add, family, Formal.family, number, mul_comm]
  rfl

theorem index_proper (system : Radical.Independent R) (canonical : m.Canonical max)
    (nonneg : ∀ f ∈ m.factors, Nonnegative S f) : Proper R S (E.index R max m) := by
  obtain ⟨admitted, irreducible⟩ := canonical_parts canonical
  refine ⟨numbers_reduced system admitted.increasing ?_, fun a occurs => ?_⟩
  · rintro ⟨a, n⟩ member p k c rfl constant index
    have settled := Monomial.settled_root constant index (irreducible.settled _ member)
    exact ⟨lt_of_le_of_ne settled.1 (irreducible.nonzero _ member).symm, settled.2⟩
  · have inside := adjoined_support a occurs
    refine ⟨inside, fun p k same => ?_⟩
    have count := adjoined_apply admitted.increasing nonneg inside
    have present : exponentIn m.factors a ≠ 0 := by
      rw [← count]
      exact Int.natCast_ne_zero.mpr (Finsupp.mem_support_iff.mp occurs)
    have member := Monomial.mem_of_exponentIn present
    rw [same] at member
    have below := below_of_canonical canonical member
    rw [← same, ← count] at below
    exact Int.ofNat_lt.mp below

/-- The factors of a monomial are determined by its exponents. -/
theorem factors_eq_of_index (left : m.Canonical max) (right : n.Canonical max)
    (nonneg : ∀ f ∈ m.factors, Nonnegative S f) (nonneg' : ∀ f ∈ n.factors, Nonnegative S f)
    (same : E.index R max m = E.index R max n) : m.factors = n.factors := by
  obtain ⟨first, -⟩ := canonical_parts left
  obtain ⟨second, -⟩ := canonical_parts right
  refine Valuation.factors_eq_of_counts first second fun a _ => ?_
  rw [Monomial.count_eq, Monomial.count_eq]
  rcases atom_cases R S a with member | rfl | ⟨b, inside, rfl⟩ | generator
  · rw [← adjoined_apply first.increasing nonneg member,
      ← adjoined_apply second.increasing nonneg' member]
    exact congrArg (fun x => ((x.2 a : ℕ) : ℤ)) same
  · have turned : turns m.factors = turns n.factors := congrArg (fun x => x.1.1.2) same
    rcases turns_cases left with ⟨count, zero⟩ | ⟨count, one⟩ <;>
      rcases turns_cases right with ⟨count', zero'⟩ | ⟨count', one'⟩ <;> simp_all
  · rw [← numbers_apply first.increasing inside, ← numbers_apply second.increasing inside]
    exact congrArg (fun x => x.1.1.1 b) same
  · rw [← generators_apply first.increasing generator,
      ← generators_apply second.increasing generator]
    exact congrArg (fun x => x.1.2.1 a) same

/-- Where monomials are determined by their exponents, they are independent. -/
theorem independent_of_injOn (system : Radical.Independent R) (adjoinable : Adjoinable R S)
    {T : Set Monomial} (canonical : ∀ m ∈ T, m.Canonical max)
    (nonneg : ∀ m ∈ T, ∀ f ∈ m.factors, Nonnegative S f)
    (injective : Set.InjOn (E.index R max) T) :
    LinearIndepOn ℚ (E.valuation R max).monomial T := by
  let exponents : T → { x : Index | Proper R S x } := fun m =>
    ⟨E.index R max m.1, E.index_proper system (canonical m.1 m.2) (nonneg m.1 m.2)⟩
  have distinct : Function.Injective exponents := fun m n same =>
    Subtype.ext (injective m.2 n.2 (congrArg Subtype.val same))
  have independent := LinearIndependent.comp (E.family_linearIndepOn system) exponents distinct
  have values : (fun m : T => (E.valuation R max).monomial m.1) =
      fun m => E.family (E.index R max m.1) := funext fun m =>
    E.monomial_eq_family system adjoinable (canonical m.1 m.2) (nonneg m.1 m.2)
  rw [LinearIndepOn, values]
  exact independent

/-- Monomials are determined by their exponents.  The induction is on their size:
exponents are made of smaller monomials, and so are determined by their values. -/
theorem index_injOn (system : Radical.Independent R) (adjoinable : Adjoinable R S) :
    Set.InjOn (E.index R max) { m | m.Canonical max ∧ m.Every (Nonnegative S) } := by
  have bounded (N : ℕ) : Set.InjOn (E.index R max)
      { m | (m.Canonical max ∧ m.Every (Nonnegative S)) ∧ sizeOf m < N } := by
    induction N with
    | zero => exact fun m small => absurd small.2 (Nat.not_lt_zero _)
    | succ N ih =>
      have independent := E.independent_of_injOn system adjoinable (fun m member => member.1.1)
        (fun m member => (Monomial.every_iff.mp member.1.2).1) ih
      have smaller : ∀ {m : Monomial},
          (m.Canonical max ∧ m.Every (Nonnegative S)) ∧ sizeOf m < N + 1 →
          m.exp.All fun k => (k.Canonical max ∧ k.Every (Nonnegative S)) ∧ sizeOf k < N := by
        intro m small t member
        have below := sizeOf_lt_of_mem_exp member
        have inside := Poly.every_iff.mp (Monomial.every_iff.mp small.1.2).2
        exact ⟨⟨(canonical_parts small.1.1).1.inner t member, inside t member⟩, by omega⟩
      intro m left n right same
      have factors := E.factors_eq_of_index left.1.1 right.1.1
        (Monomial.every_iff.mp left.1.2).1 (Monomial.every_iff.mp right.1.2).1 same
      have exponents : m.exp = n.exp :=
        Valuation.poly_injective independent (canonical_parts left.1.1).1.exponent
          (canonical_parts right.1.1).1.exponent (smaller left) (smaller right)
          (E.injective (congrArg (fun x => x.1.2.2) same))
      obtain ⟨fs, e⟩ := m
      obtain ⟨gs, f⟩ := n
      obtain rfl : fs = gs := factors
      exact congrArg (Monomial.mk fs) exponents
  intro m left n right same
  have first : sizeOf m < sizeOf m + sizeOf n + 1 := by omega
  have second : sizeOf n < sizeOf m + sizeOf n + 1 := by omega
  exact bounded _ ⟨left, first⟩ ⟨right, second⟩ same

/-- Canonical monomials are linearly independent. -/
theorem monomial_linearIndepOn (system : Radical.Independent R) (adjoinable : Adjoinable R S) :
    LinearIndepOn ℚ (E.valuation R max).monomial
      { m | m.Canonical max ∧ m.Every (Nonnegative S) } :=
  E.independent_of_injOn system adjoinable (fun _ member => member.1)
    (fun _ member => (Monomial.every_iff.mp member.2).1) (E.index_injOn system adjoinable)

/-- Only the empty canonical polynomial has the value zero. -/
theorem isZero_of_value (system : Radical.Independent R) (adjoinable : Adjoinable R S) {p : Poly}
    (canonical : p.Canonical max) (nonneg : p.Every (Nonnegative S))
    (zero : (E.valuation R max).poly p = 0) : p.isZero = true := by
  obtain ⟨admitted, irreducible⟩ := Vocabulary.canonical_poly.mp canonical
  refine Valuation.isZero_of_independent (E.monomial_linearIndepOn system adjoinable)
    admitted.ordered (fun t member => ⟨?_, Poly.every_iff.mp nonneg t member⟩) zero
  exact Vocabulary.canonical_monomial.mpr ⟨admitted.all t member, irreducible t member⟩

/-! ## Laws -/

section Laws

variable {v : Valuation A}

theorem imaginary_sq (adjoinable : Adjoinable R S) (atoms : v.atom = E.value R) :
    v.atom .imaginary ^ 2 = -1 := by
  have root : Atom.imaginary.RootIn R := trivial
  rw [atoms, E.value_of_root adjoinable root, atomValue, ← map_pow, ← map_pow, Complex.I_sq,
    map_neg, map_neg, map_one, map_one]

theorem root_pow_of_system (system : Radical.Independent R) (adjoinable : Adjoinable R S)
    (atoms : v.atom = E.value R) {p : Poly} {k : ℕ} (inside : (Atom.root p k).RootIn R) :
    v.atom (.root p k) ^ k = v.poly p := by
  rw [atoms, E.value_of_root adjoinable inside]
  obtain ⟨n, rfl, member⟩ := inside
  have proper := system.proper _ member
  rw [atomValue_root (b := (n, k)) member, Valuation.poly_constant, ← map_pow, ← map_pow,
    ← Complex.ofReal_pow, Radical.value_pow (a := (n, k)) (by omega)]
  simp

/-- The laws hold of the roots of the system. -/
theorem lawful_of_system (system : Radical.Independent R) (adjoinable : Adjoinable R S)
    (atoms : v.atom = E.value R) (known : ∀ a, v.known a → a.RootIn R ∧ a.Canonical max)
    (inner : ∀ m, v.inner m → m ≠ .halfTurn) : v.Lawful where
  imaginary _ := E.imaginary_sq adjoinable atoms
  root p k occurs := E.root_pow_of_system system adjoinable atoms (known _ occurs).1
  index p k occurs := by
    have canonical := (known _ occurs).2
    rw [Atom.Canonical] at canonical
    exact canonical.2.1
  radicand p k occurs proper := by
    obtain ⟨n, rfl, -⟩ := (known _ occurs).1
    rw [Poly.constant?_constant] at proper
    cases proper
  turn _ half := absurd rfl (inner _ half)

end Laws

/-- Polynomials in these roots can be computed with. -/
theorem admits_of_rootsIn (system : Radical.Independent R) (adjoinable : Adjoinable R S) {p : Poly}
    (inside : p.All (Monomial.RootsIn R S))
    (admitted : (Vocabulary.canonical max).valuation.AdmitsPoly p) :
    (E.valuation R max).AdmitsPoly p := by
  refine ⟨admitted.ordered, fun t member => ?_⟩
  obtain ⟨roots, angles, nonneg⟩ := inside t member
  have canonical := admitted.all t member
  refine ⟨canonical.increasing, fun f factor => ?_, canonical.exponent, .inr trivial, fun u term =>
    ⟨angles u term, canonical.inner u term, Poly.every_iff.mp nonneg u term⟩⟩
  have known := canonical.factor f factor
  refine ⟨known.nonzero, known.fits, ⟨(roots f factor).imp_right And.left, known.known⟩,
    fun negative => ?_⟩
  have root := (roots f factor).resolve_right fun adjoined =>
    absurd adjoined.2 (not_le.mpr negative)
  exact ⟨fun member => adjoinable.outside _ member root, atomValue_ne_zero system root⟩

theorem lawful (system : Radical.Independent R) (adjoinable : Adjoinable R S)
    (rooted : E.Rooted R max) : (E.valuation R max).Lawful where
  imaginary _ := E.imaginary_sq adjoinable rfl
  root p k occurs := by
    rcases occurs.1 with inside | member
    · exact E.root_pow_of_system system adjoinable rfl inside
    · rw [← rooted p k member]
      exact congrArg (· ^ k) (if_pos member)
  index p k occurs := by
    have canonical := occurs.2
    rw [Atom.Canonical] at canonical
    exact canonical.2.1
  radicand p k occurs proper := by
    obtain ⟨inside | member, canonical⟩ := occurs
    · obtain ⟨n, rfl, -⟩ := inside
      rw [Poly.constant?_constant] at proper
      cases proper
    · rw [Atom.Canonical] at canonical
      exact E.admits_of_rootsIn system adjoinable (adjoinable.radicand p k member)
        (Vocabulary.canonical_poly.mp canonical.2.2.1).1
  turn _ half := absurd rfl half.1

/-- What can be computed with has no negative exponents of adjoined roots. -/
theorem nonnegative_of_admits {p : Poly} (admitted : (E.valuation R max).AdmitsPoly p) :
    p.Every (Nonnegative S) := by
  refine Poly.every_iff.mpr fun t member => Monomial.every_iff.mpr ⟨fun f factor inside => ?_, ?_⟩
  · by_contra negative
    exact ((admitted.all t member).factor f factor |>.regular (not_le.mp negative)).1 inside
  · exact Poly.every_iff.mpr fun u term => ((admitted.all t member).inner u term).2.2

/-- Values without adjoined roots lie in the field. -/
theorem monomial_mem_range {m : Monomial} (outside : ∀ f ∈ m.factors, f.1 ∉ S) :
    (E.valuation R max).monomial m ∈ (algebraMap Formal A).range := by
  have factors : (E.valuation R max).factors m.factors ∈ (algebraMap Formal A).range := by
    generalize m.factors = fs at outside
    induction fs with
    | nil => exact one_mem _
    | cons f fs ih =>
      obtain ⟨head, tail⟩ := List.forall_mem_cons.mp outside
      refine mul_mem ?_ (ih tail)
      change intPower (E.value R f.1) f.2 ∈ _
      rw [value, if_neg head, intPower_algebraMap]
      exact ⟨_, rfl⟩
  rw [Valuation.monomial_eq]
  exact mul_mem factors ⟨_, rfl⟩

theorem terms_mem_range {ts : List (Monomial × Rat)}
    (outside : ∀ t ∈ ts, ∀ f ∈ t.1.factors, f.1 ∉ S) :
    (E.valuation R max).terms ts ∈ (algebraMap Formal A).range := by
  induction ts with
  | nil =>
    rw [Valuation.terms_nil]
    exact zero_mem _
  | cons t ts ih =>
    obtain ⟨m, c⟩ := t
    obtain ⟨head, tail⟩ := List.forall_mem_cons.mp outside
    rw [Valuation.terms_cons, IsScalarTower.algebraMap_apply ℚ Formal A]
    exact add_mem (mul_mem ⟨_, rfl⟩ (E.monomial_mem_range head)) (ih tail)

/-- Denominators that are not zero have units as values. -/
theorem cancelling (system : Radical.Independent R) (adjoinable : Adjoinable R S)
    (rooted : E.Rooted R max) : (E.valuation R max).Cancelling (Poly.Canonical max) where
  lawful := E.lawful system adjoinable rooted
  divisible := E.lawful_of_system system adjoinable rfl
    (fun _ known => ⟨known.1.1.resolve_right known.2.1, known.1.2⟩) fun _ inner => inner.1
  closed := Vocabulary.canonicalClass max
  isUnit p admitted canonical proper := by
    have inside : (E.valuation R max).terms p.terms ∈ (algebraMap Formal A).range :=
      E.terms_mem_range fun t member f factor =>
        ((admitted.all t member).factor f factor).known.2.1
    rw [← Valuation.poly_eq] at inside
    obtain ⟨y, value⟩ := inside
    rw [← value]
    refine IsUnit.map _ (isUnit_iff_ne_zero.mpr ?_)
    rintro rfl
    rw [map_zero] at value
    rw [E.isZero_of_value system adjoinable canonical
      (E.nonnegative_of_admits admitted.of_divisible) value.symm] at proper
    cases proper

/-- Denominators without adjoined roots among the factors can be divided by. -/
theorem divisible_of_tame (system : Radical.Independent R) (adjoinable : Adjoinable R S) {p : Poly}
    (tame : p.All fun m => m.Tame R ∧ m.exp.Every (Nonnegative S))
    (admitted : (Vocabulary.canonical max).valuation.AdmitsPoly p) :
    (E.valuation R max).divisible.AdmitsPoly p := by
  have roots : p.All (Monomial.RootsIn R S) :=
    tame.mono fun m holds => ⟨fun f member => .inl (holds.1.1 f member), holds.1.2, holds.2⟩
  have known := E.admits_of_rootsIn system adjoinable roots admitted
  refine ⟨known.ordered, fun t member => ?_⟩
  have inside := known.all t member
  refine ⟨inside.increasing, fun f factor => ?_, inside.exponent, inside.turning, inside.inner⟩
  obtain ⟨nonzero, fits, occurs, regular⟩ := inside.factor f factor
  have root := (tame t member).1.1 f factor
  exact ⟨nonzero, fits, ⟨occurs, fun adjoined => adjoinable.outside _ adjoined root,
    atomValue_ne_zero system root⟩, regular⟩

/-- The value of a fraction. -/
noncomputable def quotient (R : Set (ℕ × ℕ)) (max : Nat) (r : Fraction) : A :=
  (E.valuation R max).poly r.num * Ring.inverse ((E.valuation R max).poly r.den)

/-- Canonical forms in these roots have their values. -/
theorem represents_of_rootsIn (system : Radical.Independent R) (adjoinable : Adjoinable R S)
    (rooted : E.Rooted R max) {r : Fraction} (roots : r.RootsIn R S)
    (canonical : r.Canonical max) :
    (E.valuation R max).Represents (Poly.Canonical max) r (E.quotient R max r) := by
  have belongs := canonical.belongs
  have top := E.admits_of_rootsIn system adjoinable roots.num
    (Vocabulary.canonical_poly.mp belongs.num).1
  have bottom := E.divisible_of_tame system adjoinable roots.den
    (Vocabulary.canonical_poly.mp belongs.den).1
  have regular := (E.cancelling system adjoinable rooted).isUnit r.den bottom belongs.den
    roots.proper
  exact ⟨⟨top, bottom, belongs.num, belongs.den, by
    rw [quotient, Ring.inverse_mul_cancel_right _ _ regular]⟩, regular⟩

/-- The canonical form of zero is zero. -/
theorem isZero_of_represents (system : Radical.Independent R) (adjoinable : Adjoinable R S)
    {r : Fraction} (represents : (E.valuation R max).Represents (Poly.Canonical max) r 0) :
    r.isZero = true := by
  obtain ⟨ratio, -⟩ := represents
  refine E.isZero_of_value system adjoinable ratio.above (E.nonnegative_of_admits ratio.top) ?_
  rw [ratio.value, zero_mul]

end Adjunction

end Formal

end Discharge
