import Discharge.Proofs.Canonical.Class
import Discharge.Proofs.Elementary.Angle
import Discharge.Proofs.Normal.Irreducible

/-! What reduction returns is irreducible. A round of reduction leaves the roots
of the deepest nesting below their index, and the products that it multiplies
out bring in only roots from inside the radicands, which the next round takes
care of. That needs no values: a vocabulary says which atoms may occur, and its
valuation in the ring of one element is under all laws. -/

namespace Discharge

open Monomial (settleFactor settleFactors dropExcess excess? takeTurn reduceWith
  reduceAt)

/-! ## Vocabularies -/

/-- The atoms that may occur, and the monomials that may occur in exponents. -/
structure Vocabulary where
  known : Atom → Prop
  inner : Monomial → Prop

namespace Vocabulary

/-- All atoms have the same value, and all may be divided by. -/
def valuation (V : Vocabulary) : Valuation PUnit.{1} where
  atom _ := 0
  exp _ := 0
  exp_zero := rfl
  exp_add _ _ := rfl
  known := V.known
  invertible _ := True
  isUnit _ _ := isUnit_of_subsingleton _
  turning := True
  inner := V.inner

/-- The atoms of exact values are known, and so is what a radicand consists of. -/
structure Closed (V : Vocabulary) : Prop where
  angles : V.valuation.KnowsAngles
  index : ∀ p k, V.known (.root p k) → k ≠ 0 ∧ fitsInt64 k = true
  radicand : ∀ p k, V.known (.root p k) → p.constant? = none → V.valuation.AdmitsPoly p

theorem Closed.lawful {V : Vocabulary} (closed : V.Closed) : V.valuation.Lawful where
  imaginary _ := rfl
  root _ _ _ := rfl
  index p k known := (closed.index p k known).2
  radicand := closed.radicand
  turn _ _ _ _ found := ⟨Valuation.unitRoot_admitted closed.angles found, rfl⟩

end Vocabulary

protected theorem Poly.add_zero (p : Poly) : p.add .zero = p := by
  obtain ⟨ts⟩ := p
  simp [Poly.add, Poly.zero]

/-! ## The nesting of roots -/

theorem Monomial.rootDepth_of_mem {m : Monomial} {f : Atom × Int} (member : f ∈ m.factors) :
    f.1.rootDepth ≤ m.rootDepth := by
  obtain ⟨fs, e⟩ := m
  rw [Monomial.rootDepth]
  dsimp only at member
  induction fs with
  | nil => cases member
  | cons g fs ih =>
    obtain ⟨a, n⟩ := g
    rw [factorsRootDepth]
    rcases List.mem_cons.mp member with rfl | inside
    · exact le_max_left _ _
    · exact (ih inside).trans (le_max_right _ _)

theorem Poly.rootDepth_of_mem {p : Poly} {t : Monomial × Rat} (member : t ∈ p.terms) :
    t.1.rootDepth ≤ p.rootDepth := by
  obtain ⟨ts⟩ := p
  rw [Poly.rootDepth]
  dsimp only at member
  induction ts with
  | nil => cases member
  | cons u ts ih =>
    obtain ⟨m, c⟩ := u
    rw [termsRootDepth]
    rcases List.mem_cons.mp member with rfl | inside
    · exact le_max_left _ _
    · exact (ih inside).trans (le_max_right _ _)

theorem Atom.rootDepth_constant {p : Poly} {k : Nat} {c : Rat} (constant : p.constant? = some c) :
    (Atom.root p k).rootDepth = 0 := by
  rw [Atom.rootDepth, if_pos (by rw [constant]; rfl)]

theorem Atom.rootDepth_proper {p : Poly} {k : Nat} (proper : p.constant? = none) :
    (Atom.root p k).rootDepth = p.rootDepth + 1 := by
  rw [Atom.rootDepth, if_neg (by simp [proper])]

namespace Vocabulary

variable {V : Vocabulary} {m k : Monomial} {p q : Poly} {n : Nat}

/-- The part of a vocabulary in which roots are nested at most `n` deep. -/
def shallow (V : Vocabulary) (n : Nat) : Vocabulary where
  known a := V.known a ∧ a.rootDepth ≤ n
  inner := V.inner

theorem shallow_admits : (V.shallow n).valuation.Admits m ↔
    V.valuation.Admits m ∧ ∀ f ∈ m.factors, f.1.rootDepth ≤ n := by
  constructor
  · intro admitted
    refine ⟨⟨admitted.increasing, fun f member => ?_, admitted.exponent, .inr trivial,
      admitted.inner⟩, fun f member => (admitted.factor f member).known.2⟩
    have factor := admitted.factor f member
    exact ⟨factor.nonzero, factor.fits, factor.known.1, factor.regular⟩
  · rintro ⟨admitted, depth⟩
    refine ⟨admitted.increasing, fun f member => ?_, admitted.exponent, .inr trivial,
      admitted.inner⟩
    have factor := admitted.factor f member
    exact ⟨factor.nonzero, factor.fits, ⟨factor.known, depth f member⟩, factor.regular⟩

theorem shallow_admitsPoly (admitted : V.valuation.AdmitsPoly p) (depth : p.rootDepth ≤ n) :
    (V.shallow n).valuation.AdmitsPoly p :=
  ⟨admitted.ordered, fun t member => shallow_admits.mpr ⟨admitted.all t member, fun _ inside =>
    ((Monomial.rootDepth_of_mem inside).trans (Poly.rootDepth_of_mem member)).trans depth⟩⟩

theorem Closed.shallow (closed : V.Closed) (n : Nat) : (V.shallow n).Closed where
  angles :=
    { imaginary := ⟨closed.angles.imaginary, by rw [Atom.rootDepth]; exact Nat.zero_le n; nofun⟩
      surd := fun k surd => ⟨closed.angles.surd k surd, by
        rw [Atom.rootDepth_constant (Poly.constant?_constant _)]
        exact Nat.zero_le n⟩ }
  index p k known := closed.index p k known.1
  radicand p k known proper := by
    have depth : (Atom.root p k).rootDepth ≤ n := known.2
    rw [Atom.rootDepth_proper proper] at depth
    exact shallow_admitsPoly (closed.radicand p k known.1 proper) (by omega)

/-! ## What is left of a monomial -/

/-- Roots that are nested deeper than `n` are below their index. -/
def Below (n : Nat) (m : Monomial) : Prop :=
  ∀ f ∈ m.factors, n < f.1.rootDepth → excess? f.1 f.2 = none

/-- What is left after settling is settled. -/
theorem settleFactor_settled {a : Atom} {n : Int} {s : Rat × Int} (ran : settleFactor a n = .ok s) :
    settleFactor a s.2 = .ok (1, s.2) := by
  cases a with
  | imaginary =>
    have digits : n % 4 = 0 ∨ n % 4 = 1 ∨ n % 4 = 2 ∨ n % 4 = 3 := by omega
    rcases digits with digit | digit | digit | digit <;> simp only [settleFactor, digit] at ran <;>
      cases ran <;> rfl
  | root p k =>
    cases constant : p.constant? with
    | none =>
      simp only [settleFactor, constant]
    | some c =>
      simp only [settleFactor, constant] at ran ⊢
      obtain ⟨power, -, ran⟩ := bind_eq_ok ran
      cases ran
      have none : (n % k) / k = 0 := by
        rcases Nat.eq_zero_or_pos k with rfl | positive
        · simp
        · exact Int.ediv_eq_zero_of_lt (Int.emod_nonneg n (by omega))
            (Int.emod_lt_of_pos n (by omega))
      simp only [none, ratPow_zero, Int.emod_emod]
      rfl
  | _ =>
    cases ran
    rfl

theorem excess_settleFactor {a : Atom} {n : Int} {s : Rat × Int} (below : excess? a n = none)
    (ran : settleFactor a n = .ok s) : excess? a s.2 = none := by
  cases a with
  | root p k =>
    cases constant : p.constant? with
    | none =>
      simp only [settleFactor, constant] at ran
      cases ran
      exact below
    | some c => simp [excess?, constant]
  | _ => simp [excess?]

theorem settleFactors_mem (fs : List (Atom × Int)) :
    Yields (settleFactors fs) fun s => ∀ f ∈ s.2, f.2 ≠ 0 ∧
      ∃ n c, (f.1, n) ∈ fs ∧ settleFactor f.1 n = .ok (c, f.2) := by
  induction fs with
  | nil => exact fun _ member => absurd member List.not_mem_nil
  | cons g fs ih =>
    obtain ⟨a, n⟩ := g
    refine Yields.bind_ok fun s settled => .bind ih fun t rest => ?_
    have later : ∀ f ∈ t.2, f.2 ≠ 0 ∧
        ∃ k c, (f.1, k) ∈ (a, n) :: fs ∧ settleFactor f.1 k = .ok (c, f.2) := by
      intro f member
      obtain ⟨nonzero, k, c, inside, same⟩ := rest f member
      exact ⟨nonzero, k, c, List.mem_cons_of_mem _ inside, same⟩
    change ∀ f ∈ (if s.2 = 0 then t.2 else (a, s.2) :: t.2), _
    split
    · exact later
    · exact List.forall_mem_cons.mpr ⟨⟨‹_›, n, s.1, List.mem_cons_self, settled⟩, later⟩

/-- Settling leaves irreducible factors, where nothing exceeds an index. -/
theorem irreducible_settleFactors {fs : List (Atom × Int)} {e : Poly}
    (below : ∀ f ∈ fs, excess? f.1 f.2 = none)
    (turned : (e.coefficient? Monomial.halfTurn).bind Poly.unitRoot? = none) :
    Yields (settleFactors fs) fun s => Monomial.Irreducible ⟨s.2, e⟩ :=
  (settleFactors_mem fs).mono fun s each =>
    { nonzero := fun f member => (each f member).1
      settled := fun f member => by
        obtain ⟨-, n, c, -, ran⟩ := each f member
        exact settleFactor_settled ran
      below := fun f member => by
        obtain ⟨-, n, c, inside, ran⟩ := each f member
        exact excess_settleFactor (below _ inside) ran
      turned }

theorem dropExcess_below {fs : List (Atom × Int)}
    (proper : ∀ f ∈ fs, ∀ p k, f.1 = .root p k → k ≠ 0) :
    ∀ f ∈ dropExcess fs, excess? f.1 f.2 = none := by
  induction fs with
  | nil => exact fun _ member => absurd member List.not_mem_nil
  | cons g fs ih =>
    obtain ⟨a, n⟩ := g
    obtain ⟨head, tail⟩ := List.forall_mem_cons.mp proper
    rcases Valuation.excess_cases a n with ⟨none, keeps⟩ | ⟨p, k, rfl, constant, reached, -, drops⟩
    · rw [keeps]
      exact List.forall_mem_cons.mpr ⟨none, ih tail⟩
    · rw [drops]
      split
      · exact ih tail
      · refine List.forall_mem_cons.mpr ⟨?_, ih tail⟩
        have positive : (0 : Int) < k := by
          have := head p k rfl
          omega
        have less := Int.tmod_lt_of_pos n positive
        simp only [excess?, ite_eq_right_iff]
        rintro ⟨-, reached⟩
        omega

theorem takeTurn_turned (e : Poly) :
    ((takeTurn e).1.coefficient? Monomial.halfTurn).bind Poly.unitRoot? = none := by
  unfold takeTurn
  split
  · have erased : (e.erase Monomial.halfTurn).coefficient? Monomial.halfTurn = none := by
      refine List.lookup_eq_none_iff.mpr fun t member => ?_
      have other : t.1 ≠ Monomial.halfTurn := by simpa using (List.mem_filter.mp member).2
      simpa using other.symm
    rw [erased]
    rfl
  · assumption

/-! ## Rounds of reduction -/

variable {lower : Monomial → Outcome Poly}

/-- A factor in which roots are nested at most `n` deep changes no exponent of a
deeper root. -/
theorem combine_below {l : Monomial} (left : V.valuation.Admits m) (irreducible : m.Irreducible)
    (right : (V.shallow n).valuation.Admits l) (combined : m.combine l = .ok k) :
    V.valuation.Admits k ∧ Below n k := by
  obtain ⟨right, depth⟩ := shallow_admits.mp right
  have product := (Valuation.combine_ensures left right).of_ok combined
  refine ⟨product.1, fun f member deep => ?_⟩
  have sum := Valuation.count_combine left right combined f.1
  have absent : l.count f.1 = 0 := by
    by_contra present
    have inside := depth _ (Monomial.mem_of_exponentIn present)
    dsimp only at inside
    omega
  have count : k.count f.1 = f.2 := Monomial.exponentIn_of_mem product.1.increasing member
  have nonzero := (product.1.factor f member).nonzero
  have old : (f.1, f.2) ∈ m.factors := by
    have same : m.count f.1 = f.2 := by omega
    rw [← same]
    exact Monomial.mem_of_exponentIn (by rw [← Monomial.count_eq]; omega)
  exact irreducible.below _ old

/-- A reduction that copes with roots that are nested deeper than `n` as long as
they are below their index. -/
def Reduces (V : Vocabulary) (n : Nat) (lower : Monomial → Outcome Poly) : Prop :=
  ∀ k, V.valuation.Admits k → Below n k → Yields (lower k) (·.All Monomial.Irreducible)

theorem foldlM_irreducible (keeps : V.valuation.Reduces lower) (reduces : V.Reduces n lower)
    (ps : List Poly) (each : ∀ q ∈ ps, (V.shallow n).valuation.AdmitsPoly q)
    (admitted : V.valuation.AdmitsPoly p) (irreducible : p.All Monomial.Irreducible) :
    Yields (ps.foldlM (Poly.mulWith lower) p) (·.All Monomial.Irreducible) := by
  induction ps generalizing p with
  | nil => exact irreducible
  | cons q ps ih =>
    obtain ⟨head, tail⟩ := List.forall_mem_cons.mp each
    rw [List.foldlM_cons]
    refine Yields.bind_ok fun r ran => ?_
    have factor : V.valuation.AdmitsPoly q :=
      ⟨head.ordered, fun t member => (shallow_admits.mp (head.all t member)).1⟩
    refine ih tail ((Valuation.mulWith_ensures keeps admitted factor).of_ok ran).1 ?_
    refine (Poly.mulWith_yields fun s first t second k combined => ?_).of_ok ran
    obtain ⟨product, below⟩ :=
      combine_below (admitted.all s first) (irreducible s first) (head.all t second) combined
    exact reduces k product below

variable (closed : V.Closed)

include closed

theorem proper_index (admitted : V.valuation.Admits m) :
    ∀ f ∈ m.factors, ∀ p k, f.1 = .root p k → k ≠ 0 := by
  intro f member p k same
  have known := (admitted.factor f member).known
  rw [same] at known
  exact (closed.index p k known).1

/-- The powers that a round multiplies out consist of what is nested less deep. -/
theorem excesses_shallow (keeps : (V.shallow n).valuation.Reduces lower)
    {fs : List (Atom × Int)} (each : ∀ f ∈ fs, V.valuation.AdmitsFactor f)
    (below : ∀ f ∈ fs, n + 1 < f.1.rootDepth → excess? f.1 f.2 = none) :
    Yields (Monomial.excesses lower fs)
      (fun ps => ∀ p ∈ ps, (V.shallow n).valuation.AdmitsPoly p) := by
  induction fs with
  | nil => exact fun _ member => absurd member List.not_mem_nil
  | cons f fs ih =>
    obtain ⟨a, j⟩ := f
    obtain ⟨head, tail⟩ := List.forall_mem_cons.mp each
    obtain ⟨first, rest⟩ := List.forall_mem_cons.mp below
    rcases Valuation.excess_cases a j with ⟨none, -⟩ | ⟨p, i, rfl, proper, -, some, -⟩
    · rw [Monomial.excesses, none]
      exact ih tail rest
    · rw [Monomial.excesses, some]
      dsimp only
      split
      · trivial
      have depth : p.rootDepth ≤ n := by
        by_contra deep
        have none := first (by dsimp only; rw [Atom.rootDepth_proper proper]; omega)
        rw [none] at some
        cases some
      have radicand := shallow_admitsPoly (closed.radicand p i head.known proper) depth
      refine .bind (((Valuation.powWith_ensures keeps radicand _).mono
        fun _ power => power.1).mono_error fun _ _ => trivial) fun power first => ?_
      exact .bind (ih tail rest) fun ps rest => List.forall_mem_cons.mpr ⟨first, rest⟩

/-- What is left of a monomial after a round. -/
theorem start_irreducible (admitted : V.valuation.Admits m) :
    Yields (settleFactors (dropExcess m.factors)) fun s =>
      V.valuation.Admits ⟨s.2, (takeTurn m.exp).1⟩ ∧
        Monomial.Irreducible ⟨s.2, (takeTurn m.exp).1⟩ := by
  obtain ⟨dropped, atoms⟩ := Valuation.dropExcess_spec admitted.factor
  obtain ⟨ordered, turning, -, -⟩ :=
    Valuation.takeTurn_spec closed.lawful admitted.exponent admitted.turning admitted.inner
  cases ran : settleFactors (dropExcess m.factors) with
  | error e => trivial
  | ok s =>
    obtain ⟨-, rest, sublist⟩ := (Valuation.settleFactors_ensures closed.lawful dropped).of_ok ran
    refine ⟨⟨admitted.increasing.of_sublist (sublist.trans atoms), rest, ordered, turning,
      Valuation.takeTurn_all admitted.inner⟩, ?_⟩
    exact (irreducible_settleFactors (dropExcess_below (proper_index closed admitted))
      (takeTurn_turned m.exp)).of_ok ran

omit closed in
/-- Exact values have no exponentials in them. -/
theorem turn_plain {e u : Poly} (member : u ∈ (takeTurn e).2) : u.All (·.exp = .zero) := by
  unfold takeTurn at member
  split at member
  · rename_i value found
    obtain ⟨angle, -, exact⟩ := Option.bind_eq_some_iff.mp found
    rw [List.mem_singleton.mp member]
    -- They are built without any monomial in an exponent.
    let plain : Vocabulary := ⟨fun _ => True, fun _ => False⟩
    have known : plain.valuation.KnowsAngles := ⟨trivial, fun _ _ => trivial⟩
    rintro ⟨⟨fs, ⟨es⟩⟩, c⟩ inside
    cases es with
    | nil => rfl
    | cons s es =>
      have monomial := (Valuation.unitRoot_admitted known exact).all _ inside
      exact (monomial.inner s List.mem_cons_self).elim
  · exact absurd member List.not_mem_nil

omit closed in
theorem excess_of_below (below : Below 0 m) : ∀ f ∈ m.factors, excess? f.1 f.2 = none := by
  intro f member
  rcases Nat.eq_zero_or_pos f.1.rootDepth with flat | deep
  · obtain ⟨a, n⟩ := f
    cases a with
    | root p k =>
      cases constant : p.constant? with
      | none =>
        rw [Atom.rootDepth_proper constant] at flat
        omega
      | some c => simp [excess?, constant]
    | _ => rfl
  · exact below f member deep

/-- Without roots of polynomials that exceed their index, nothing is multiplied
out but exact values. -/
theorem reduceAt_zero_irreducible : V.Reduces 0 (reduceAt 0) := by
  intro m admitted below
  obtain ⟨-, -, turns, -⟩ :=
    Valuation.takeTurn_spec (closed.shallow 0).lawful admitted.exponent (.inr trivial) admitted.inner
  change Yields (reduceWith Monomial.settle m) _
  unfold reduceWith
  refine .bind (start_irreducible closed admitted) fun s ⟨start, irreducible⟩ => ?_
  rw [Monomial.excesses_eq_nil (excess_of_below below)]
  change Yields (([] ++ (takeTurn m.exp).2).foldlM (Poly.mulWith Monomial.settle) _) _
  rw [List.nil_append]
  have single : (takeTurn m.exp).2 = [] ∨ ∃ u, (takeTurn m.exp).2 = [u] := by
    unfold takeTurn
    split
    · exact .inr ⟨_, rfl⟩
    · exact .inl rfl
  rcases single with turn | ⟨u, turn⟩
  · rw [turn]
    exact .term irreducible _
  · have member : u ∈ (takeTurn m.exp).2 := by
      rw [turn]
      exact List.mem_singleton_self u
    rw [turn, List.foldlM_cons]
    refine Yields.bind_ok fun r ran => ?_
    refine (Poly.mulWith_yields (P := Monomial.Irreducible) fun t first u second k combined => ?_).of_ok ran
    have same := Poly.All.term (P := (· = (⟨s.2, (takeTurn m.exp).1⟩ : Monomial))) rfl s.1 t first
    dsimp only at same
    rw [same] at combined
    obtain ⟨-, below⟩ :=
      combine_below start irreducible ((turns _ member).all u second) combined
    have exponent : k.exp = (takeTurn m.exp).1 := by
      obtain ⟨fs, -, done⟩ := bind_eq_ok combined
      cases done
      rw [turn_plain member u second, Poly.add_zero]
    refine .bind (irreducible_settleFactors (e := k.exp) (excess_of_below below) ?_)
      fun s settled => .term settled _
    rw [exponent]
    exact takeTurn_turned m.exp

/-- Each round copes with one more level of nested roots. -/
theorem reduceAt_irreducible (n : Nat) : V.Reduces n (reduceAt n) := by
  induction n with
  | zero => exact reduceAt_zero_irreducible closed
  | succ n ih =>
    intro m admitted below
    obtain ⟨-, -, turns, -⟩ :=
      Valuation.takeTurn_spec (closed.shallow n).lawful admitted.exponent (.inr trivial) admitted.inner
    have powers := excesses_shallow closed
      (Valuation.reduceAt_reduces (closed.shallow n).lawful n) admitted.factor below
    refine .bind (start_irreducible closed admitted) fun s ⟨start, irreducible⟩ => ?_
    refine .bind powers fun ps each => ?_
    exact foldlM_irreducible (Valuation.reduceAt_reduces closed.lawful n) ih _
      (List.forall_mem_append.mpr ⟨each, turns⟩) (.term start _) (.term irreducible _)

/-- What reduction returns is irreducible. -/
theorem reduce_irreducible (admitted : V.valuation.Admits m) :
    Yields m.reduce (·.All Monomial.Irreducible) := by
  refine reduceAt_irreducible closed m.rootDepth m admitted fun f member deep => ?_
  exact absurd deep (not_lt.mpr (Monomial.rootDepth_of_mem member))

end Vocabulary

end Discharge
