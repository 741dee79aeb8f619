import Mathlib
import Discharge.Proofs.Canonical.Reduction

/-! Reduction terminates. What has to be multiplied out calls for the reduction of
products, in which roots may have reached their index again and an exponent may come to
an exact angle again. But a radicand brings in only roots that are nested less deep than
its own root, and every other root is below its index by then. So the products are of
lower rank than the monomial: the deepest nesting of a root that has reached its index
decides, and where there is none, whether there is an exact angle, which the products
do not have a second time.

Termination is stated as congruence: a round of reduction does not depend on what reduces
the monomials that are not of lower rank. So rounds that are nested deeper than the rank
never come to what stands at the bottom. -/

namespace Discharge

open Monomial (excess? dropExcess settleFactors takeTurn reduceWith reduceAt)
open Vocabulary (Below)

/-! ## Repeated products that coincide -/

namespace Coincide

variable {ε α β : Type} {good : α → Prop} {good' : β → Prop}

theorem squaring {mul mul' : α → α → Except ε α}
    (times : ∀ a b, good a → good b → Coincide good (mul a b) (mul' a b)) (n : Nat) {a b : α}
    (left : good a) (right : good b) :
    Coincide good (Discharge.squaring mul a b n) (Discharge.squaring mul' a b n) := by
  induction n using Nat.strong_induction_on generalizing a b with
  | _ n ih =>
    rw [squaring_step, squaring_step]
    refine .ite (fun _ => .answer left) fun positive => ?_
    refine .bind (.ite (fun _ => times a b left right) fun _ => .answer left) fun c product => ?_
    refine .ite (fun _ => .answer product) fun _ => ?_
    exact .bind (times b b right right) fun d square => ih (n / 2) (by omega) product square

theorem foldlM {step step' : α → β → Except ε α}
    (each : ∀ a b, good a → good' b → Coincide good (step a b) (step' a b)) {bs : List β}
    (inputs : ∀ b ∈ bs, good' b) {a : α} (start : good a) :
    Coincide good (bs.foldlM step a) (bs.foldlM step' a) := by
  induction bs generalizing a with
  | nil => exact .answer start
  | cons b bs ih =>
    obtain ⟨head, tail⟩ := List.forall_mem_cons.mp inputs
    rw [List.foldlM_cons, List.foldlM_cons]
    exact .bind (each a b start head) fun _ => ih tail

end Coincide

/-- On the products of a monomial in `A` and one in `B` both reductions coincide, and
what they return is in `A`. -/
def CoincideOn (A B : Monomial → Prop) (f g : Monomial → Outcome Poly) : Prop :=
  ∀ s t k, A s → B t → s.combine t = .ok k → Coincide (·.All A) (f k) (g k)

variable {A B : Monomial → Prop} {f g lower : Monomial → Outcome Poly}
  {m k l : Monomial} {e p q u : Poly} {n d : Nat} {w j : Int} {a : Atom}

theorem CoincideOn.mulWith (on : CoincideOn A B f g) (left : p.All A) (right : q.All B) :
    Coincide (·.All A) (p.mulWith f q) (p.mulWith g q) :=
  Poly.mulWith_coincide fun s first t second k => on s.1 t.1 k (left s first) (right t second)

theorem CoincideOn.powWith (on : CoincideOn B B f g) (one : B .one) (all : p.All B) (n : Nat) :
    Coincide (·.All B) (p.powWith f n) (p.powWith g n) :=
  .squaring (fun _ _ => on.mulWith) n (.term one 1) all

namespace Monomial

theorem excesses_coincide {fs : List (Atom × Int)}
    (powers : ∀ x ∈ fs, ∀ p w, excess? x.1 x.2 = some (p, w) →
      Coincide (·.All B) (p.powWith f w.toNat) (p.powWith g w.toNat)) :
    Coincide (fun ps => ∀ p ∈ ps, p.All B) (excesses f fs) (excesses g fs) := by
  induction fs with
  | nil => exact .answer fun _ member => absurd member List.not_mem_nil
  | cons x fs ih =>
    obtain ⟨a, j⟩ := x
    obtain ⟨head, tail⟩ := List.forall_mem_cons.mp powers
    rw [excesses, excesses]
    cases reached : excess? a j with
    | none => exact ih tail
    | some part =>
      obtain ⟨p, w⟩ := part
      refine .ite (fun _ => .refl trivial) fun _ => .bind (head p w reached) fun power first => ?_
      exact .bind (ih tail) fun ps rest => .answer (List.forall_mem_cons.mpr ⟨first, rest⟩)

/-- The monomial `k` is what a round multiplies powers of radicands and exact values
by. -/
def Rest (m k : Monomial) : Prop :=
  ∃ c, settleFactors (dropExcess m.factors) = .ok (c, k.factors) ∧ k.exp = (takeTurn m.exp).1

/-- A round of reduction coincides where the powers and the products with them do. -/
theorem reduceWith_coincide
    (powers : ∀ x ∈ m.factors, ∀ p w, excess? x.1 x.2 = some (p, w) →
      Coincide (·.All B) (p.powWith f w.toNat) (p.powWith g w.toNat))
    (on : CoincideOn A B f g) (start : ∀ k, m.Rest k → A k)
    (turn : ∀ u ∈ (takeTurn m.exp).2, u.All B) :
    Coincide (·.All A) (reduceWith f m) (reduceWith g m) := by
  refine .bind_ok fun s settled => .bind (excesses_coincide powers) fun ps each => ?_
  exact .foldlM (fun _ _ => on.mulWith) (List.forall_mem_append.mpr ⟨each, turn⟩)
    (.term (start ⟨s.2, (takeTurn m.exp).1⟩ ⟨s.1, settled, rfl⟩) _)

end Monomial

/-! ## The factors that reduction comes across -/

/-- No root in the atom has the index zero, by which exponents would be divided. -/
inductive Atom.Indexed : Atom → Prop
  | root {p : Poly} {k : Nat} (index : k ≠ 0)
      (radicand : ∀ t ∈ p.terms, ∀ x ∈ t.1.factors, Indexed x.1) : Indexed (.root p k)
  | other {a : Atom} (plain : ∀ p k, a ≠ .root p k) : Indexed a

/-- No root in the monomial has the index zero. -/
def Monomial.Indexed (m : Monomial) : Prop := ∀ x ∈ m.factors, x.1.Indexed

/-- No root in the polynomial has the index zero. -/
def Poly.Indexed (p : Poly) : Prop := p.All Monomial.Indexed

namespace Monomial

/-- All roots are nested at most `n` deep. -/
def Within (n : Nat) (m : Monomial) : Prop := ∀ x ∈ m.factors, x.1.Indexed ∧ x.1.rootDepth ≤ n

/-- All roots that have reached their index are nested at most `n` deep. -/
structure Reaches (n : Nat) (m : Monomial) : Prop where
  indexed : m.Indexed
  below : Below n m

theorem Indexed.proper (indexed : m.Indexed) :
    ∀ x ∈ m.factors, ∀ p k, x.1 = .root p k → k ≠ 0 := by
  intro x member p k same
  have head := indexed x member
  rw [same] at head
  cases head with
  | root index radicand => exact index
  | other plain => exact absurd rfl (plain p k)

theorem Indexed.within (indexed : m.Indexed) (depth : m.rootDepth ≤ n) : Within n m :=
  fun x member => ⟨indexed x member, (rootDepth_of_mem member).trans depth⟩

theorem within_one : Within n .one := fun _ member => absurd member List.not_mem_nil

theorem Within.reaches (within : Within n m) : Reaches n m :=
  ⟨fun x member => (within x member).1,
    fun x member deep => absurd (within x member).2 (not_le.mpr deep)⟩

theorem Within.combine (left : Within n m) (right : Within n l) (combined : m.combine l = .ok k) :
    Within n k := by
  intro x member
  rcases (combine_sums m l).of_ok combined x member with old | old | ⟨i, j, old, -⟩
  · exact left x old
  · exact right x old
  · exact left (x.1, i) old

/-- A deep root of a product with a monomial of shallow roots is one that was there. -/
theorem Reaches.combine (left : Reaches n m) (right : Within n l) (combined : m.combine l = .ok k) :
    Reaches n k := by
  have sums := (combine_sums m l).of_ok combined
  refine ⟨fun x member => ?_, fun x member deep => ?_⟩
  · rcases sums x member with old | old | ⟨i, j, old, -⟩
    · exact left.indexed x old
    · exact (right x old).1
    · exact left.indexed (x.1, i) old
  · rcases sums x member with old | old | ⟨i, j, -, old, -⟩
    · exact left.below x old deep
    · exact absurd (right x old).2 (not_le.mpr deep)
    · exact absurd (right _ old).2 (not_le.mpr deep)

theorem excess_eq_some (reached : excess? a j = some (p, w)) :
    ∃ k, a = .root p k ∧ p.constant? = none := by
  rcases Valuation.excess_cases a j with ⟨none, -⟩ | ⟨r, k, rfl, proper, -, some, -⟩
  · rw [none] at reached
    cases reached
  · rw [some] at reached
    cases reached
    exact ⟨k, rfl, proper⟩

/-- Multiplying out a root replaces it by the atoms of its radicand, which are smaller and
are nested less deep. -/
theorem excess_smaller (reached : excess? a j = some (p, w)) {t : Monomial × Rat}
    (term : t ∈ p.terms) {x : Atom × Int} (member : x ∈ t.1.factors) :
    sizeOf x.1 < sizeOf a ∧ x.1.rootDepth < a.rootDepth := by
  obtain ⟨k, rfl, proper⟩ := excess_eq_some reached
  constructor
  · obtain ⟨⟨fs, e⟩, c⟩ := t
    obtain ⟨b, n⟩ := x
    have outer := List.sizeOf_lt_of_mem term
    have inner := List.sizeOf_lt_of_mem member
    cases p
    simp only [Prod.mk.sizeOf_spec, Monomial.mk.sizeOf_spec, Poly.mk.sizeOf_spec,
      Atom.root.sizeOf_spec] at outer inner ⊢
    omega
  · rw [Atom.rootDepth_proper proper]
    have depth := (rootDepth_of_mem member).trans (Poly.rootDepth_of_mem term)
    omega

theorem excess_within (indexed : a.Indexed) (reached : excess? a j = some (p, w))
    (depth : a.rootDepth ≤ n + 1) : p.All (Within n) := by
  intro t term x member
  have smaller := (excess_smaller reached term member).2
  refine ⟨?_, by omega⟩
  obtain ⟨k, rfl, -⟩ := excess_eq_some reached
  cases indexed with
  | root index radicand => exact radicand t term x member
  | other plain => exact absurd rfl (plain _ _)

theorem dropExcess_mem {fs : List (Atom × Int)} :
    ∀ x ∈ dropExcess fs, ∃ i, (x.1, i) ∈ fs := by
  induction fs with
  | nil => exact fun _ member => absurd member List.not_mem_nil
  | cons y fs ih =>
    obtain ⟨a, j⟩ := y
    have later : ∀ x ∈ dropExcess fs, ∃ i, (x.1, i) ∈ (a, j) :: fs := fun x member =>
      (ih x member).imp fun i old => List.mem_cons_of_mem _ old
    rcases Valuation.excess_cases a j with ⟨-, keeps⟩ | ⟨p, k, -, -, -, -, drops⟩
    · rw [keeps]
      exact List.forall_mem_cons.mpr ⟨⟨j, List.mem_cons_self⟩, later⟩
    · rw [drops]
      split
      · exact later
      · exact List.forall_mem_cons.mpr ⟨⟨j, List.mem_cons_self⟩, later⟩

theorem Rest.mem (rest : m.Rest k) : ∀ x ∈ k.factors, ∃ i, (x.1, i) ∈ m.factors := by
  obtain ⟨c, settled, -⟩ := rest
  intro x member
  obtain ⟨-, i, -, old, -⟩ := (Vocabulary.settleFactors_mem _).of_ok settled x member
  exact dropExcess_mem (x.1, i) old

theorem Rest.within (rest : m.Rest k) (within : Within n m) : Within n k := by
  intro x member
  obtain ⟨i, old⟩ := rest.mem x member
  exact within (x.1, i) old

/-- No root in it has reached its index. -/
theorem Rest.reaches (rest : m.Rest k) (indexed : m.Indexed) (n : Nat) : Reaches n k := by
  refine ⟨fun x member => ?_, fun x member _ => ?_⟩
  · obtain ⟨i, old⟩ := rest.mem x member
    exact indexed (x.1, i) old
  · obtain ⟨c, settled, -⟩ := rest
    exact ((Vocabulary.irreducible_settleFactors (Vocabulary.dropExcess_below indexed.proper)
      (Vocabulary.takeTurn_turned m.exp)).of_ok settled).below x member

/-- The exact values have roots of constants only. -/
theorem turn_within (member : u ∈ (takeTurn e).2) : u.All (Within n) := by
  unfold takeTurn at member
  split at member
  · rename_i value found
    obtain ⟨angle, -, exact⟩ := Option.bind_eq_some_iff.mp found
    rw [List.mem_singleton.mp member]
    let flat : Vocabulary := ⟨fun a => a.Indexed ∧ a.rootDepth = 0, fun _ => True⟩
    have known : flat.valuation.KnowsAngles :=
      { imaginary := ⟨.other nofun, by rw [Atom.rootDepth]; nofun⟩
        surd := fun n _ => ⟨.root two_ne_zero (Poly.All.term (P := Monomial.Indexed)
          (fun _ member => absurd member List.not_mem_nil) n),
          Atom.rootDepth_constant (Poly.constant?_constant _)⟩ }
    intro t term x factor
    obtain ⟨indexed, depth⟩ :=
      (((Valuation.unitRoot_admitted known exact).all t term).factor x factor).known
    exact ⟨indexed, depth.le.trans n.zero_le⟩
  · exact absurd member List.not_mem_nil

/-! ## What reduction keeps -/

theorem settle_within (within : Within n m) : Yields m.settle (·.All (Within n)) := by
  refine .bind (Vocabulary.settleFactors_mem m.factors) fun s each => ?_
  refine Poly.All.term (P := Within n) (fun x member => ?_) _
  obtain ⟨-, i, -, old, -⟩ := each x member
  exact within (x.1, i) old

theorem settle_reaches (reaches : Reaches n m) : Yields m.settle (·.All (Reaches n)) := by
  refine .bind (Vocabulary.settleFactors_mem m.factors) fun s each => ?_
  refine Poly.All.term (P := Reaches n) ⟨fun x member => ?_, fun x member deep => ?_⟩ _
  · obtain ⟨-, i, -, old, -⟩ := each x member
    exact reaches.indexed (x.1, i) old
  · obtain ⟨-, i, c, old, ran⟩ := each x member
    exact Vocabulary.excess_settleFactor (reaches.below (x.1, i) old deep) ran

theorem reduceWith_within (keeps : ∀ k, Within n k → Yields (lower k) (·.All (Within n)))
    (within : Within n m) : Yields (reduceWith lower m) (·.All (Within n)) := by
  have on : CoincideOn (Within n) (Within n) lower lower := fun s t k left right combined =>
    .refl (keeps k (left.combine right combined))
  refine (reduceWith_coincide (fun x member p w reached => ?_) on
    (fun k rest => rest.within within) fun u => turn_within).yields
  obtain ⟨indexed, depth⟩ := within x member
  exact on.powWith within_one (excess_within indexed reached (depth.trans n.le_succ)) w.toNat

/-- Reduction brings in no deeper roots. -/
theorem reduceAt_within (i : Nat) (within : Within n m) :
    Yields (reduceAt i m) (·.All (Within n)) := by
  induction i generalizing m with
  | zero => exact reduceWith_within (fun _ => settle_within) within
  | succ i ih => exact reduceWith_within (fun _ => ih) within

theorem reduceWith_reaches (shallow : ∀ k, Within n k → Yields (lower k) (·.All (Within n)))
    (keeps : ∀ k, Reaches n k → Yields (lower k) (·.All (Reaches n))) (reaches : Reaches n m) :
    Yields (reduceWith lower m) (·.All (Reaches n)) := by
  have on : CoincideOn (Reaches n) (Within n) lower lower := fun s t k left right combined =>
    .refl (keeps k (left.combine right combined))
  have inside : CoincideOn (Within n) (Within n) lower lower := fun s t k left right combined =>
    .refl (shallow k (left.combine right combined))
  refine (reduceWith_coincide (fun x member p w reached => ?_) on
    (fun k rest => rest.reaches reaches.indexed n) fun u => turn_within).yields
  have depth : x.1.rootDepth ≤ n := by
    by_contra deep
    rw [reaches.below x member (not_le.mp deep)] at reached
    cases reached
  exact inside.powWith within_one
    (excess_within (reaches.indexed x member) reached (depth.trans n.le_succ)) w.toNat

/-- Reduction brings no deeper root to its index. -/
theorem reduceAt_reaches (i : Nat) (reaches : Reaches n m) :
    Yields (reduceAt i m) (·.All (Reaches n)) := by
  induction i generalizing m with
  | zero => exact reduceWith_reaches (fun _ => settle_within) (fun _ => settle_reaches) reaches
  | succ i ih => exact reduceWith_reaches (fun _ => reduceAt_within i) (fun _ => ih) reaches

/-! ## The rank -/

/-- How deep the roots are nested that have reached their index. -/
def reach (m : Monomial) : Nat :=
  (m.factors.map fun x => if (excess? x.1 x.2).isSome then x.1.rootDepth else 0).foldr max 0

/-- How many rounds of reduction are needed after the first one: as many as the roots are
nested that have reached their index, and one more for an exact angle. -/
def rank (m : Monomial) : Nat :=
  if m.reach = 0 then (takeTurn m.exp).2.length else m.reach + 1

theorem reach_le_iff : m.reach ≤ n ↔ Below n m := by
  obtain ⟨fs, e⟩ := m
  unfold reach Below
  dsimp only
  induction fs with
  | nil => simp
  | cons x fs ih =>
    rw [List.map_cons, List.foldr_cons, max_le_iff, ih, List.forall_mem_cons]
    refine and_congr_left' ?_
    cases excess? x.1 x.2 with
    | none => simp
    | some part => simp

theorem takeTurn_length (e : Poly) : (takeTurn e).2.length ≤ 1 := by
  unfold takeTurn
  split
  · exact le_rfl
  · exact Nat.zero_le 1

theorem rank_le_iff : m.rank ≤ n + 1 ↔ Below n m := by
  rw [← reach_le_iff]
  have turn := takeTurn_length m.exp
  unfold rank
  split
  · omega
  · omega

theorem below_rootDepth (m : Monomial) : Below m.rootDepth m :=
  fun _ member deep => absurd (rootDepth_of_mem member) (not_le.mpr deep)

/-- Nothing has to be multiplied out in a monomial of rank zero. -/
theorem reduceWith_of_rank_zero (flat : m.rank = 0) (f : Monomial → Outcome Poly) :
    reduceWith f m = m.settle := by
  have deep : m.reach = 0 := by
    by_contra deep
    rw [rank, if_neg deep] at flat
    cases flat
  rw [rank, if_pos deep, List.length_eq_zero_iff] at flat
  have below := Vocabulary.excess_of_below (reach_le_iff.mp deep.le)
  have exponent : (takeTurn m.exp).1 = m.exp := by
    unfold takeTurn at flat ⊢
    split
    · rename_i found
      rw [found] at flat
      cases flat
    · rfl
  unfold reduceWith
  rw [excesses_eq_nil below, dropExcess_eq_self below, settle]
  cases settleFactors m.factors with
  | error e => rfl
  | ok s =>
    change ([] ++ (takeTurn m.exp).2).foldlM (Poly.mulWith f)
      (Poly.term ⟨s.2, (takeTurn m.exp).1⟩ s.1) = _
    rw [flat, exponent]
    rfl

theorem reduce_of_rank_zero (flat : m.rank = 0) : m.reduce = m.settle := by
  unfold reduce
  cases m.rootDepth with
  | zero => exact reduceWith_of_rank_zero flat _
  | succ n => exact reduceWith_of_rank_zero flat _

/-- What the monomials are like that an exact value is multiplied by. -/
structure Turned (m k : Monomial) : Prop where
  reaches : Reaches 0 k
  exponent : k.exp = (takeTurn m.exp).1

/-- No exact angle is left in them. -/
theorem Turned.rank (turned : Turned m k) : k.rank = 0 := by
  have deep : k.reach = 0 := Nat.le_zero.mp (reach_le_iff.mpr turned.reaches.below)
  rw [Monomial.rank, if_pos deep, turned.exponent, takeTurn, Vocabulary.takeTurn_turned]
  rfl

theorem Turned.combine (turned : Turned m k) {t s : Monomial} (within : Within 0 t)
    (plain : t.exp = .zero) (combined : k.combine t = .ok s) : Turned m s := by
  refine ⟨turned.reaches.combine within combined, ?_⟩
  obtain ⟨fs, -, done⟩ := bind_eq_ok combined
  cases done
  change Poly.add k.exp t.exp = _
  rw [plain, Poly.add_zero, turned.exponent]

theorem Turned.reduce (turned : Turned m k) : Yields k.reduce (·.All (Turned m)) := by
  rw [reduce_of_rank_zero turned.rank]
  have settled := settle_reaches turned.reaches
  have exponent : Yields k.settle (·.All (·.exp = (takeTurn m.exp).1)) :=
    Yields.bind_ok fun s _ =>
      Poly.All.term (P := (·.exp = (takeTurn m.exp).1)) (m := ⟨s.2, k.exp⟩) turned.exponent _
  exact (settled.and fun p ran => exponent.of_ok ran).mono fun p both t term =>
    ⟨both.1 t term, both.2 t term⟩

/-- Without roots that have reached their index only an exact value is multiplied by. -/
theorem reduceWith_congr_turn (indexed : m.Indexed) (deep : m.reach = 0)
    (lower : ∀ x : Monomial, x.Indexed → x.rank < m.rank → f x = x.reduce) :
    reduceWith f m = reduceWith reduce m := by
  rcases Nat.eq_zero_or_pos m.rank with flat | positive
  · rw [reduceWith_of_rank_zero flat, reduceWith_of_rank_zero flat]
  have on : CoincideOn (Turned m) (fun t => Within 0 t ∧ t.exp = .zero) f reduce := by
    intro s t k left right combined
    have turned := left.combine right.1 right.2 combined
    have less : k.rank < m.rank := by rwa [turned.rank]
    exact ⟨lower k turned.reaches.indexed less, turned.reduce⟩
  have below := Vocabulary.excess_of_below (reach_le_iff.mp deep.le)
  refine (reduceWith_coincide (fun x member p w reached => ?_) on
    (fun k rest => ⟨rest.reaches indexed 0, rest.choose_spec.2⟩) fun u member t term => ?_).same
  · rw [below x member] at reached
    cases reached
  · exact ⟨turn_within member t term, Vocabulary.turn_plain member t term⟩

/-- The products with radicands and exact values reach less deep. -/
theorem reduceWith_congr_root (indexed : m.Indexed) (deep : m.reach = d + 1)
    (lower : ∀ x : Monomial, x.Indexed → x.rank < m.rank → f x = x.reduce) :
    reduceWith f m = reduceWith reduce m := by
  have same {x : Monomial} (reaches : Reaches d x) : f x = x.reduce := by
    have small := rank_le_iff.mpr reaches.below
    have rank : m.rank = d + 2 := by rw [rank, if_neg (by omega), deep]
    exact lower x reaches.indexed (by omega)
  have on : CoincideOn (Reaches d) (Within d) f reduce := fun s t k left right combined =>
    have reaches := left.combine right combined
    ⟨same reaches, reduceAt_reaches _ reaches⟩
  have inside : CoincideOn (Within d) (Within d) f reduce := fun s t k left right combined =>
    have within := left.combine right combined
    ⟨same within.reaches, reduceAt_within _ within⟩
  refine (reduceWith_coincide (fun x member p w reached => ?_) on
    (fun k rest => rest.reaches indexed d) fun u => turn_within).same
  have depth : x.1.rootDepth ≤ d + 1 := by
    by_contra far
    rw [reach_le_iff.mp deep.le x member (not_le.mp far)] at reached
    cases reached
  exact inside.powWith within_one (excess_within (indexed x member) reached depth) w.toNat

/-- A round of reduction depends on the reduction of monomials of lower rank only. -/
theorem reduceWith_congr (indexed : m.Indexed)
    (lower : ∀ x : Monomial, x.Indexed → x.rank < m.rank → f x = x.reduce) :
    reduceWith f m = reduceWith reduce m := by
  cases deep : m.reach with
  | zero => exact reduceWith_congr_turn indexed deep lower
  | succ d => exact reduceWith_congr_root indexed deep lower

/-- A monomial is reduced alike by all rounds that cope with its roots. -/
theorem reduceAt_eq_reduce (indexed : m.Indexed) (below : Below n m) :
    reduceAt n m = m.reduce ∧ m.reduce = reduceWith reduce m := by
  suffices round : ∀ n, Below n m → reduceAt n m = reduceWith reduce m by
    have reduced : m.reduce = reduceWith reduce m := round m.rootDepth (below_rootDepth m)
    exact ⟨(round n below).trans reduced.symm, reduced⟩
  induction rank : m.rank using Nat.strong_induction_on generalizing m n with
  | _ r ih =>
    subst rank
    intro n below
    have small := rank_le_iff.mpr below
    cases n with
    | zero =>
      refine reduceWith_congr indexed fun x _ less => ?_
      exact (reduce_of_rank_zero (by omega)).symm
    | succ n =>
      refine reduceWith_congr indexed fun x indexed' less => ?_
      have below' : Below n x := rank_le_iff.mp (by omega)
      have round := ih x.rank less indexed' below' rfl
      exact (round n below').trans (round x.rootDepth (below_rootDepth x)).symm

/-- The recursion of reduction. -/
theorem reduce_eq_reduceWith (indexed : m.Indexed) : m.reduce = reduceWith reduce m :=
  (reduceAt_eq_reduce indexed (below_rootDepth m)).2

/-- A round that has the reduction of lower ranks at its disposal is the reduction. -/
theorem reduceWith_eq_reduce (indexed : m.Indexed)
    (lower : ∀ x : Monomial, x.Indexed → x.rank < m.rank → f x = x.reduce) :
    reduceWith f m = m.reduce :=
  (reduceWith_congr indexed lower).trans (reduce_eq_reduceWith indexed).symm

/-- Reduction by recursion on the rank. -/
def reduceByRank (m : Monomial) : Outcome Poly :=
  reduceWith (fun x => if x.rank < m.rank then reduceByRank x else .ok .zero) m
termination_by m.rank

theorem reduceByRank_eq (indexed : m.Indexed) : m.reduceByRank = m.reduce := by
  induction rank : m.rank using Nat.strong_induction_on generalizing m with
  | _ r ih =>
    subst rank
    rw [reduceByRank]
    refine reduceWith_eq_reduce indexed fun x indexed' less => ?_
    rw [if_pos less]
    exact ih x.rank less indexed' rfl

/-- Nested rounds never come to their bottom, if they are more than the rank. -/
theorem iterate_eq_reduce (indexed : m.Indexed) (enough : m.rank < n)
    (f : Monomial → Outcome Poly) : reduceWith^[n] f m = m.reduce := by
  induction n generalizing m with
  | zero => cases enough
  | succ n ih =>
    rw [Function.iterate_succ_apply']
    exact reduceWith_eq_reduce indexed fun x indexed' less => ih indexed' (by omega)

end Monomial

/-! ## Termination -/

open Monomial (Within)

theorem iterate_coincideOn (enough : d + 1 < n) (f : Monomial → Outcome Poly) :
    CoincideOn (Within d) (Within d) (reduceWith^[n] f) Monomial.reduce := by
  intro s t k left right combined
  have within := left.combine right combined
  have small := Monomial.rank_le_iff.mpr within.reaches.below
  exact ⟨Monomial.iterate_eq_reduce within.reaches.indexed (by omega) f,
    Monomial.reduceAt_within _ within⟩

theorem Poly.Indexed.within (indexed : p.Indexed) (depth : p.rootDepth ≤ n) : p.All (Within n) :=
  fun t term => Monomial.Indexed.within (indexed t term) ((rootDepth_of_mem term).trans depth)

/-- Reduction terminates: it is a recursion on the rank, and whatever stands below
sufficiently many nested rounds, in a reduction, a product or a power, is never called.
A root that is multiplied out is replaced by structurally smaller atoms. -/
theorem reduction_terminates :
    (∀ m : Monomial, m.Indexed →
      (∀ f, (∀ x : Monomial, x.Indexed → x.rank < m.rank → f x = x.reduce) →
        reduceWith f m = m.reduce) ∧
      (m.reduceByRank = reduceWith Monomial.reduceByRank m ∧ m.reduceByRank = m.reduce) ∧
      ∀ f n, m.rank < n → reduceWith^[n] f m = m.reduce) ∧
    (∀ p q : Poly, p.Indexed → q.Indexed → ∀ f n, max p.rootDepth q.rootDepth + 1 < n →
      p.mulWith (reduceWith^[n] f) q = p.mul q) ∧
    (∀ p : Poly, p.Indexed → ∀ f n k, p.rootDepth + 1 < n →
      p.powWith (reduceWith^[n] f) k = p.pow k) ∧
    ∀ (a : Atom) (j : Int) (p : Poly) (w : Int), excess? a j = some (p, w) →
      ∀ t ∈ p.terms, ∀ x ∈ t.1.factors, sizeOf x.1 < sizeOf a ∧ x.1.rootDepth < a.rootDepth := by
  refine ⟨fun m indexed => ⟨fun f => Monomial.reduceWith_eq_reduce indexed, ⟨?_, ?_⟩,
    fun f n enough => Monomial.iterate_eq_reduce indexed enough f⟩,
    fun p q left right f n enough => ?_, fun p indexed f n k enough => ?_,
    fun a j p w reached t term x member => Monomial.excess_smaller reached term member⟩
  · rw [Monomial.reduceByRank_eq indexed]
    exact (Monomial.reduceWith_eq_reduce indexed fun x indexed' _ =>
      Monomial.reduceByRank_eq indexed').symm
  · exact Monomial.reduceByRank_eq indexed
  · have on := iterate_coincideOn enough f
    exact (on.mulWith (left.within (le_max_left _ _)) (right.within (le_max_right _ _))).same
  · have on := iterate_coincideOn enough f
    exact (on.powWith Monomial.within_one (indexed.within le_rfl) k).same

/-- `sqrt(1 + x)`. -/
def innerSurd : Atom := .root ⟨[(.one, 1), (.ofAtom (.symbol "x") 1, 1)]⟩ 2

/-- `sqrt(1 + sqrt(1 + x))`. -/
def outerSurd : Atom := .root ⟨[(.one, 1), (.ofAtom innerSurd 1, 1)]⟩ 2

/-- `sqrt(1 + sqrt(1 + x))^4·exp(i·π/2)`. -/
def surdPower : Monomial := ⟨[(outerSurd, 4)], .term .halfTurn (1 / 2)⟩

/-- `i·(2 + x + 2·sqrt(1 + x))`. -/
def surdPowerReduced : Poly :=
  ⟨[(⟨[(.symbol "x", 1), (.imaginary, 1)], .zero⟩, 1), (.ofAtom .imaginary 1, 2),
    (⟨[(.imaginary, 1), (innerSurd, 1)], .zero⟩, 2)]⟩

theorem indexed_outerSurd : outerSurd.Indexed := by
  have symbol : (Atom.symbol "x").Indexed := .other nofun
  have inner : innerSurd.Indexed :=
    .root two_ne_zero (by simpa [Monomial.one, Monomial.ofAtom] using symbol)
  exact .root two_ne_zero (by simpa [Monomial.one, Monomial.ofAtom] using inner)

theorem reduction_terminates_surdPower :
    surdPower.Indexed ∧ surdPower.rank = 3 ∧ surdPower.reduce = .ok surdPowerReduced ∧
      (∀ f, reduceWith^[4] f surdPower = .ok surdPowerReduced) ∧
      ∀ f k,
        (Poly.ofAtom outerSurd).powWith (reduceWith^[4] f) k = (Poly.ofAtom outerSurd).pow k := by
  have indexed : surdPower.Indexed := List.forall_mem_singleton.mpr indexed_outerSurd
  have indexed' : (Poly.ofAtom outerSurd).Indexed :=
    List.forall_mem_singleton.mpr (List.forall_mem_singleton.mpr indexed_outerSurd)
  have rank : surdPower.rank = 3 := by decide_cbv
  have depth : (Poly.ofAtom outerSurd).rootDepth = 2 := by decide_cbv
  have reduced : surdPower.reduce = .ok surdPowerReduced := by decide_cbv
  obtain ⟨monomials, -, powers, -⟩ := reduction_terminates
  refine ⟨indexed, rank, reduced, fun f => ?_, fun f k => ?_⟩
  · exact ((monomials surdPower indexed).2.2 f 4 (by omega)).trans reduced
  · exact powers _ indexed' f 4 k (by omega)

end Discharge
