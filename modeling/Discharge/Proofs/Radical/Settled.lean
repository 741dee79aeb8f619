import Discharge.Proofs.Canonical.Class

/-! Settled polynomials. In what a reduction returns, roots of constants have
exponents between zero and their index; that class is closed under arithmetic. -/

namespace Discharge

/-! ## Settled factors -/

namespace Monomial

/-- The exponent of a root of a constant is between zero and the index. -/
def SettledFactor (f : Atom × Int) : Prop :=
  ∀ p k c, f.1 = .root p k → p.constant? = some c → 2 ≤ k → 0 < f.2 ∧ f.2 < k

/-- All factors are settled. -/
def Settled (m : Monomial) : Prop := ∀ f ∈ m.factors, SettledFactor f

theorem settled_one : Settled .one := fun _ member => absurd member List.not_mem_nil

/-- Atoms without an exponent are settled. -/
theorem settledFactor_of_one {f : Atom × Int} (one : f.2 = 1) : SettledFactor f := by
  intro p k c _ _ proper
  rw [one]
  omega

theorem settleFactor_settledFactor (a : Atom) (n : Int) :
    Yields (settleFactor a n) fun s => s.2 ≠ 0 → SettledFactor (a, s.2) := by
  cases ran : settleFactor a n with
  | error e => trivial
  | ok s =>
    rintro left p k c rfl constant proper
    simp only [settleFactor, constant] at ran
    obtain ⟨power, -, ran⟩ := bind_eq_ok ran
    cases ran
    have low := Int.emod_nonneg n (b := k) (by omega)
    have high := Int.emod_lt_of_pos n (b := k) (by omega)
    exact ⟨by omega, high⟩

theorem settleFactors_settled (fs : List (Atom × Int)) :
    Yields (settleFactors fs) fun s => ∀ f ∈ s.2, SettledFactor f := by
  induction fs with
  | nil => exact fun _ member => absurd member List.not_mem_nil
  | cons f fs ih =>
    obtain ⟨a, n⟩ := f
    refine .bind (settleFactor_settledFactor a n) fun s settled => .bind ih fun t rest => ?_
    change ∀ f ∈ (if s.2 = 0 then t.2 else (a, s.2) :: t.2), SettledFactor f
    split
    · exact rest
    · exact List.forall_mem_cons.mpr ⟨settled ‹_›, rest⟩

end Monomial

/-! ## Settled polynomials -/

namespace Poly

open Monomial (Settled)

variable {p q : Poly} {m : Monomial} {lower : Monomial → Outcome Poly}

theorem settled_constant (c : Rat) : (constant c).All Settled := .term Monomial.settled_one c

theorem settled_ofAtom (a : Atom) : (ofAtom a).All Settled := by
  intro t member f factor
  rw [List.mem_singleton.mp member] at factor
  rw [List.mem_singleton.mp factor]
  exact Monomial.settledFactor_of_one rfl

/-- Roots of integers have no exponents. -/
theorem settled_integerRadical (n index : Nat) : (integerRadical n index).All Settled := by
  have each : ∀ (ns : List Nat) (fs : List (Atom × Int)), (∀ f ∈ fs, f.2 = 1) →
      ∀ f ∈ ns.foldl (fun fs r => Monomial.setCount (.root (constant (r : Nat)) index) 1 fs) fs,
        f.2 = 1 := by
    intro ns
    induction ns with
    | nil => exact fun fs start => start
    | cons n ns ih =>
      refine fun fs start => ih _ fun f member => ?_
      rcases Monomial.mem_setCount member with rfl | old
      · rfl
      · exact start f old
  exact .term (fun f member => Monomial.settledFactor_of_one
    (each _ [] (fun _ member => absurd member List.not_mem_nil) f member)) _

end Poly

namespace Monomial

variable {lower : Monomial → Outcome Poly}

theorem settle_settled (m : Monomial) : Yields m.settle (·.All Settled) :=
  .bind (settleFactors_settled m.factors) fun _ settled => .term settled _

theorem reduceWith_settled (each : ∀ m, Yields (lower m) (·.All Settled)) (m : Monomial) :
    Yields (reduceWith lower m) (·.All Settled) := by
  have products : ∀ (ps : List Poly) (p : Poly), p.All Settled →
      Yields (ps.foldlM (Poly.mulWith lower) p) (·.All Settled) := by
    intro ps
    induction ps with
    | nil => exact fun p settled => settled
    | cons q ps ih =>
      intro p _
      rw [List.foldlM_cons]
      exact .bind (Poly.mulWith_yields fun _ _ _ _ k _ => each k) fun r settled => ih r settled
  refine .bind (settleFactors_settled (dropExcess m.factors)) fun s settled => ?_
  exact Yields.bind_ok fun powers _ => products _ _ (.term settled _)

theorem reduceAt_settled (n : Nat) (m : Monomial) : Yields (reduceAt n m) (·.All Settled) := by
  induction n generalizing m with
  | zero => exact reduceWith_settled settle_settled m
  | succ n ih => exact reduceWith_settled ih m

/-- The canonical form of a monomial is settled. -/
theorem reduce_settled (m : Monomial) : Yields m.reduce (·.All Settled) :=
  reduceAt_settled m.rootDepth m

end Monomial

namespace Poly

open Monomial (Settled)

theorem mul_settled (p q : Poly) : Yields (p.mul q) (·.All Settled) :=
  mulWith_yields fun _ _ _ _ k _ => Monomial.reduce_settled k

theorem shift_settled (p : Poly) (m : Monomial) : Yields (p.shift m) (·.All Settled) :=
  shift_yields fun _ _ k _ => Monomial.reduce_settled k

theorem conjugator_settled {p : Poly} (settled : p.All Settled) (surd : Atom) :
    (Fraction.conjugator p surd).All Settled := by
  unfold Fraction.conjugator
  split
  · exact settled_ofAtom surd
  · exact settled.conjugate surd

/-- All terms are settled. -/
def Settled (p : Poly) : Prop := p.All Monomial.Settled

/-- Settled polynomials are what arithmetic computes with. -/
theorem settledClass : Class Poly.Settled where
  constant := settled_constant
  add := .add
  scale := .scale
  mul _ _ := mul_settled _ _
  conjugator settled _ := conjugator_settled settled _
  common _ _ _ := shift_settled _ _
  single _ _ _ := shift_settled _ _

end Poly

end Discharge
