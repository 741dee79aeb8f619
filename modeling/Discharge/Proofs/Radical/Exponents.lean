import Discharge.Proofs.Normal.Factors
import Discharge.Proofs.Radical.Independence
import Discharge.Proofs.Radical.Settled

/-! Exponents of radicals. The roots among the factors of a monomial make a
product of radicals; where the factors are settled, the product is reduced. -/

namespace Discharge

/-- If the atom is a root, then it is one of the system. -/
def Atom.RootIn (R : Set (ℕ × ℕ)) : Atom → Prop
  | .root p k => ∃ n : ℕ, p = .constant (n : ℕ) ∧ (n, k) ∈ R
  | _ => True

namespace Radical

open Monomial (Increasing exponentIn)

/-- The radicand that a polynomial stands for. -/
def radicand (p : Poly) : ℕ := (p.constant?.getD 0).num.natAbs

/-- The exponents of the roots. -/
noncomputable def radicals : List (Atom × Int) → ℕ × ℕ →₀ ℤ
  | [] => 0
  | (.root p k, n) :: fs => .single (radicand p, k) n + radicals fs
  | _ :: fs => radicals fs

variable {R : Set (ℕ × ℕ)} {fs : List (Atom × Int)}

theorem radicand_constant (n : ℕ) : radicand (.constant (n : ℚ)) = n := by
  simp [radicand, Poly.constant?_constant]

theorem radicals_root (b : ℕ × ℕ) (n : Int) (fs : List (Atom × Int)) :
    radicals ((.root (.constant ((b.1 : ℕ) : ℚ)) b.2, n) :: fs) = .single b n + radicals fs := by
  rw [radicals, radicand_constant]

theorem radicals_apply (increasing : Increasing fs) (known : ∀ f ∈ fs, f.1.RootIn R) (b : ℕ × ℕ) :
    radicals fs b = exponentIn fs (.root (.constant ((b.1 : ℕ) : ℚ)) b.2) := by
  induction fs with
  | nil => simp [radicals]
  | cons f fs ih =>
    obtain ⟨a, n⟩ := f
    obtain ⟨behind, rest⟩ := Monomial.increasing_cons.mp increasing
    obtain ⟨head, tail⟩ := List.forall_mem_cons.mp known
    rw [Monomial.exponentIn_cons]
    cases a with
    | root p k =>
      obtain ⟨c, rfl, -⟩ := head
      rw [radicals_root (c, k), Finsupp.add_apply, ih rest tail]
      by_cases same : b = (c, k)
      · subst same
        rw [if_pos rfl, Finsupp.single_eq_same, Monomial.exponentIn_of_behind behind, add_zero]
      · have other : Atom.root (.constant ((b.1 : ℕ) : ℚ)) b.2 ≠
            .root (.constant ((c : ℕ) : ℚ)) k := by
          intro equal
          obtain ⟨radicands, indices⟩ := Atom.root.inj equal
          refine same (Prod.ext ?_ indices)
          have radicands := congrArg radicand radicands
          rwa [radicand_constant, radicand_constant] at radicands
        rw [if_neg other, Finsupp.single_eq_of_ne same, zero_add]
    | _ => exact (ih rest tail).trans (if_neg nofun).symm

theorem radicals_support (increasing : Increasing fs) (known : ∀ f ∈ fs, f.1.RootIn R)
    {b : ℕ × ℕ} (occurs : b ∈ (radicals fs).support) :
    b ∈ R ∧ (.root (.constant ((b.1 : ℕ) : ℚ)) b.2, radicals fs b) ∈ fs := by
  rw [Finsupp.mem_support_iff, radicals_apply increasing known] at occurs
  have member := Monomial.mem_of_exponentIn occurs
  rw [← radicals_apply increasing known] at member
  refine ⟨?_, member⟩
  obtain ⟨c, radicands, inside⟩ := known _ member
  have radicands := congrArg radicand radicands
  rw [radicand_constant, radicand_constant] at radicands
  rwa [← radicands] at inside

/-- The exponents of settled factors are reduced. -/
theorem radicals_reduced (system : Independent R) (increasing : Increasing fs)
    (known : ∀ f ∈ fs, f.1.RootIn R) (settled : ∀ f ∈ fs, Monomial.SettledFactor f) :
    Reduced R (radicals fs) := by
  intro b occurs
  obtain ⟨inside, member⟩ := radicals_support increasing known occurs
  exact ⟨inside, settled _ member _ _ _ rfl (Poly.constant?_constant _) (system.proper b inside)⟩

end Radical

end Discharge
