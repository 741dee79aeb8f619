import Mathlib
import Discharge.Proofs.Canonical.Roots
import Discharge.Proofs.Formal.Faithful
import Discharge.Proofs.Rational.Normalisation

/-! Powers of roots of rational expressions. The roots that are made on the way are
adjoined to the field, so that the power and the fraction have one value, and the
difference of equal values is the empty polynomial. -/

namespace Discharge

variable {R : Set (ℕ × ℕ)} {S : Finset Atom} {max k : Nat} {r : Fraction} {p : Poly} {q : Rat}

theorem Radical.independent_empty : Radical.Independent ∅ :=
  Radical.independent_of_primes (by simp) (by simp) (by simp)

namespace RationalFunction

/-- Polynomials in symbols have no roots, and no exponents. -/
theorem tame_of_admits (admitted : valuation.AdmitsPoly p) :
    p.All fun m => m.Tame R ∧ m.exp.Every (Nonnegative S) := by
  intro t member
  have inside := admitted.all t member
  rw [exp_eq_zero inside]
  refine ⟨⟨fun f factor => ?_, ?_⟩, Poly.every_zero⟩
  · obtain ⟨s, symbol⟩ := (inside.factor f factor).known
    rw [symbol]
    trivial
  · rw [exp_eq_zero inside]
    exact .zero

theorem rootsIn_of_admits (admitted : valuation.AdmitsPoly p) :
    p.All (Monomial.RootsIn R S) :=
  (tame_of_admits admitted).mono fun _ holds =>
    ⟨fun f member => .inl (holds.1.1 f member), holds.1.2, holds.2⟩

theorem Denotes.rootsIn {f : RationalFunction} (denotes : valuation.Denotes r f) :
    r.RootsIn R S :=
  ⟨rootsIn_of_admits denotes.num, tame_of_admits denotes.den,
    Valuation.isZero_of_value denotes.regular⟩

/-- The roots that the root of a rational function is made of can be adjoined. -/
theorem adjoinable_surds {f : RationalFunction} (denotes : valuation.Denotes r f) (proper : 2 ≤ k) :
    Adjoinable ∅ (r.surds k).toFinset := by
  have constant (n : Nat) : (Poly.constant n).All (Monomial.RootsIn ∅ (r.surds k).toFinset) :=
    rootsIn_of_admits (.constant n)
  have each : ∀ a ∈ r.surds k, ∃ p, a = .root p k ∧
      p.All (Monomial.RootsIn ∅ (r.surds k).toFinset) := by
    have radicals (q : Rat) : ∀ a ∈ Poly.radicals q k, ∃ p, a = .root p k ∧
        p.All (Monomial.RootsIn ∅ (r.surds k).toFinset) := fun a member => by
      obtain ⟨n, rfl⟩ := Poly.radicals_root member
      exact ⟨_, rfl, constant n⟩
    generalize (r.surds k).toFinset = S at radicals ⊢
    unfold Fraction.surds
    split
    · exact radicals _
    · rename_i p _ ran
      have lifted := (Valuation.lifted_yields dividing.lawful denotes.num denotes.den k).of_ok ran
      exact List.forall_mem_cons.mpr
        ⟨⟨_, rfl, rootsIn_of_admits (lifted.1.scale _)⟩, radicals _⟩
    · exact fun a member => absurd member List.not_mem_nil
  refine ⟨fun a member => ?_, fun a member root => ?_, fun p l member => ?_⟩
  · obtain ⟨p, rfl, -⟩ := each a (List.mem_toFinset.mp member)
    exact ⟨p, k, rfl, proper⟩
  · obtain ⟨p, rfl, -⟩ := each a (List.mem_toFinset.mp member)
    obtain ⟨n, -, impossible⟩ := root
    exact impossible
  · obtain ⟨p', same, inside⟩ := each _ (List.mem_toFinset.mp member)
    rw [(Atom.root.inj same).1]
    exact inside

/-- The power of the root of a rational expression is the expression. -/
theorem power_of_root (fits : fitsInt64 max = true) {e : Expr} (rational : e.IsRational)
    (ran : Fraction.ofExpr max e = .ok r) (proper : 2 ≤ k) (index : fitsInt64 k = true)
    (limit : Nat) {s t d : Fraction} (root : r.root k = .ok s) (power : s.powInt k limit = .ok t)
    (difference : t.sub r = .ok d) : d.isZero = true := by
  obtain ⟨f, -, value⟩ := (normalises max rational).of_ok ran
  have system := Radical.independent_empty
  have adjoinable := adjoinable_surds value.denotes proper
  obtain ⟨A, _, _, _, E, rooted⟩ := adjoinable.exists_rooted max
  have := E.nontrivial
  have cancelling := E.cancelling system adjoinable rooted
  have canonical := (Fraction.ofExpr_canonical fits e).of_ok ran
  have represents := E.represents_of_rootsIn system adjoinable rooted
    (Denotes.rootsIn value.denotes) canonical
  have known : ∀ a ∈ r.surds k, (E.valuation ∅ max).known a := fun a member =>
    ⟨.inr (List.mem_toFinset.mpr member),
      Fraction.surds_canonical proper index canonical.belongs a member⟩
  obtain ⟨y, first, whole⟩ := (represents.root cancelling proper index ⟨.inl trivial, trivial⟩
    known).of_ok root
  have second := (first.powNat cancelling k limit).of_ok power
  have third := (second.add cancelling (represents.neg cancelling)).of_ok difference
  rw [← whole, add_neg_cancel] at third
  exact E.isZero_of_represents system adjoinable third

end RationalFunction

/-- Roots are roots. The power of a root of a rational expression is the expression, as
far as the guards admit both, and a constant has a root unless it is negative and the
index is even and not two. -/
theorem roots_are_roots (max k : Nat) (bounded : max ≤ 4294967295) (proper : 2 ≤ k)
    (index : k ≤ 4294967295) :
    (∀ (e : Expr) (r : Fraction), e.IsRational → Fraction.ofExpr max e = .ok r →
      ∀ (limit : Nat) (s t d : Fraction), r.root k = .ok s → s.powInt k limit = .ok t →
        t.sub r = .ok d → d.isZero = true) ∧
    ∀ (r : Fraction) (q : Rat), r.constant? = some q →
      ((∃ e, r.root k = .error e) ↔ q < 0 ∧ k % 2 = 0 ∧ 2 < k) ∧
      ∀ e, r.root k = .error e → ∃ text, e = .unsupported text := by
  have fits {n : Nat} (below : n ≤ 4294967295) : fitsInt64 n = true := by
    rw [Monomial.fitsInt64_iff]
    omega
  refine ⟨fun e r rational ran limit s t d root power difference => ?_, fun r q constant => ?_⟩
  · exact RationalFunction.power_of_root (fits bounded) rational ran proper (fits index) limit root
      power difference
  · rw [Fraction.root_of_constant proper constant]
    refine ⟨?_, fun e failed => ?_⟩
    · rw [← Poly.rationalRadical_error_iff proper q]
      cases Poly.rationalRadical q k with
      | error e => exact iff_of_true ⟨e, rfl⟩ ⟨e, rfl⟩
      | ok p =>
        exact iff_of_false (fun ⟨e, failed⟩ => nomatch failed) fun ⟨e, failed⟩ => nomatch failed
    · cases ran : Poly.rationalRadical q k with
      | error e' =>
        rw [ran] at failed
        cases failed
        exact Poly.rationalRadical_error proper ran
      | ok p =>
        rw [ran] at failed
        cases failed

/-- `8*x/(1 + y)`. -/
def positiveQuotient : Expr :=
  .product [.number 8, .symbol "x", .power (.sum [.number 1, .symbol "y"]) (.int (-1))]

theorem positiveQuotient_rational : positiveQuotient.IsRational := by
  refine .product (List.forall_mem_cons.mpr ⟨.number 8, List.forall_mem_cons.mpr ⟨.symbol "x",
    List.forall_mem_singleton.mpr (.power (-1) (.sum ?_))⟩⟩)
  exact List.forall_mem_cons.mpr ⟨.number 1, List.forall_mem_singleton.mpr (.symbol "y")⟩

theorem roots_are_roots_fourth :
    (∃ r s t d, Fraction.ofExpr 64 positiveQuotient = .ok r ∧ r.root 4 = .ok s ∧
      s.powInt 4 64 = .ok t ∧ t.sub r = .ok d ∧ d.isZero = true) ∧
    ∃ e, (Fraction.constant (-16)).root 4 = .error e ∧ ∃ text, e = .unsupported text := by
  obtain ⟨powers, constants⟩ := roots_are_roots 64 4 (by decide) (by decide) (by decide)
  have ran : (Fraction.ofExpr 64 positiveQuotient >>= fun r => r.root 4 >>= fun s =>
      s.powInt 4 64 >>= fun t => t.sub r) = .ok .zero := by decide +kernel
  obtain ⟨r, form, ran⟩ := bind_eq_ok ran
  obtain ⟨s, root, ran⟩ := bind_eq_ok ran
  obtain ⟨t, power, difference⟩ := bind_eq_ok ran
  obtain ⟨fails, unsupported⟩ := constants (.constant (-16)) (-16)
    ((Fraction.constant_ofPoly _).trans (Poly.constant?_constant _))
  obtain ⟨e, failed⟩ := fails.mpr (by norm_num)
  exact ⟨⟨r, s, t, .zero, form, root, power, difference,
    powers positiveQuotient r positiveQuotient_rational form 64 s t .zero root power difference⟩,
    e, failed, unsupported e failed⟩

end Discharge
