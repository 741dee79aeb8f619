import Discharge.Oracle
import Discharge.Proofs.Formal.Faithful
import Discharge.Proofs.Trail

/-! Powers and products of canonical forms. As long as no root of a polynomial has a
negative exponent, all ways to multiply the same factors give the same canonical form:
repeated squaring and multiplying one by one, and both ways to group three factors.
Powers of such a root below its index are independent, so that two canonical forms of
one value are equal. Negative powers are not: the square of a root times its inverse
is not reduced to the root. -/

namespace Discharge

variable {R : Set (ℕ × ℕ)} {S : Finset Atom} {max : Nat} {e a b c : Expr}

/-- The canonical form, if there is one, has no other roots among its factors than
those of the system and adjoined ones. -/
def Expr.RootsIn (R : Set (ℕ × ℕ)) (S : Finset Atom) (max : Nat) (e : Expr) : Prop :=
  ∀ r, Fraction.ofExpr max e = .ok r → r.RootsIn R S

theorem Expr.RootsIn.of_eq {r : Fraction} (ran : Fraction.ofExpr max e = .ok r)
    (roots : r.RootsIn R S) : e.RootsIn R S max := by
  intro s same
  cases ran.symm.trans same
  exact roots

/-- The power and the repeated product, written as a sum. -/
def Expr.powerDefect (e : Expr) (n : Nat) : Expr :=
  .sum [.power e (.int n), .product (.int (-1) :: List.replicate n e)]

/-- Both ways to group three factors, written as a sum. -/
def Expr.groupingDefect (a b c : Expr) : Expr :=
  .sum [.product [.product [a, b], c], .product [.int (-1), a, .product [b, c]]]

namespace Formal.Adjunction

variable {A : Type} [CommRing A] [Algebra ℚ A] [Algebra Formal A] (E : Adjunction S A)
  (system : Radical.Independent R) (adjoinable : Adjoinable R S)

include system adjoinable

/-- What has the value zero is zero. -/
theorem isZero_of_evaluates
    (evaluates : (E.valuation R max).Evaluates (Poly.Canonical max) max e 0) :
    Yields (Fraction.ofExpr max e) (·.isZero = true) := by
  exact Ensures.mono evaluates fun r represents => E.isZero_of_represents system adjoinable represents

variable (rooted : E.Rooted R max)

include rooted

theorem exists_evaluates (fits : fitsInt64 max = true) (roots : e.RootsIn R S max) :
    ∃ x, (E.valuation R max).Evaluates (Poly.Canonical max) max e x := by
  cases ran : Fraction.ofExpr max e with
  | error e =>
    refine ⟨0, ?_⟩
    unfold Valuation.Evaluates
    rw [ran]
    trivial
  | ok r =>
    exact ⟨_, .of_eq ran (E.represents_of_rootsIn system adjoinable rooted (roots r ran)
      ((Fraction.ofExpr_canonical fits e).of_ok ran))⟩

theorem powerDefect_isZero (fits : fitsInt64 max = true) (roots : e.RootsIn R S max) (n : Nat) :
    Yields (Fraction.ofExpr max (e.powerDefect n)) (·.isZero = true) := by
  have := E.nontrivial
  have cancelling := E.cancelling system adjoinable rooted
  obtain ⟨x, value⟩ := E.exists_evaluates system adjoinable rooted fits roots
  have factors : List.Forall₂ ((E.valuation R max).Evaluates (Poly.Canonical max) max)
      (List.replicate n e) (List.replicate n x) := by
    induction n with
    | zero => exact .nil
    | succ n ih => exact .cons value ih
  have power := value.power cancelling n
  have product := Valuation.Evaluates.product cancelling
    (.cons (.number cancelling.closed (-1)) factors)
  have difference := Valuation.Evaluates.sum cancelling (.cons power (.cons product .nil))
  rw [List.prod_cons, List.prod_replicate, List.sum_pair, map_neg, map_one, neg_one_mul,
    add_neg_cancel] at difference
  exact E.isZero_of_evaluates system adjoinable difference

theorem groupingDefect_isZero (fits : fitsInt64 max = true) (first : a.RootsIn R S max)
    (second : b.RootsIn R S max) (third : c.RootsIn R S max) :
    Yields (Fraction.ofExpr max (a.groupingDefect b c)) (·.isZero = true) := by
  have := E.nontrivial
  have cancelling := E.cancelling system adjoinable rooted
  obtain ⟨x, value⟩ := E.exists_evaluates system adjoinable rooted fits first
  obtain ⟨y, value'⟩ := E.exists_evaluates system adjoinable rooted fits second
  obtain ⟨z, value''⟩ := E.exists_evaluates system adjoinable rooted fits third
  have left := Valuation.Evaluates.product cancelling
    (.cons (.product cancelling (.cons value (.cons value' .nil))) (.cons value'' .nil))
  have right := Valuation.Evaluates.product cancelling
    (.cons (.number cancelling.closed (-1)) (.cons value
      (.cons (.product cancelling (.cons value' (.cons value'' .nil))) .nil)))
  have difference := Valuation.Evaluates.sum cancelling (.cons left (.cons right .nil))
  simp only [List.prod_cons, List.prod_nil, List.sum_pair, map_neg, map_one, mul_one, neg_one_mul,
    mul_assoc, add_neg_cancel] at difference
  exact E.isZero_of_evaluates system adjoinable difference

end Formal.Adjunction

/-- Powers are repeated products, and products do not depend on the grouping, for
expressions whose canonical forms have no other roots among the factors than those of
an independent system of roots of integers and finitely many more, which may be
nested in each other but have no negative exponents. -/
theorem products_associate (system : Radical.Independent R) (adjoinable : Adjoinable R S)
    (guards : Guards) (bounded : guards.maxPower ≤ 4294967295) :
    (∀ (e : Expr) (n : Nat) (zero : Bool), e.RootsIn R S guards.maxPower →
      (Oracle.exact guards).isZero (.power e (.int n) - .product (List.replicate n e)) = .ok zero →
      zero = true) ∧
    ∀ (a b c : Expr) (zero : Bool), a.RootsIn R S guards.maxPower →
      b.RootsIn R S guards.maxPower → c.RootsIn R S guards.maxPower →
      (Oracle.exact guards).isZero
        (.product [.product [a, b], c] - .product [a, .product [b, c]]) = .ok zero →
      zero = true := by
  have fits : fitsInt64 guards.maxPower = true := by
    rw [Monomial.fitsInt64_iff]
    omega
  obtain ⟨A, _, _, _, E, rooted⟩ := adjoinable.exists_rooted guards.maxPower
  refine ⟨fun e n zero roots ran => ?_, fun a b c zero first second third ran => ?_⟩
  · obtain ⟨r, normal, rfl⟩ := map_eq_ok ran
    exact (E.powerDefect_isZero system adjoinable rooted fits roots n).of_ok normal
  · obtain ⟨r, normal, rfl⟩ := map_eq_ok ran
    exact (E.groupingDefect_isZero system adjoinable rooted fits first second third).of_ok normal

/-! ## An instance -/

namespace NestedRoots

/-- `sqrt(x)`. -/
def inner : Atom := .root (.ofAtom (.symbol "x")) 2

/-- `sqrt(1 + sqrt(x))`. -/
def outer : Atom := .root (.add .one (.ofAtom inner)) 2

/-- The same as a tree. -/
def outerTree : Expr := .apply .sqrt (.sum [.number 1, .apply .sqrt (.symbol "x")])

/-- `sqrt(1 + sqrt(x)) + sqrt(2)*y*exp(sqrt(x))`. -/
def sumTree : Expr :=
  .sum [outerTree, .product [.apply .sqrt (.number 2), .symbol "y",
    .apply .exp (.apply .sqrt (.symbol "x"))]]

def sumForm : Poly :=
  .add (.ofAtom outer)
    (.term ⟨[(.symbol "y", 1), (.root (.constant 2) 2, 1)], .ofAtom inner⟩ 1)

/-- `sqrt(1 + sqrt(x))/(1 + exp(sqrt(1 + sqrt(x))))`. -/
def quotientTree : Expr :=
  .product [outerTree, .power (.sum [.number 1, .apply .exp outerTree]) (.int (-1))]

def quotientForm : Fraction :=
  ⟨.ofAtom outer, .add .one (.term (.exponential (.ofAtom outer)) 1)⟩

/-- Both roots are adjoined. -/
def roots : Finset Atom := {inner, outer}

/-- The exponent of an exponential may be one of the roots. -/
theorem inside_ofAtom (a : Atom) : (Poly.ofAtom a).All (· ≠ .halfTurn) ∧
    (Poly.ofAtom a).Every (Nonnegative roots) := by
  refine ⟨fun t member => ?_, Poly.every_iff.mpr fun t member => ?_⟩
  · rw [List.mem_singleton.mp member]
    intro same
    cases same
  · rw [List.mem_singleton.mp member]
    refine Monomial.every_iff.mpr ⟨fun f factor _ => ?_, Poly.every_zero⟩
    rw [List.mem_singleton.mp factor]
    exact Int.one_nonneg

theorem adjoinable : Adjoinable {(2, 2)} roots where
  proper a member := by
    rcases Finset.mem_insert.mp member with rfl | member
    · exact ⟨_, _, rfl, le_rfl⟩
    · rw [Finset.mem_singleton.mp member]
      exact ⟨_, _, rfl, le_rfl⟩
  outside a member root := by
    have proper : (Poly.add .one (.ofAtom inner)).constant? = none := by decide_cbv
    rcases Finset.mem_insert.mp member with rfl | member
    · obtain ⟨n, same, -⟩ := root
      cases (congrArg Poly.constant? same).trans (Poly.constant?_constant n)
    · rw [Finset.mem_singleton.mp member] at root
      obtain ⟨n, same, -⟩ := root
      rw [same, Poly.constant?_constant] at proper
      cases proper
  radicand p k member := by
    rcases Finset.mem_insert.mp member with same | member
    · obtain ⟨rfl, rfl⟩ := Atom.root.inj same
      exact Poly.rootsIn_ofAtom (.inl trivial)
    · obtain ⟨rfl, rfl⟩ := Atom.root.inj (Finset.mem_singleton.mp member)
      exact (Poly.rootsIn_constant 1).add
        (Poly.rootsIn_ofAtom (.inr (Finset.mem_insert_self _ _)))

theorem outer_mem : outer ∈ roots := Finset.mem_insert_of_mem (Finset.mem_singleton_self _)

theorem outer_rootsIn : outerTree.RootsIn {(2, 2)} roots 64 := by
  have ran : Fraction.ofExpr 64 outerTree = .ok (.ofPoly (.ofAtom outer)) := by decide_cbv
  exact .of_eq ran ⟨Poly.rootsIn_ofAtom (.inr outer_mem), Poly.tame_constant 1, rfl⟩

theorem sum_rootsIn : sumTree.RootsIn {(2, 2)} roots 64 := by
  have ran : Fraction.ofExpr 64 sumTree = .ok (.ofPoly sumForm) := by decide_cbv
  obtain ⟨angles, nonneg⟩ := inside_ofAtom inner
  have number : (Atom.root (.constant 2) 2).RootIn {(2, 2)} := ⟨2, rfl, rfl⟩
  have product : Monomial.RootsIn {(2, 2)} roots
      ⟨[(.symbol "y", 1), (.root (.constant 2) 2, 1)], .ofAtom inner⟩ :=
    ⟨List.forall_mem_cons.mpr ⟨.inl trivial, List.forall_mem_singleton.mpr (.inl number)⟩, angles,
      nonneg⟩
  have num : sumForm.All (Monomial.RootsIn {(2, 2)} roots) :=
    .add (Poly.rootsIn_ofAtom (.inr outer_mem)) (.term product 1)
  exact .of_eq ran ⟨num, Poly.tame_constant 1, rfl⟩

theorem quotient_rootsIn : quotientTree.RootsIn {(2, 2)} roots 64 := by
  have ran : Fraction.ofExpr 64 quotientTree = .ok quotientForm := by decide_cbv
  obtain ⟨angles, nonneg⟩ := inside_ofAtom outer
  have den : quotientForm.den.All fun m => m.Tame {(2, 2)} ∧ m.exp.Every (Nonnegative roots) :=
    (Poly.tame_constant 1).add
      (.term ⟨⟨fun _ factor => absurd factor List.not_mem_nil, angles⟩, nonneg⟩ 1)
  exact .of_eq ran ⟨Poly.rootsIn_ofAtom (.inr outer_mem), den, by decide_cbv⟩

end NestedRoots

open NestedRoots in
theorem products_associate_nestedRoots :
    (∃ zero, (Oracle.exact {}).isZero
        (.power sumTree (.int 5) - .product (List.replicate 5 sumTree)) = .ok zero ∧
      zero = true) ∧
    ∃ zero, (Oracle.exact {}).isZero (.product [.product [outerTree, sumTree], quotientTree] -
        .product [outerTree, .product [sumTree, quotientTree]]) = .ok zero ∧ zero = true := by
  have system : Radical.Independent {(2, 2)} :=
    Radical.independent_of_primes (by simp [Nat.prime_two]) (by simp) (by simp)
  obtain ⟨powers, groupings⟩ := products_associate system adjoinable {} (by decide)
  have power : (Oracle.exact {}).isZero
      (.power sumTree (.int 5) - .product (List.replicate 5 sumTree)) = .ok true := by
    decide +kernel
  have grouping : (Oracle.exact {}).isZero
      (.product [.product [outerTree, sumTree], quotientTree] -
        .product [outerTree, .product [sumTree, quotientTree]]) = .ok true := by
    decide +kernel
  exact ⟨⟨true, power, powers sumTree 5 true sum_rootsIn power⟩, true, grouping,
    groupings outerTree sumTree quotientTree true outer_rootsIn sum_rootsIn quotient_rootsIn
      grouping⟩

/-- `sqrt(x)` and its inverse. -/
def rootAndInverse : Expr × Expr :=
  (.apply .sqrt (.symbol "x"), .power (.apply .sqrt (.symbol "x")) (.int (-1)))

/-- With a negative exponent, the product and the fourth power depend on the order of
the multiplications: `sqrt(x)^2*sqrt(x)^(-1)` stays `x*sqrt(x)^(-1)`. -/
theorem negativeRoot_not_associative :
    let (root, inverse) := rootAndInverse
    (Oracle.exact {}).isZero (.product [.product [root, root], inverse] -
        .product [root, .product [root, inverse]]) = .ok false ∧
      (Oracle.exact {}).isZero (.power (.sum [root, inverse]) (.int 4) -
        .product (List.replicate 4 (.sum [root, inverse]))) = .ok false := by
  decide +kernel

end Discharge
