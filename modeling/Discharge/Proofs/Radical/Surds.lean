import Mathlib
import Discharge.Proofs.Canonical.Radicands
import Discharge.Proofs.Normal.Shift
import Discharge.Proofs.Radical.LargePart

/-! Products of square roots. A square root of a positive integer is a rational times
square roots of different numbers; in a product of two, the roots that both have give
their radicand, and the others stay. -/

namespace Discharge

variable {fs gs hs : List (Atom × Int)} {ns ms : Finset Nat} {m n : Nat}

/-- The square root of a number. -/
def Atom.surd (n : Nat) : Atom := .root (.constant (n : Nat)) 2

theorem Atom.surd_injective (same : Atom.surd m = .surd n) : m = n := by
  have radicands := Poly.constant_injective (Atom.root.inj same).1
  exact_mod_cast radicands

namespace Monomial

/-- The factors are the square roots of the numbers of a set. -/
structure Surds (ns : Finset Nat) (fs : List (Atom × Int)) : Prop where
  increasing : Increasing fs
  mem_iff : ∀ f, f ∈ fs ↔ ∃ n ∈ ns, f = (.surd n, 1)

theorem Surds.unique (first : Surds ns fs) (second : Surds ns gs) : fs = gs :=
  eq_of_mem_iff (fun f g => Atom.compare_asymm f.1 g.1) first.increasing second.increasing
    fun f => (first.mem_iff f).trans (second.mem_iff f).symm

theorem Surds.eq_of_factors (first : Surds ns fs) (second : Surds ms fs) : ns = ms := by
  have mem {ns : Finset Nat} (surds : Surds ns fs) (n : Nat) : n ∈ ns ↔ (.surd n, 1) ∈ fs := by
    rw [surds.mem_iff]
    constructor
    · exact fun member => ⟨n, member, rfl⟩
    · rintro ⟨k, member, same⟩
      rwa [Atom.surd_injective (Prod.mk.inj same).1]
  exact Finset.ext fun n => (mem first n).trans (mem second n).symm

theorem Surds.exponentIn_surd (surds : Surds ns fs) (n : Nat) :
    exponentIn fs (.surd n) = if n ∈ ns then 1 else 0 := by
  split
  · rename_i member
    exact exponentIn_of_mem surds.increasing ((surds.mem_iff _).mpr ⟨n, member, rfl⟩)
  · rename_i absent
    by_contra nonzero
    obtain ⟨k, member, same⟩ := (surds.mem_iff _).mp (mem_of_exponentIn nonzero)
    rw [Atom.surd_injective (Prod.mk.inj same).1] at absent
    exact absent member

/-- Factors that are square roots, each once, if their exponents say so. -/
theorem Surds.of_exponents (increasing : Increasing fs)
    (each : ∀ f ∈ fs, f.2 ≠ 0 ∧ ∃ n, f.1 = .surd n)
    (exponents : ∀ n, exponentIn fs (.surd n) = if n ∈ ns then 1 else 0) :
    Surds ns fs := by
  refine ⟨increasing, fun f => ⟨fun member => ?_, ?_⟩⟩
  · obtain ⟨nonzero, n, root⟩ := each f member
    have value := exponents n
    rw [← root, exponentIn_of_mem increasing member] at value
    split at value
    · exact ⟨n, ‹_›, Prod.ext root value⟩
    · exact absurd value nonzero
  · rintro ⟨n, member, rfl⟩
    have value := exponents n
    rw [if_pos member] at value
    rw [← value]
    exact mem_of_exponentIn (by rw [value]; exact one_ne_zero)

theorem surds_nil : Surds ∅ [] := ⟨List.Pairwise.nil, by simp⟩

theorem Surds.setCount (surds : Surds ns fs) (n : Nat) :
    Surds (insert n ns) (Monomial.setCount (.surd n) 1 fs) := by
  refine .of_exponents (surds.increasing.setCount _ _) (fun f member => ?_) fun k => ?_
  · rcases mem_setCount member with rfl | old
    · exact ⟨one_ne_zero, n, rfl⟩
    · obtain ⟨k, -, rfl⟩ := (surds.mem_iff f).mp old
      exact ⟨one_ne_zero, k, rfl⟩
  · have before := surds.exponentIn_surd k
    unfold exponentIn at before ⊢
    rw [lookup_setCount]
    by_cases same : k = n
    · simp [same]
    · rw [if_neg fun equal => same (Atom.surd_injective equal), before]
      simp [same]

theorem surds_setCounts (ks : List Nat) (surds : Surds ns fs) :
    Surds (ns ∪ ks.toFinset) (ks.foldl (fun fs k => Monomial.setCount (.surd k) 1 fs) fs) := by
  induction ks generalizing ns fs with
  | nil => simpa using surds
  | cons k ks ih =>
    have rest := ih (surds.setCount k)
    rwa [Finset.insert_union, ← Finset.union_insert, ← List.toFinset_cons] at rest

/-! ## Products -/

/-- Square roots of numbers. -/
def surdVocabulary : Vocabulary := ⟨fun a => ∃ n, a = .surd n, fun _ => False⟩

theorem Surds.admits (surds : Surds ns fs) : surdVocabulary.valuation.Admits ⟨fs, .zero⟩ := by
  refine ⟨surds.increasing, fun f member => ?_, .zero, .inl rfl, .zero⟩
  obtain ⟨n, -, rfl⟩ := (surds.mem_iff f).mp member
  exact ⟨one_ne_zero, rfl, ⟨n, rfl⟩, fun _ => trivial⟩

theorem settleFactor_surd_one (n : Nat) : settleFactor (.surd n) 1 = .ok (1, 1) :=
  settleFactor_root (Poly.constant?_constant _) (by decide) (by decide)

theorem settleFactor_surd_two (n : Nat) : settleFactor (.surd n) 2 = .ok ((n : Rat), 0) := by
  have square : ratPow (n : Rat) 1 = .ok (n : Rat) := by simp [ratPow, Rat.pow]
  rw [Atom.surd, settleFactor, Poly.constant?_constant]
  change (ratPow (n : Rat) 1 >>= fun power => pure (power, (0 : Int))) = _
  rw [square]
  rfl

/-- Squares of roots are settled, and the roots themselves stay. -/
theorem settleFactors_surds (increasing : Increasing hs)
    (each : ∀ f ∈ hs, ∃ n, f = (.surd n, 1) ∨ f = (.surd n, 2)) :
    ∃ squares : Finset Nat, (∀ n, n ∈ squares ↔ (.surd n, 2) ∈ hs) ∧
      settleFactors hs = .ok (∏ n ∈ squares, (n : Rat), hs.filter fun f => f.2 = 1) := by
  induction hs with
  | nil => exact ⟨∅, by simp, rfl⟩
  | cons f hs ih =>
    obtain ⟨head, tail⟩ := List.forall_mem_cons.mp each
    obtain ⟨behind, rest⟩ := increasing_cons.mp increasing
    obtain ⟨squares, mem, settled⟩ := ih rest tail
    obtain ⟨n, rfl | rfl⟩ := head
    · refine ⟨squares, fun k => ?_, ?_⟩
      · rw [mem, List.mem_cons, or_iff_right (by simp)]
      · simp [settleFactors, settleFactor_surd_one, settled, bind, Except.bind, pure, Except.pure]
    · have fresh : n ∉ squares := fun member => by
        have less := behind _ ((mem n).mp member)
        simp [(Atom.compare_eq_iff (Atom.surd n) (.surd n)).mpr rfl] at less
      refine ⟨insert n squares, fun k => ?_, ?_⟩
      · rw [Finset.mem_insert, mem, List.mem_cons]
        refine or_congr_left ⟨fun same => same ▸ rfl, fun same => ?_⟩
        exact Atom.surd_injective (Prod.mk.inj same).1
      · simp [settleFactors, settleFactor_surd_two, settled, Finset.prod_insert fresh, bind,
          Except.bind, pure, Except.pure]

/-- Nothing but squares of roots is reduced. -/
theorem reduce_surds {c : Rat} (each : ∀ f ∈ hs, ∃ n, f.1 = .surd n)
    (settled : settleFactors hs = .ok (c, gs)) :
    (⟨hs, .zero⟩ : Monomial).reduce = .ok (.term ⟨gs, .zero⟩ c) := by
  have below : ∀ f ∈ hs, excess? f.1 f.2 = none := by
    intro f member
    obtain ⟨n, root⟩ := each f member
    rw [root, Atom.surd, excess?, Poly.constant?_constant]
    rfl
  have reduced (lower : Monomial → Outcome Poly) :
      reduceWith lower ⟨hs, .zero⟩ = .ok (.term ⟨gs, .zero⟩ c) := by
    unfold reduceWith
    rw [dropExcess_eq_self below, settled, excesses_eq_nil below]
    rfl
  unfold reduce
  cases (⟨hs, .zero⟩ : Monomial).rootDepth with
  | zero => exact reduced _
  | succ n => exact reduced _

/-- Square roots of two sets of numbers side by side: those of both sets are there twice. -/
theorem Surds.combine (left : Surds ns fs) (right : Surds ms gs) : ∃ hs,
    (⟨fs, .zero⟩ : Monomial).combine ⟨gs, .zero⟩ = .ok ⟨hs, .zero⟩ ∧
      surdVocabulary.valuation.Admits ⟨hs, .zero⟩ ∧
      ∀ n, exponentIn hs (.surd n) = (if n ∈ ns then 1 else 0) + if n ∈ ms then 1 else 0 := by
  have counts (n : Nat) : (⟨fs, .zero⟩ : Monomial).count (.surd n) +
      (⟨gs, .zero⟩ : Monomial).count (.surd n) =
        (if n ∈ ns then 1 else 0) + if n ∈ ms then 1 else 0 := by
    rw [count_eq, count_eq, left.exponentIn_surd, right.exponentIn_surd]
  have combines : ∃ k, (⟨fs, .zero⟩ : Monomial).combine ⟨gs, .zero⟩ = .ok k := by
    refine (combine_ok_iff left.admits right.admits).mpr fun a => ?_
    by_cases root : ∃ n, a = .surd n
    · obtain ⟨n, rfl⟩ := root
      rw [counts]
      split <;> split <;> rfl
    · have none {fs : List (Atom × Int)} {ns : Finset Nat} (surds : Surds ns fs) :
          (⟨fs, .zero⟩ : Monomial).count a = 0 := by
        by_contra present
        exact root (surds.admits.of_count present).known
      rw [none left, none right]
      rfl
  obtain ⟨k, combined⟩ := combines
  have admitted := (Valuation.combine_ensures left.admits right.admits).of_ok combined |>.1
  have total (n : Nat) : exponentIn k.factors (.surd n) =
      (if n ∈ ns then 1 else 0) + if n ∈ ms then 1 else 0 := by
    rw [← count_eq, Valuation.count_combine left.admits right.admits combined, counts]
  obtain ⟨hs, -, done⟩ := bind_eq_ok combined
  cases done
  exact ⟨hs, combined, admitted, total⟩

/-- Of the roots of two sets those of both are settled, and those of one only are left. -/
theorem settleFactors_symmDiff (admitted : surdVocabulary.valuation.Admits ⟨hs, .zero⟩)
    (total : ∀ n, exponentIn hs (.surd n) =
      (if n ∈ ns then 1 else 0) + if n ∈ ms then 1 else 0) :
    ∃ gs, Surds (symmDiff ns ms) gs ∧
      settleFactors hs = .ok (∏ n ∈ ns ∩ ms, (n : Rat), gs) := by
  have increasing : Increasing hs := admitted.increasing
  have mem (n : Nat) (j : Int) (nonzero : j ≠ 0) :
      (.surd n, j) ∈ hs ↔ exponentIn hs (.surd n) = j :=
    ⟨exponentIn_of_mem increasing, fun value => value ▸ mem_of_exponentIn (value ▸ nonzero)⟩
  have each : ∀ f ∈ hs, ∃ n, f = (.surd n, 1) ∨ f = (.surd n, 2) := by
    intro f member
    obtain ⟨n, root⟩ := (admitted.factor f member).known
    have nonzero := (admitted.factor f member).nonzero
    have value := total n
    rw [← root, exponentIn_of_mem increasing member] at value
    refine ⟨n, ?_⟩
    rw [← root]
    split at value <;> split at value <;> simp_all [Prod.ext_iff]
  obtain ⟨squares, twice, settled⟩ := settleFactors_surds increasing each
  obtain rfl : squares = ns ∩ ms := by
    ext n
    rw [twice, mem n 2 two_ne_zero, total, Finset.mem_inter]
    split <;> split <;> simp [*]
  refine ⟨_, ⟨increasing.of_sublist (List.filter_sublist.map _), fun f => ?_⟩, settled⟩
  have once (n : Nat) : (.surd n, 1) ∈ hs ↔ n ∈ symmDiff ns ms := by
    rw [mem n 1 one_ne_zero, total, Finset.mem_symmDiff]
    split <;> split <;> simp [*]
  constructor
  · intro member
    obtain ⟨inside, one⟩ := List.mem_filter.mp member
    obtain ⟨n, rfl | rfl⟩ := each f inside
    · exact ⟨n, (once n).mp inside, rfl⟩
    · simp at one
  · rintro ⟨n, member, rfl⟩
    exact List.mem_filter.mpr ⟨(once n).mpr member, by simp⟩

/-- The product of two products of square roots. -/
theorem Surds.mul (left : Surds ns fs) (right : Surds ms gs) (positive : ∀ n ∈ ns, 0 < n)
    (c d : Rat) : ∃ hs, Surds (symmDiff ns ms) hs ∧
      (Poly.term ⟨fs, .zero⟩ c).mul (.term ⟨gs, .zero⟩ d) =
        .ok (.term ⟨hs, .zero⟩ ((∏ n ∈ ns ∩ ms, (n : Rat)) * (c * d))) := by
  obtain ⟨hs, combined, admitted, total⟩ := left.combine right
  obtain ⟨gs, kept, settled⟩ := settleFactors_symmDiff admitted total
  have reduced := reduce_surds (fun f member => (admitted.factor f member).known) settled
  have nonzero : ∏ n ∈ ns ∩ ms, (n : Rat) ≠ 0 := Finset.prod_ne_zero_iff.mpr fun n member =>
    Nat.cast_ne_zero.mpr (positive n (Finset.mem_inter.mp member).1).ne'
  exact ⟨gs, kept, Poly.mul_term_of_reduce combined reduced nonzero c d⟩

theorem Surds.irreducible (surds : Surds ns fs) : (⟨fs, .zero⟩ : Monomial).Irreducible := by
  refine Poly.irreducible_ones fun f member => ?_
  obtain ⟨n, -, rfl⟩ := (surds.mem_iff f).mp member
  exact ⟨rfl, fun p k same => by rw [← (Atom.root.inj same).2]⟩

end Monomial

/-! ## Square roots of integers -/

open Monomial (Surds)
open Radical (integerRoot radicandSet)

/-- The radical of an integer has the roots of its radicands as factors. -/
theorem Poly.integerRadical_surds (n : Nat) : ∃ fs, Surds (radicandSet n) fs ∧
    integerRadical n 2 = .term ⟨fs, .zero⟩ ((integerRoot n 2).1 : Nat) := by
  have surds := Monomial.surds_setCounts (integerRoot n 2).2 Monomial.surds_nil
  rw [Finset.empty_union] at surds
  exact ⟨_, surds, rfl⟩

theorem Radical.square_mul_radicands (positive : 0 < n) :
    (integerRoot n 2).1 ^ 2 * ∏ q ∈ radicandSet n, q = n := by
  obtain ⟨product, distinct, -⟩ := integerRoot_split 2 positive
  rw [radicandSet, List.prod_toFinset _ distinct, List.map_id']
  exact product.symm

theorem Radical.radicandSet_pos (positive : 0 < n) : ∀ q ∈ radicandSet n, 0 < q := fun q member =>
  zero_lt_one.trans ((integerRoot_split 2 positive).2.2 q (List.mem_toFinset.mp member))

theorem Radical.outside_pos (positive : 0 < n) : 0 < (integerRoot n 2).1 := by
  refine Nat.pos_of_ne_zero fun zero => positive.ne' ?_
  rw [← square_mul_radicands positive, zero, Nat.zero_pow two_pos, Nat.zero_mul]

/-- What is taken out of the root of a product, if its radicands are those of either
factor alone. -/
theorem Radical.outside_mul (first : 0 < m) (second : 0 < n)
    (together : radicandSet (m * n) = symmDiff (radicandSet m) (radicandSet n)) :
    (∏ q ∈ radicandSet m ∩ radicandSet n, q) * ((integerRoot m 2).1 * (integerRoot n 2).1) =
      (integerRoot (m * n) 2).1 := by
  have product := square_mul_radicands (Nat.mul_pos first second)
  have both := congrArg₂ (· * ·) (square_mul_radicands first) (square_mul_radicands second)
  have positive : ∏ q ∈ symmDiff (radicandSet m) (radicandSet n), q ≠ 0 := by
    rw [← together]
    exact Finset.prod_ne_zero_iff.mpr fun q member =>
      (radicandSet_pos (Nat.mul_pos first second) q member).ne'
  rw [together] at product
  generalize (integerRoot (m * n) 2).1 = c at *
  generalize (integerRoot m 2).1 = a at *
  generalize (integerRoot n 2).1 = b at *
  generalize radicandSet m = s at *
  generalize radicandSet n = t at *
  have union : (∏ q ∈ s ∪ t, q) * ∏ q ∈ s ∩ t, q = (∏ q ∈ s, q) * ∏ q ∈ t, q :=
    Finset.prod_union_inter
  have apart := Finset.prod_sdiff (Finset.inter_subset_union : s ∩ t ⊆ s ∪ t)
    (f := fun q : Nat => q)
  rw [show (s ∪ t) \ (s ∩ t) = symmDiff s t from (symmDiff_eq_sup_sdiff_inf s t).symm] at apart
  refine Nat.pow_left_injective two_ne_zero
    (Nat.eq_of_mul_eq_mul_right (Nat.pos_of_ne_zero positive) ?_)
  dsimp only at both ⊢
  calc ((∏ q ∈ s ∩ t, q) * (a * b)) ^ 2 * ∏ q ∈ symmDiff s t, q
      = a ^ 2 * b ^ 2 * (((∏ q ∈ symmDiff s t, q) * ∏ q ∈ s ∩ t, q) * ∏ q ∈ s ∩ t, q) := by ring
    _ = (a ^ 2 * ∏ q ∈ s, q) * (b ^ 2 * ∏ q ∈ t, q) := by
      rw [apart, union]
      ring
    _ = c ^ 2 * ∏ q ∈ symmDiff s t, q := by rw [both, product]

namespace Fraction

variable {max : Nat}

theorem ofExpr_sqrt (positive : 0 < n) : ofExpr max (.apply .sqrt (.number (n : Nat))) =
    .ok (ofPoly (.integerRadical n 2)) := by
  have constant : (constant (n : Nat)).constant? = some (n : Rat) :=
    (constant_ofPoly _).trans (Poly.constant?_constant _)
  rw [ofExpr, ofExpr]
  change (Fraction.constant (n : Nat)).root 2 = _
  rw [root_of_constant le_rfl constant, Poly.rationalRadical_natCast positive]
  rfl

/-- The product of two square roots. -/
theorem ofExpr_sqrt_mul (max : Nat) (first : 0 < m) (second : 0 < n) : ∃ fs,
    Surds (symmDiff (radicandSet m) (radicandSet n)) fs ∧
      ofExpr max (.product [.apply .sqrt (.number (m : Nat)), .apply .sqrt (.number (n : Nat))]) =
        .ok (ofPoly (.term ⟨fs, .zero⟩ (((∏ q ∈ radicandSet m ∩ radicandSet n, q) *
          ((integerRoot m 2).1 * (integerRoot n 2).1) : Nat) : Rat))) := by
  obtain ⟨fs, left, form⟩ := Poly.integerRadical_surds m
  obtain ⟨gs, right, form'⟩ := Poly.integerRadical_surds n
  obtain ⟨hs, surds, product⟩ := left.mul right (Radical.radicandSet_pos first)
    ((integerRoot m 2).1 : Nat) ((integerRoot n 2).1 : Nat)
  refine ⟨hs, surds, ?_⟩
  have start : one.mul (ofPoly (.term ⟨fs, .zero⟩ ((integerRoot m 2).1 : Nat))) =
      .ok (ofPoly (.term ⟨fs, .zero⟩ ((integerRoot m 2).1 : Nat))) := by
    have unit := mul_term (Monomial.one_combine ⟨fs, .zero⟩) left.irreducible 1
      ((integerRoot m 2).1 : Nat)
    rwa [one_mul] at unit
  rw [ofExpr, ofProduct, ofExpr_sqrt first, form]
  change (one.mul _ >>= fun total => ofProduct max total _) = _
  rw [start]
  change ofProduct max _ _ = _
  rw [ofProduct, ofExpr_sqrt second, form']
  change ((ofPoly _).mul (ofPoly _) >>= fun total => ofProduct max total []) = _
  rw [mul_ofPoly, product]
  change (make (.term ⟨hs, .zero⟩ _) .one >>= fun total => ofProduct max total []) = _
  rw [make_one (.term surds.irreducible _)]
  change ofProduct max _ [] = _
  rw [ofProduct]
  push_cast
  rfl

/-- Both normal forms are the same exactly if the radicands of the product are those
of either factor alone. -/
theorem sqrt_mul_eq_iff (first : 0 < m) (second : 0 < n) : ∃ r s,
    ofExpr max (.product [.apply .sqrt (.number (m : Nat)), .apply .sqrt (.number (n : Nat))]) =
        .ok r ∧
      ofExpr max (.apply .sqrt (.number ((m * n : Nat) : Rat))) = .ok s ∧
      (r = s ↔ Radical.Separable m n) := by
  have positive := Nat.mul_pos first second
  obtain ⟨fs, surds, product⟩ := ofExpr_sqrt_mul max first second
  obtain ⟨gs, surds', form⟩ := Poly.integerRadical_surds (m * n)
  refine ⟨_, _, product, ofExpr_sqrt positive, ?_⟩
  rw [← Radical.radicandSet_mul first second, form]
  constructor
  · intro same
    have outside : ((∏ q ∈ radicandSet m ∩ radicandSet n, q) *
        ((integerRoot m 2).1 * (integerRoot n 2).1) : Nat) ≠ 0 := by
      refine (Nat.mul_pos (Finset.prod_pos fun q member => ?_)
        (Nat.mul_pos (Radical.outside_pos first) (Radical.outside_pos second))).ne'
      exact Radical.radicandSet_pos first q (Finset.mem_inter.mp member).1
    have terms := congrArg Fraction.num same
    have factors := Poly.eq_of_term_eq (Nat.cast_ne_zero.mpr outside)
      (Nat.cast_ne_zero.mpr (Radical.outside_pos positive).ne') terms
    rw [(Monomial.mk.inj factors).1] at surds
    exact surds'.eq_of_factors surds
  · intro together
    rw [Radical.outside_mul first second together]
    rw [together] at surds'
    rw [surds.unique surds']

end Fraction

/-- The square roots of two positive integers are multiplied to the square root of the
product exactly if their prime factors beyond the reach of trial division make up the
same number, or one for either of them, or squares. In every canonical form, however
deep, a constant radicand of a square root that is above one is a prime, or is no
square and has only prime factors beyond that reach. -/
theorem square_roots_multiply (max : Nat) (bounded : max ≤ 4294967295) :
    (∀ m n : Nat, 0 < m → 0 < n → ∃ r s,
      Fraction.ofExpr max (.product
        [.apply .sqrt (.number (m : Nat)), .apply .sqrt (.number (n : Nat))]) = .ok r ∧
      Fraction.ofExpr max (.apply .sqrt (.number ((m * n : Nat) : Rat))) = .ok s ∧
      (r = s ↔ Radical.Separable m n)) ∧
    ∀ (e : Expr) (r : Fraction), Fraction.ofExpr max e = .ok r →
      ∀ (p : Poly) (c : Rat), (Atom.root p 2).Occurs r → p.constant? = some c → 1 < c →
        ∃ n : Nat, c = n ∧ (n.Prime ∨ Radical.Large n ∧ ¬ IsSquare n) := by
  refine ⟨fun m n first second => Fraction.sqrt_mul_eq_iff first second,
    fun e r ran p c occurs constant above => ?_⟩
  have fits : fitsInt64 max = true := by
    rw [Monomial.fitsInt64_iff]
    omega
  have canonical := (Fraction.ofExpr_canonical fits e).of_ok ran
  exact Atom.squareRadicand_of_canonical (Atom.canonical_of_occurs occurs canonical) constant above

theorem Radical.small_of_le (positive : 0 < n) (small : n ≤ divisionLimit) : Small n :=
  fun _ _ divides => (Nat.le_of_dvd positive divides).trans small

/-- `exp(sqrt(12))`. -/
def nestedSurd : Expr := .apply .exp (.apply .sqrt (.number 12))

theorem square_roots_multiply_small :
    (∃ r, Fraction.ofExpr 64 (.product [.apply .sqrt (.number (12 : Nat)),
        .apply .sqrt (.number (18 : Nat))]) = .ok r ∧
      Fraction.ofExpr 64 (.apply .sqrt (.number ((12 * 18 : Nat) : Rat))) = .ok r) ∧
    ∃ r, Fraction.ofExpr 64 nestedSurd = .ok r ∧ (Atom.root (.constant 3) 2).Occurs r ∧
      ∃ n : Nat, (3 : Rat) = n ∧ (n.Prime ∨ Radical.Large n ∧ ¬ IsSquare n) := by
  obtain ⟨products, radicands⟩ := square_roots_multiply 64 (by decide)
  obtain ⟨r, s, product, whole, same⟩ := products 12 18 (by decide) (by decide)
  have small : Radical.largePart 12 = 1 :=
    Radical.largePart_of_small (Radical.small_of_le (by decide) (by decide))
  obtain rfl := same.mpr (.inl small)
  have nested : Fraction.ofExpr 64 nestedSurd = .ok (.ofPoly (.term
      (.exponential (.term ⟨[(.root (.constant 3) 2, 1)], .zero⟩ 2)) 1)) := by decide_cbv
  have occurs : (Atom.root (.constant 3) 2).Occurs (.ofPoly (.term
      (.exponential (.term ⟨[(.root (.constant 3) 2, 1)], .zero⟩ 2)) 1)) :=
    .inl (.exponent (List.mem_singleton_self _)
      (.factor (List.mem_singleton_self _) (List.mem_singleton_self _)))
  exact ⟨⟨r, product, whole⟩, _, nested, occurs,
    radicands nestedSurd _ nested (.constant 3) 3 occurs (Poly.constant?_constant 3) (by norm_num)⟩

/-- Two different primes beyond the reach of trial division are not told apart in their
product, which stays a radicand. -/
theorem large_primes_not_joined : ∃ r s,
    Fraction.ofExpr 64 (.product [.apply .sqrt (.number (100003 : Nat)),
      .apply .sqrt (.number (100019 : Nat))]) = .ok r ∧
    Fraction.ofExpr 64 (.apply .sqrt (.number ((100003 * 100019 : Nat) : Rat))) = .ok s ∧ r ≠ s ∧
    (Atom.root (.constant ((100003 * 100019 : Nat) : Rat)) 2).Occurs s ∧
    ¬ (100003 * 100019 : Nat).Prime := by
  have large {p : Nat} (prime : p.Prime) (beyond : Radical.divisionLimit < p) :
      Radical.largePart p = p := by
    refine Radical.largePart_of_large prime.ne_zero fun q prime' divides => ?_
    rwa [(Nat.prime_dvd_prime_iff_eq prime' prime).mp divides]
  have first := large (p := 100003) (by norm_num) (by decide)
  have second := large (p := 100019) (by norm_num) (by decide)
  have whole := Radical.largePart_mul (m := 100003) (n := 100019) (by decide) (by decide)
  rw [first, second] at whole
  obtain ⟨r, s, product, form, same⟩ :=
    @Fraction.sqrt_mul_eq_iff 100003 100019 64 (by decide) (by decide)
  refine ⟨r, s, product, form, fun equal => ?_, ?_, ?_⟩
  · have separable := same.mp equal
    unfold Radical.Separable at separable
    rw [first, second] at separable
    rcases separable with one | one | equal | ⟨square, -⟩
    · omega
    · omega
    · omega
    · norm_num at square
  · have kept : 100003 * 100019 ∈ radicandSet (100003 * 100019) := by
      refine List.mem_toFinset.mpr ((Radical.mem_radicands (by decide)).mpr (.inr ⟨?_, whole.symm⟩))
      rw [whole]
      norm_num
    obtain ⟨fs, surds, radical⟩ := Poly.integerRadical_surds (100003 * 100019)
    cases form.symm.trans (Fraction.ofExpr_sqrt (by decide))
    have positive := Radical.outside_pos (n := 100003 * 100019) (by decide)
    have outside : (((integerRoot (100003 * 100019) 2).1 : Nat) : Rat) ≠ 0 :=
      Nat.cast_ne_zero.mpr positive.ne'
    rw [radical, Poly.term_of_ne_zero outside]
    exact .inl (.factor (List.mem_singleton_self _) ((surds.mem_iff _).mpr ⟨_, kept, rfl⟩))
  · exact Nat.not_prime_mul (by decide) (by decide)

end Discharge
