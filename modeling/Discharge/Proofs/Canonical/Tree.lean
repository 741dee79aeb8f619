import Mathlib
import Discharge.Proofs.Canonical.Functions
import Discharge.Proofs.Normal.Symmetry
import Discharge.Proofs.Trail

/-! The trees that canonical forms are written as. A tree of the parts of a
canonical form has the canonical form that is made of those parts: a power of an
atom, a term, a sum of terms in order, an exponential, and a quotient whose
denominator needs no further round. Each comes with the guards that it has to be
within. -/

namespace Discharge

open Fraction (ofPower)

/-- The tree has the canonical form `r` if it is within the guards, and otherwise none. -/
abbrev Expr.Becomes (max : Nat) (x : Expr) (r : Fraction) (within : Prop) : Prop :=
  Returns (Fraction.ofExpr max x) r within

variable {max : Nat} {a : Atom} {n : Int} {fs gs : List (Atom × Int)} {e : Poly}
  {ts us : List (Monomial × Rat)} {r : Fraction} {x : Expr} {xs ys : List Expr} {w w' : Prop}

/-! ## Powers of atoms -/

namespace Monomial

/-- Lesser powers of an atom are irreducible with a power. -/
theorem irreducible_between (index : ∀ p i, a = .root p i → 2 ≤ i)
    (settled : settleFactor a n = .ok (1, n)) (below : excess? a n = none)
    {k : Int} (above : min n 0 ≤ k) (under : k ≤ Max.max n 0) : (ofAtom a k).Irreducible := by
  unfold ofAtom
  split
  · exact irreducible_one
  rename_i nonzero
  cases a with
  | imaginary =>
    have one := settled_imaginary settled
    obtain rfl : k = 1 := by omega
    exact Vocabulary.irreducible_ofAtom nofun
  | root p i =>
    have proper := index p i rfl
    refine ⟨by simpa using nonzero, ?_, ?_, rfl⟩
    · rw [List.forall_mem_singleton]
      cases constant : p.constant? with
      | none => simp [settleFactor, constant]
      | some c =>
        obtain ⟨positive, less⟩ := settled_root constant proper settled
        exact settleFactor_root constant (by omega) (by omega)
    · rw [List.forall_mem_singleton]
      simp only [excess?, ite_eq_right_iff, reduceCtorEq, imp_false, not_and, not_le] at below ⊢
      intro symbolic
      have less := below symbolic
      omega
  | _ => exact ⟨by simpa using nonzero, by simp [settleFactor], by simp [excess?], rfl⟩

/-- Only the first power of a surd is irreducible. -/
theorem not_surd_of_neg (index : ∀ p i, a = .root p i → 2 ≤ i)
    (settled : settleFactor a n = .ok (1, n)) (negative : n < 0) : a.isQuadraticSurd = false := by
  cases a with
  | imaginary =>
    have one := settled_imaginary settled
    omega
  | root p i =>
    cases constant : p.constant? with
    | none => simp [Atom.isQuadraticSurd, constant]
    | some c =>
      have bounds := settled_root constant (index p i rfl) settled
      omega
  | _ => rfl

/-- Part of an irreducible monomial is irreducible. -/
theorem Irreducible.factors_of_subset (irreducible : Monomial.Irreducible ⟨fs, e⟩) (part : gs ⊆ fs) :
    Monomial.Irreducible ⟨gs, .zero⟩ :=
  ⟨fun f member => irreducible.nonzero f (part member),
    fun f member => irreducible.settled f (part member),
    fun f member => irreducible.below f (part member), rfl⟩

/-- Merging puts a factor that comes behind at the end. -/
theorem mergeFactors_singleton (increasing : Increasing (gs ++ [(a, n)])) :
    mergeFactors gs [(a, n)] = .ok (gs ++ [(a, n)]) := by
  induction gs with
  | nil => rfl
  | cons g gs ih =>
    obtain ⟨b, k⟩ := g
    obtain ⟨behind, rest⟩ := increasing_cons.mp increasing
    have less : Atom.compare b a = .lt := behind (a, n) (by simp)
    rw [mergeFactors_cons_cons, less]
    dsimp only
    rw [ih rest]
    rfl

end Monomial

theorem Poly.Reduced.of_sublist (reduced : Poly.Reduced ⟨ts⟩) (part : us.Sublist ts) :
    Poly.Reduced ⟨us⟩ where
  ordered := ⟨reduced.ordered.increasing.sublist part,
    fun t member => reduced.ordered.nonzero t (part.subset member)⟩
  irreducible t member := reduced.irreducible t (part.subset member)

namespace Expr

open Fraction (ofExpr ofSum ofProduct ofPoly)

theorem ofProduct_append (r : Fraction) (xs ys : List Expr) :
    ofProduct max r (xs ++ ys) = ofProduct max r xs >>= fun s => ofProduct max s ys := by
  induction xs generalizing r with
  | nil => rw [ofProduct]; rfl
  | cons x xs ih =>
    rw [List.cons_append, ofProduct, ofProduct]
    cases ofExpr max x with
    | error e => rfl
    | ok s =>
      change (r.mul s >>= fun t => ofProduct max t (xs ++ ys)) = (r.mul s >>= _) >>= _
      cases r.mul s with
      | error e => rfl
      | ok t => exact ih t

/-- A product of factors; a single factor is not multiplied by one. -/
theorem becomes_ofFactors
    (each : ∀ x ∈ xs, ∀ s, ofExpr max x = .ok s → Fraction.one.mul s = .ok s)
    (product : Returns (ofProduct max .one xs) r w) : (ofFactors xs).Becomes max r w := by
  unfold ofFactors
  split
  · rename_i x
    have single : ofProduct max .one [x] = ofExpr max x := by
      rw [ofProduct]
      cases ran : ofExpr max x with
      | error e => rfl
      | ok s =>
        change (Fraction.one.mul s >>= fun t => ofProduct max t []) = _
        rw [each x List.mem_cons_self s ran]
        change ofProduct max s [] = _
        rw [ofProduct]
    rwa [single] at product
  · unfold Becomes
    rw [ofExpr]
    exact product

/-- Factors in order, behind those that stand in the product already. -/
theorem ofProduct_factors {c : Rat} {within : Atom × Int → Prop}
    (increasing : Monomial.Increasing (gs ++ fs))
    (irreducible : Monomial.Irreducible ⟨gs ++ fs, .zero⟩)
    (each : ∀ f ∈ fs, (f.1.toExpr.raised f.2).Becomes max (ofPower f.1 f.2) (within f)) :
    Returns (ofProduct max (ofPoly (.term ⟨gs, .zero⟩ c)) (factorsToExprs fs))
      (ofPoly (.term ⟨gs ++ fs, .zero⟩ c)) (∀ f ∈ fs, within f) := by
  induction fs generalizing gs with
  | nil =>
    rw [factorsToExprs, ofProduct, List.append_nil]
    exact (Returns.of_eq rfl).congr (by simp)
  | cons f fs ih =>
    obtain ⟨a, n⟩ := f
    obtain ⟨head, tail⟩ := List.forall_mem_cons.mp each
    have moved : gs ++ (a, n) :: fs = (gs ++ [(a, n)]) ++ fs := by simp
    rw [moved] at increasing irreducible ⊢
    have nonzero : n ≠ 0 := irreducible.nonzero (a, n) (by simp)
    have first := increasing.of_sublist ((List.sublist_append_left (gs ++ [(a, n)]) fs).map Prod.fst)
    have combined : Monomial.combine ⟨gs, .zero⟩ (.ofAtom a n) = .ok ⟨gs ++ [(a, n)], .zero⟩ := by
      unfold Monomial.combine Monomial.ofAtom
      rw [if_neg nonzero]
      dsimp only
      rw [Monomial.mergeFactors_singleton first]
      rfl
    have product := Fraction.mul_term combined
      (irreducible.factors_of_subset (List.subset_append_left _ _)) c 1
    rw [mul_one] at product
    rw [factorsToExprs, ofProduct]
    refine (head.bind fun _ => ?_).congr List.forall_mem_cons.symm
    change Returns ((ofPoly (.term ⟨gs, .zero⟩ c)).mul (ofPoly (.term (.ofAtom a n) 1)) >>= _) _ _
    rw [product]
    exact ih increasing irreducible tail

theorem ofPower_irreducible (nonzero : n ≠ 0) (irreducible : Monomial.Irreducible ⟨[(a, n)], .zero⟩) :
    Fraction.one.mul (ofPower a n) = .ok (ofPower a n) := by
  have same : Monomial.ofAtom a n = ⟨[(a, n)], .zero⟩ := by rw [Monomial.ofAtom, if_neg nonzero]
  have product := Fraction.mul_term (Monomial.one_combine (.ofAtom a n)) (same ▸ irreducible) 1 1
  rwa [mul_one] at product

theorem one_mul_constant (c : Rat) : Fraction.one.mul (.constant c) = .ok (.constant c) := by
  have product := Fraction.mul_term (Monomial.one_combine .one) Monomial.irreducible_one 1 c
  rwa [one_mul] at product

theorem factorsToExprs_mem (fs : List (Atom × Int)) :
    ∀ x ∈ factorsToExprs fs, ∃ f ∈ fs, x = f.1.toExpr.raised f.2 := by
  induction fs with
  | nil => simp [factorsToExprs]
  | cons f fs ih =>
    obtain ⟨a, n⟩ := f
    rw [factorsToExprs]
    refine List.forall_mem_cons.mpr ⟨⟨_, List.mem_cons_self, rfl⟩, fun x member => ?_⟩
    obtain ⟨f, inside, same⟩ := ih x member
    exact ⟨f, List.mem_cons_of_mem _ inside, same⟩

theorem exponentialToExprs_cases (e : Poly) :
    e = .zero ∧ exponentialToExprs e = [] ∨ ∃ x, exponentialToExprs e = [x] := by
  obtain ⟨ts⟩ := e
  cases ts with
  | nil => exact .inl ⟨rfl, by rw [exponentialToExprs]⟩
  | cons t ts =>
    rw [exponentialToExprs]
    split
    · exact .inr ⟨_, rfl⟩
    · exact .inr ⟨_, rfl⟩

/-- The tree of a term. -/
theorem becomes_ofTerm {c : Rat} {within : Atom × Int → Prop} (increasing : Monomial.Increasing fs)
    (irreducible : Monomial.Irreducible ⟨fs, e⟩)
    (factors : ∀ f ∈ fs, (f.1.toExpr.raised f.2).Becomes max (ofPower f.1 f.2) (within f))
    (exponential : ∀ x ∈ exponentialToExprs e,
      x.Becomes max (ofPoly (.term (.exponential e) 1)) w) (none : e = .zero → w) :
    (ofTerm c (factorsToExprs fs) (exponentialToExprs e)).Becomes max
      (ofPoly (.term ⟨fs, e⟩ c)) ((∀ f ∈ fs, within f) ∧ w) := by
  have turned : (Monomial.exponential e).Irreducible :=
    ⟨by simp [Monomial.exponential], by simp [Monomial.exponential],
      by simp [Monomial.exponential], irreducible.turned⟩
  have alone : Fraction.one.mul (ofPoly (.term (.exponential e) 1)) =
      .ok (ofPoly (.term (.exponential e) 1)) := by
    have product := Fraction.mul_term (Monomial.one_combine (.exponential e)) turned 1 1
    rwa [mul_one] at product
  -- The coefficient is multiplied by the factors and then by the exponential.
  have rest : Returns (ofProduct max (.constant c) (factorsToExprs fs ++ exponentialToExprs e))
      (ofPoly (.term ⟨fs, e⟩ c)) ((∀ f ∈ fs, within f) ∧ w) := by
    rw [ofProduct_append]
    have first : Returns (ofProduct max (ofPoly (.term ⟨[], .zero⟩ c)) (factorsToExprs fs)) _ _ :=
      ofProduct_factors increasing (irreducible.factors_of_subset (List.Subset.refl _)) factors
    refine first.bind fun _ => ?_
    rcases exponentialToExprs_cases e with ⟨rfl, nothing⟩ | ⟨x, one⟩
    · rw [nothing, ofProduct]
      exact (Returns.of_eq rfl).congr (iff_of_true trivial (none rfl))
    · have combined : Monomial.combine ⟨fs, .zero⟩ (.exponential e) = .ok ⟨fs, e⟩ := by
        obtain ⟨ts⟩ := e
        simp [Monomial.combine, Monomial.exponential, Poly.add, Poly.zero]
      have product := Fraction.mul_term combined irreducible c 1
      rw [mul_one] at product
      rw [one, ofProduct]
      refine (exponential x (one ▸ List.mem_cons_self)).bind_eq fun _ => ?_
      change ((ofPoly (.term ⟨fs, .zero⟩ c)).mul _ >>= _) = _
      rw [product]
      change ofProduct max (ofPoly (.term ⟨fs, e⟩ c)) [] = _
      rw [ofProduct]
  have single : ∀ x ∈ factorsToExprs fs ++ exponentialToExprs e,
      ∀ s, ofExpr max x = .ok s → Fraction.one.mul s = .ok s := by
    refine List.forall_mem_append.mpr ⟨fun x member s ran => ?_, fun x member s ran => ?_⟩
    · obtain ⟨f, inside, rfl⟩ := factorsToExprs_mem fs x member
      obtain ⟨-, rfl⟩ := (factors f inside s).mp ran
      exact ofPower_irreducible (irreducible.nonzero f inside)
        (irreducible.factors_of_subset (List.cons_subset.mpr ⟨inside, List.nil_subset _⟩))
    · obtain ⟨-, rfl⟩ := (exponential x member s).mp ran
      exact alone
  have number : ∀ s, ofExpr max (.number c) = .ok s → Fraction.one.mul s = .ok s := by
    intro s ran
    rw [ofExpr] at ran
    cases ran
    exact one_mul_constant c
  unfold ofTerm
  dsimp only
  split
  · rename_i plain
    rw [plain.1] at rest ⊢
    exact becomes_ofFactors single rest
  · refine becomes_ofFactors (List.forall_mem_cons.mpr ⟨number, single⟩) ?_
    rw [ofProduct, ofExpr]
    change Returns (Fraction.one.mul (.constant c) >>= _) _ _
    rw [one_mul_constant]
    exact rest

/-! ## Sums -/

/-- The tree of a term has the term as its canonical form. -/
def TermBecomes (max : Nat) (t : Monomial × Rat) (within : Prop) : Prop :=
  (ofTerm t.2 (factorsToExprs t.1.factors) (exponentialToExprs t.1.exp)).Becomes max
    (ofPoly (.term t.1 t.2)) within

variable {within : Monomial × Rat → Prop}

/-- Terms in order, behind those that stand in the sum already. -/
theorem ofSum_terms (reduced : Poly.Reduced ⟨us ++ ts⟩)
    (each : ∀ t ∈ ts, TermBecomes max t (within t)) :
    Returns (ofSum max (ofPoly ⟨us⟩) (termsToExprs ts)) (ofPoly ⟨us ++ ts⟩)
      (∀ t ∈ ts, within t) := by
  induction ts generalizing us with
  | nil =>
    rw [termsToExprs, ofSum, List.append_nil]
    exact (Returns.of_eq rfl).congr (by simp)
  | cons t ts ih =>
    obtain ⟨⟨fs, e⟩, c⟩ := t
    obtain ⟨head, tail⟩ := List.forall_mem_cons.mp each
    have moved : us ++ (⟨fs, e⟩, c) :: ts = (us ++ [(⟨fs, e⟩, c)]) ++ ts := by simp
    rw [moved] at reduced ⊢
    have first : Poly.Reduced ⟨us ++ [(⟨fs, e⟩, c)]⟩ := reduced.of_sublist (List.sublist_append_left _ _)
    have nonzero : c ≠ 0 := first.ordered.nonzero (⟨fs, e⟩, c) (by simp)
    have sum := Fraction.add_ofPoly (first.of_sublist (List.sublist_append_left _ _))
      (first.of_sublist (List.sublist_append_right _ _))
    rw [Poly.add, Poly.mergeTerms_eq_append first.ordered, ← Poly.term_of_ne_zero nonzero] at sum
    rw [termsToExprs, ofSum]
    refine (Returns.bind head fun _ => ?_).congr List.forall_mem_cons.symm
    change Returns ((ofPoly ⟨us⟩).add (ofPoly (.term ⟨fs, e⟩ c)) >>= _) _ _
    rw [sum]
    exact ih reduced tail

/-- The tree of a polynomial. -/
theorem becomes_poly {p : Poly} (reduced : p.Reduced)
    (each : ∀ t ∈ p.terms, TermBecomes max t (within t)) :
    p.toExpr.Becomes max (ofPoly p) (∀ t ∈ p.terms, within t) := by
  obtain ⟨ts⟩ := p
  rw [Poly.toExpr]
  match ts with
  | [] =>
    rw [termsToExprs, ofTerms, Becomes, zero, ofExpr]
    exact (Returns.of_eq rfl).congr (by simp)
  | [(⟨fs, e⟩, c)] =>
    have nonzero : c ≠ 0 := reduced.ordered.nonzero (⟨fs, e⟩, c) List.mem_cons_self
    have single := each (⟨fs, e⟩, c) List.mem_cons_self
    rw [TermBecomes, Poly.term_of_ne_zero nonzero] at single
    rw [termsToExprs, termsToExprs, ofTerms]
    exact Returns.congr single List.forall_mem_singleton.symm
  | (⟨fs, e⟩, c) :: (⟨gs, f⟩, d) :: ts =>
    have several : Returns (ofSum max (ofPoly ⟨[]⟩) _) _ _ := ofSum_terms reduced each
    rw [termsToExprs, termsToExprs] at several ⊢
    rw [ofTerms, Becomes, ofExpr]
    · exact several
    · intro empty
      cases empty
    · intro x single
      cases single

/-! ## Exponentials and powers -/

/-- The exponential of an exponent without multiples of logarithms. -/
theorem exp_stable (nonzero : ts ≠ [])
    (turned : ((Poly.mk ts).coefficient? Monomial.halfTurn).bind Poly.unitRoot? = none)
    (stable : ts.all fun t => (Fraction.logarithm? t).isNone) :
    (ofPoly ⟨ts⟩).exp max = .ok (ofPoly (.term (.exponential ⟨ts⟩) 1)) := by
  have irreducible : (Monomial.exponential ⟨ts⟩).Irreducible :=
    ⟨by simp [Monomial.exponential], by simp [Monomial.exponential],
      by simp [Monomial.exponential], turned⟩
  have none : ts.filterMap Fraction.logarithm? = [] := by
    refine List.filterMap_eq_nil_iff.mpr fun t member => ?_
    exact Option.isNone_iff_eq_none.mp (List.all_eq_true.mp stable t member)
  have all : (ts.filter fun t => (Fraction.logarithm? t).isNone) = ts :=
    List.filter_eq_self.mpr (List.all_eq_true.mp stable)
  have product := Fraction.mul_term (Monomial.one_combine (.exponential ⟨ts⟩)) irreducible 1 1
  rw [mul_one] at product
  have proper : (ofPoly ⟨ts⟩).isZero = false := by
    simpa [Fraction.isZero, Poly.isZero, ofPoly] using nonzero
  have whole : (ofPoly ⟨ts⟩).den.isOne = true := rfl
  unfold Fraction.exp
  rw [proper, whole, if_neg (by decide), if_neg (by decide)]
  change (Fraction.takeLogarithms max .one (ts.filterMap Fraction.logarithm?) >>= fun result =>
    (Monomial.exponential ⟨ts.filter fun t => (Fraction.logarithm? t).isNone⟩).reduce >>= fun q =>
      result.mul (ofPoly q)) = _
  rw [none, all]
  change ((Monomial.exponential ⟨ts⟩).reduce >>= fun q => Fraction.one.mul (ofPoly q)) = _
  rw [Monomial.reduce_irreducible irreducible]
  exact product

/-- A power whose exponent is a literal. -/
theorem becomes_power {b : Expr} {q : Rat} {s : Fraction} {v : Prop} (base : b.Becomes max r w)
    (power : Returns (r.pow (.constant q) max) s v) :
    (Expr.power b (.number q)).Becomes max s (w ∧ v) := by
  rw [Becomes, ofExpr]
  refine base.bind fun _ => ?_
  rw [ofExpr]
  exact power

/-- An integer power of an atom. -/
theorem becomes_raised (atom : a.toExpr.Becomes max (.ofAtom a) w) (fits : fitsInt64 n = true)
    (index : ∀ p i, a = .root p i → 2 ≤ i) (settled : Monomial.settleFactor a n = .ok (1, n))
    (below : Monomial.excess? a n = none) :
    (a.toExpr.raised n).Becomes max (ofPower a n) (w ∧ (n = 1 ∨ n.natAbs ≤ max)) := by
  unfold raised
  split
  · rename_i one
    rw [one]
    exact Returns.congr atom (by simp)
  rename_i other
  have power := Fraction.powInt_ofAtom max fits (Monomial.not_surd_of_neg index settled)
    fun k above under => Monomial.irreducible_between index settled below above under
  refine (becomes_power (v := n.natAbs ≤ max) atom ?_).congr (by simp [other])
  rw [Fraction.pow_int, if_pos fits, power]
  split
  · exact .of_error rfl (by omega)
  · exact (Returns.of_eq rfl).congr (iff_of_true trivial (by omega))

/-- The power with the reciprocal of an index is the principal root, if multiplying
that by one changes nothing. -/
theorem powRat_reciprocal {k : Nat} {s : Fraction} (proper : 2 ≤ k) (root : r.root k = .ok s)
    (left : Fraction.one.mul s = .ok s) (right : s.mul .one = .ok s) :
    Returns (r.powRat (mkRat 1 k) max) s (k ≤ max) := by
  have value : mkRat 1 k = (k : Rat)⁻¹ := by
    rw [Rat.mkRat_eq_div]
    simp
  have den : (mkRat 1 k).den = k := by
    rw [value, Rat.inv_natCast_den, if_neg (by omega)]
  have num : (mkRat 1 k).num = 1 := by
    rw [value, Rat.inv_natCast_num]
    exact Int.sign_eq_one_of_pos (by omega)
  have floor : (mkRat 1 k).floor = 0 := by
    rw [Rat.floor_def, num, den]
    exact Int.ediv_eq_zero_of_lt (by decide) (by omega)
  have first (positive : 1 ≤ max) : s.powInt 1 max = .ok s := by
    unfold Fraction.powInt
    rw [if_neg (by omega), if_neg (by decide)]
    change squaring Fraction.mul .one s 1 = _
    rw [squaring_step, if_neg (by decide), if_pos rfl, left]
    rfl
  have none : r.powInt 0 max = .ok .one := by
    unfold Fraction.powInt
    rw [if_neg (by omega), if_neg (by decide)]
    change squaring Fraction.mul .one r 0 = _
    rw [squaring_step, if_pos rfl]
  unfold Fraction.powRat
  dsimp only
  rw [floor, Int.cast_zero, sub_zero, den, num, if_neg (by omega)]
  split
  · exact .of_error rfl (by omega)
  · rename_i within
    rw [if_neg (by decide), if_neg (by decide), root, none]
    change Returns (s.powInt 1 max >>= fun s => s.mul .one) _ _
    rw [first (by omega)]
    change Returns (s.mul .one) _ _
    rw [right]
    exact (Returns.of_eq rfl).congr (iff_of_true trivial (not_lt.mp within))

/-- A single atom that is multiplied by one stays as it is. -/
theorem ofAtom_unit (index : ∀ p i, a = .root p i → 2 ≤ i) :
    Fraction.one.mul (.ofAtom a) = .ok (.ofAtom a) ∧
      (Fraction.ofAtom a).mul .one = .ok (.ofAtom a) := by
  have irreducible := Vocabulary.irreducible_ofAtom index
  have left := Fraction.mul_term (Monomial.one_combine ⟨[(a, 1)], .zero⟩) irreducible 1 1
  have right := Fraction.mul_term (Monomial.combine_one ⟨[(a, 1)], .zero⟩) irreducible 1 1
  rw [mul_one] at left right
  exact ⟨left, right⟩

/-! ## Quotients -/

/-- A denominator without surds and common monomial is left as it is. -/
theorem make_stable {num den : Poly} (several : 2 ≤ den.terms.length)
    (leading : den.leading? = some 1) (nonzero : num.isZero = false)
    (surdless : den.firstSurd? = none) (common : den.commonMonomial.isOne = true)
    (lowest : ∀ c, c ≠ 0 → num ≠ den.scale c) : Fraction.make num den = .ok ⟨num, den⟩ := by
  have rationalised : Fraction.rationalise Fraction.maxRounds num den = .ok (num, den) := by
    rw [Fraction.maxRounds, Fraction.rationalise, surdless]
  have cancelled : Fraction.cancelMonomial num den = .ok (num, den) := if_pos common
  have final : Fraction.monic num den = ⟨num, den⟩ := by
    unfold Fraction.monic
    rw [leading]
    dsimp only [Option.getD_some]
    rw [inv_one, Poly.scale_one, Poly.scale_one]
    split
    · rename_i ratio first
      rw [if_neg]
      rintro ⟨-, multiple⟩
      by_cases zero : ratio = 0
      · rw [multiple, zero, Poly.scale, if_pos rfl] at nonzero
        cases nonzero
      · exact lowest ratio zero multiple
    · rfl
  unfold Fraction.make
  rw [nonzero, rationalised]
  have proper : den.isZero = false := by
    obtain ⟨ts⟩ := den
    cases ts with
    | nil => cases several
    | cons t ts => rfl
  have plain : den.singleTerm? = none := by
    obtain ⟨ts⟩ := den
    rcases ts with _ | ⟨t, _ | ⟨u, ts⟩⟩
    · cases several
    · exact absurd several (by simp)
    · rfl
  rw [proper]
  change (Fraction.cancelMonomial num den >>= fun q => _) = _
  rw [cancelled]
  simp only [bind, Except.bind, plain]
  exact congrArg Except.ok final

section Quotient

variable {num den : Poly}

/-- What stands over one is left as it is, if the product is not too large. -/
theorem quotient_becomes (top : num.Reduced) (bottom : den.Reduced)
    (made : Fraction.make num den = .ok ⟨num, den⟩) :
    Returns ((ofPoly num).mul ⟨.one, den⟩) ⟨num, den⟩
      (num.terms.length ≤ maxTerms ∧ den.terms.length ≤ maxTerms) := by
  unfold Fraction.mul
  dsimp only [ofPoly]
  refine (Poly.mul_one_returns top).bind fun _ => ?_
  exact (Poly.one_mul_returns bottom).bind_eq fun _ => made

/-- The reciprocal of a denominator that needs no further round. -/
theorem make_reciprocal (several : 2 ≤ den.terms.length) (leading : den.leading? = some 1)
    (surdless : den.firstSurd? = none) (common : den.commonMonomial.isOne = true) :
    Fraction.make .one den = .ok ⟨.one, den⟩ := by
  refine make_stable several leading rfl surdless common fun c proper same => ?_
  have lengths := congrArg List.length (congrArg Poly.terms same)
  rw [Poly.terms_scale proper, List.length_map] at lengths
  change 1 = den.terms.length at lengths
  omega

theorem becomes_reciprocal (several : 2 ≤ den.terms.length) (leading : den.leading? = some 1)
    (bottom : den.Reduced) (surdless : den.firstSurd? = none)
    (common : den.commonMonomial.isOne = true) {y : Expr} (below : y.Becomes max (ofPoly den) w) :
    (Expr.power y (.int (-1))).Becomes max ⟨.one, den⟩
      (w ∧ 1 ≤ max ∧ den.terms.length ≤ maxTerms) := by
  have made := make_reciprocal several leading surdless common
  refine becomes_power below ?_
  rw [Fraction.pow_int, if_pos (by rfl)]
  have inverse : (ofPoly den).inverse = .ok ⟨.one, den⟩ := by
    obtain ⟨ts⟩ := den
    match ts, several with
    | t :: u :: ts, _ => exact made
  unfold Fraction.powInt
  by_cases guard : max < (-1 : Int).natAbs
  · rw [if_pos guard]
    exact .of_error rfl (by omega)
  rw [if_neg guard, if_pos (by decide), inverse]
  change Returns (squaring Fraction.mul .one ⟨.one, den⟩ 1) _ _
  rw [squaring_step, if_neg (by decide), if_pos rfl]
  refine ((quotient_becomes (.constant 1) bottom made).bind_eq fun _ => rfl).congr ?_
  have few : Poly.one.terms.length ≤ maxTerms := by decide
  exact and_congr_left fun _ => iff_of_true few (by omega)

/-- Nothing is divided by zero. -/
theorem reciprocal_zero {y : Expr} (below : y.Becomes max (ofPoly .zero) w) :
    (Expr.power y (.int (-1))).Becomes max r False := by
  refine Returns.congr (becomes_power (v := False) below ?_) (and_false _).to_iff
  rw [Fraction.pow_int, if_pos (by rfl)]
  unfold Fraction.powInt
  by_cases guard : max < (-1 : Int).natAbs
  · rw [if_pos guard]
    exact .of_error rfl id
  · rw [if_neg guard]
    exact .of_error rfl id

/-- The tree of a quotient, if the reciprocal of the denominator returns. -/
theorem becomes_quotient (top : num.Reduced) (bottom : den.Reduced) {x y : Expr}
    (above : x.Becomes max (ofPoly num) w)
    (reciprocal : (Expr.power y (.int (-1))).Becomes max ⟨.one, den⟩ w')
    (made : w' → Fraction.make num den = .ok ⟨num, den⟩)
    (small : w' → den.terms.length ≤ maxTerms) :
    (x.overDenominator y).Becomes max ⟨num, den⟩ (w ∧ w' ∧ num.terms.length ≤ maxTerms) := by
  -- The reciprocal is the last factor of the product.
  have last : Returns (ofProduct max (ofPoly num) [.power y (.int (-1))]) ⟨num, den⟩
      (w' ∧ num.terms.length ≤ maxTerms) := by
    rw [ofProduct]
    refine (reciprocal.bind fun holds =>
      (quotient_becomes top bottom (made holds)).bind_eq fun _ => ?_).congr ?_
    · rw [ofProduct]
    · exact and_congr_right fun holds => and_iff_left (small holds)
  have product : Returns (ofProduct max .one [x, .power y (.int (-1))]) ⟨num, den⟩
      (w ∧ w' ∧ num.terms.length ≤ maxTerms) := by
    have first : Returns (Fraction.one.mul (ofPoly num)) (ofPoly num)
        (num.terms.length ≤ maxTerms) := by
      rw [Fraction.one, Fraction.mul_ofPoly]
      exact (Poly.one_mul_returns top).bind_eq fun _ => Fraction.make_one top
    rw [ofProduct]
    refine (above.bind fun _ => first.bind fun _ => last).congr ?_
    tauto
  unfold overDenominator
  dsimp only
  split
  · rename_i xs
    rw [Becomes, ofExpr] at above ⊢
    rw [ofProduct_append]
    exact above.bind fun _ => last
  · rename_i q
    split
    · rename_i one
      rw [Becomes, ofExpr, one] at above
      obtain ⟨holds, same⟩ := (above Fraction.one).mp rfl
      have unit : Poly.one = num := (Fraction.mk.inj same).1
      rw [← unit]
      refine Returns.congr reciprocal ?_
      have few : Poly.one.terms.length ≤ maxTerms := by decide
      tauto
    · rw [Becomes, ofExpr]
      exact product
  · rw [Becomes, ofExpr]
    exact product

end Quotient

end Expr

end Discharge
