import Mathlib
import Discharge.Proofs.Denominator.Values
import Discharge.Proofs.Differential.Divisors
import Discharge.Proofs.Differential.Field
import Discharge.Proofs.Trail

/-! Antiderivatives in a differential field. Every monomial is the product of a
constant and a function of one of five shapes; the piece that is found for a
shape has that function as its derivative, and the antiderivative is put together
from the pieces by arithmetic that keeps values. -/

namespace Discharge

open Antiderivative (logOf powerOf)

variable {K : Type*} [Field K] [Algebra ℚ K] {v : Valuation K} {d : Derivation ℚ K K} {x : String}
  {m : Monomial} {p : Poly} {fs : List (Atom × Int)} {ts : List (Monomial × Rat)}

namespace Valuation

/-- The values are those of a differential field in which `x` is the variable:
all known atoms without it are constant, exponentials of what may stand in
exponents follow the chain rule, and so does the logarithm of the variable. -/
structure Differential (v : Valuation K) (d : Derivation ℚ K K) (x : String) : Prop where
  lawful : v.Lawful
  invertible : ∀ a, v.atom a ≠ 0 → v.invertible a
  nested : ∀ m, v.inner m → v.Admits m
  symbol : v.known (.symbol x)
  logarithm : v.known (logOf x)
  variable_ : d (v.atom (.symbol x)) = 1
  free : ∀ a, v.known a → a.mentions x = false → d (v.atom a) = 0
  chain : ∀ p : Poly, p.Ordered → p.All v.inner →
    d (v.exp (v.poly p)) = v.exp (v.poly p) * d (v.poly p)
  log : d (v.atom (logOf x)) = 1 / v.atom (.symbol x)

end Valuation

theorem lnOf_eq (x : String) : Antiderivative.lnOf x = .ok (.ofAtom (logOf x)) := rfl

/-! ## Occurrences -/

theorem factorsMention_eq_false_iff :
    factorsMention x fs = false ↔ ∀ f ∈ fs, f.1.mentions x = false := by
  induction fs with
  | nil => simp [factorsMention]
  | cons f fs ih => rw [factorsMention, Bool.or_eq_false_iff, ih, List.forall_mem_cons]

theorem termsMention_eq_false_iff :
    termsMention x ts = false ↔ ∀ t ∈ ts, t.1.mentions x = false := by
  induction ts with
  | nil => simp [termsMention]
  | cons t ts ih => rw [termsMention, Bool.or_eq_false_iff, ih, List.forall_mem_cons]

namespace Valuation

/-! ## Constants -/

theorem factors_constant (differential : v.Differential d x) (each : ∀ f ∈ fs, v.known f.1)
    (unmentioned : factorsMention x fs = false) : d (v.factors fs) = 0 := by
  induction fs with
  | nil => simp
  | cons f fs ih =>
    obtain ⟨a, n⟩ := f
    obtain ⟨head, tail⟩ := List.forall_mem_cons.mp each
    rw [factorsMention, Bool.or_eq_false_iff] at unmentioned
    rw [factors_cons, d.leibniz, ih tail unmentioned.2, intPower_eq_zpow, derivation_zpow,
      differential.free a head unmentioned.1]
    simp

mutual
/-- What is built from atoms without the variable is constant. -/
theorem monomial_constant (differential : v.Differential d x) :
    ∀ m : Monomial, v.Admits m → m.mentions x = false → d (v.monomial m) = 0
  | ⟨fs, e⟩, admitted, unmentioned => by
    rw [Monomial.mentions, Bool.or_eq_false_iff] at unmentioned
    have exponent := poly_constant_of_unmentioned differential e
      (fun t member => differential.nested t.1 (admitted.inner t member)) unmentioned.2
    have known : ∀ f ∈ fs, v.known f.1 := fun f member => (admitted.factor f member).known
    rw [monomial, d.leibniz, differential.chain e admitted.exponent admitted.inner, exponent,
      factors_constant differential known unmentioned.1]
    simp

theorem poly_constant_of_unmentioned (differential : v.Differential d x) :
    ∀ p : Poly, p.All v.Admits → p.mentions x = false → d (v.poly p) = 0
  | ⟨ts⟩, all, unmentioned => by
    rw [Poly.mentions] at unmentioned
    rw [poly]
    exact terms_constant differential ts all unmentioned

theorem terms_constant (differential : v.Differential d x) :
    ∀ ts : List (Monomial × Rat), (∀ t ∈ ts, v.Admits t.1) → termsMention x ts = false →
      d (v.terms ts) = 0
  | [], _, _ => by rw [terms, map_zero]
  | (m, c) :: ts, all, unmentioned => by
    obtain ⟨head, tail⟩ := List.forall_mem_cons.mp all
    rw [termsMention, Bool.or_eq_false_iff] at unmentioned
    rw [terms, d.map_add, d.leibniz, d.map_algebraMap,
      monomial_constant differential m head unmentioned.1,
      terms_constant differential ts tail unmentioned.2]
    simp
end

/-! ## Splitting monomials -/

theorem factors_filter (v : Valuation K) (P : Atom × Int → Bool) (fs : List (Atom × Int)) :
    v.factors fs = v.factors (fs.filter fun f => !P f) * v.factors (fs.filter P) := by
  induction fs with
  | nil => simp
  | cons f fs ih =>
    obtain ⟨a, n⟩ := f
    rw [factors_cons, ih]
    cases chosen : P (a, n)
    · simp [chosen, mul_assoc]
    · simp [chosen, mul_left_comm]

theorem terms_filter (v : Valuation K) (P : Monomial × Rat → Bool) (ts : List (Monomial × Rat)) :
    v.terms ts = v.terms (ts.filter fun t => !P t) + v.terms (ts.filter P) := by
  induction ts with
  | nil => simp
  | cons t ts ih =>
    obtain ⟨m, c⟩ := t
    rw [terms_cons, ih]
    cases chosen : P (m, c)
    · simp [chosen, add_assoc]
    · simp [chosen, add_left_comm]

/-- Some of the factors and some of the terms of the exponent. -/
theorem Admits.part {A : Type*} [CommRing A] [Algebra ℚ A] {v : Valuation A}
    (admitted : v.Admits m) (P : Atom × Int → Bool) (Q : Monomial × Rat → Bool) :
    v.Admits ⟨m.factors.filter P, ⟨m.exp.terms.filter Q⟩⟩ where
  increasing := admitted.increasing.filter P
  factor f member := admitted.factor f (List.mem_of_mem_filter member)
  exponent := ⟨admitted.exponent.increasing.filter Q,
    fun t member => admitted.exponent.nonzero t (List.mem_of_mem_filter member)⟩
  turning := admitted.turning.imp_left fun none => by rw [none]; rfl
  inner t member := admitted.inner t (List.mem_of_mem_filter member)

theorem split_eq (m : Monomial) (x : String) : m.split x =
    (⟨m.factors.filter fun f => f.1.mentions x,
        ⟨m.exp.terms.filter fun t => t.1.mentions x⟩⟩,
      ⟨m.factors.filter fun f => !f.1.mentions x,
        ⟨m.exp.terms.filter fun t => !t.1.mentions x⟩⟩) := by
  rw [Monomial.split, List.partition_eq_filter_filter, List.partition_eq_filter_filter]
  rfl

theorem monomial_split (m : Monomial) (x : String) :
    v.monomial m = v.monomial (m.split x).2 * v.monomial (m.split x).1 := by
  rw [split_eq, monomial_eq, monomial_eq, monomial_eq,
    v.factors_filter (fun f => f.1.mentions x) m.factors, poly_eq,
    v.terms_filter (fun t => t.1.mentions x) m.exp.terms, v.exp_add]
  simp only [poly_eq]
  ring

theorem mentions_logOf (x : String) : (logOf x).mentions x = true := by
  simp [logOf, Atom.mentions, Fraction.mentions, Fraction.ofAtom, Fraction.ofPoly, Poly.ofAtom,
    Poly.mentions, termsMention, Monomial.mentions, factorsMention]

/-- The dependent part has the exponents of all atoms with the variable. -/
theorem count_split (m : Monomial) {a : Atom} (dependent : a.mentions x = true) :
    (m.split x).1.count a = m.count a := by
  rw [split_eq, Monomial.count_eq, Monomial.count_eq]
  dsimp only
  induction m.factors with
  | nil => rfl
  | cons f fs ih =>
    obtain ⟨b, n⟩ := f
    rw [Monomial.exponentIn_cons, List.filter_cons]
    by_cases same : a = b
    · rw [← same, if_pos dependent, Monomial.exponentIn_cons, if_pos rfl, if_pos rfl]
    · rw [if_neg same, ← ih]
      split
      · rw [Monomial.exponentIn_cons, if_neg same]
      · rfl

theorem unmentioned_split (m : Monomial) (x : String) : (m.split x).2.mentions x = false := by
  rw [split_eq, Monomial.mentions, Bool.or_eq_false_iff, factorsMention_eq_false_iff, Poly.mentions,
    termsMention_eq_false_iff]
  constructor
  · intro f member
    simpa using (List.mem_filter.mp member).2
  · intro t member
    simpa using (List.mem_filter.mp member).2

/-! ## Linear exponents -/

end Valuation

/-- A factor set to the exponent that it had. -/
theorem Monomial.setCount_filter {a : Atom} {n : Int} (increasing : Increasing fs)
    (nonzero : n ≠ 0) (count : exponentIn fs a = n) :
    setCount a n (fs.filter fun f => f.1 ≠ a) = fs := by
  induction fs with
  | nil => exact absurd count.symm nonzero
  | cons f fs ih =>
    obtain ⟨b, k⟩ := f
    obtain ⟨behind, rest⟩ := increasing_cons.mp increasing
    rw [exponentIn_cons] at count
    by_cases same : a = b
    · subst same
      rw [if_pos rfl] at count
      have others : (fs.filter fun f => f.1 ≠ a) = fs := by
        refine List.filter_eq_self.mpr fun f member => ?_
        have less := behind f member
        refine decide_eq_true fun equal => ?_
        rw [equal, (Atom.compare_eq_iff a a).mpr rfl] at less
        cases less
      rw [List.filter_cons_of_neg (by simp), others, count]
      cases fs with
      | nil => rfl
      | cons g fs =>
        obtain ⟨c, l⟩ := g
        have less : Atom.compare a c = .lt := behind (c, l) List.mem_cons_self
        rw [setCount, less]
    · rw [if_neg same] at count
      have less : Atom.compare b a = .lt :=
        behind (a, exponentIn fs a) (mem_of_exponentIn (count.trans_ne nonzero))
      rw [List.filter_cons_of_pos (by simpa using Ne.symm same), setCount,
        Atom.compare_gt_iff.mpr less]
      simp only
      rw [ih rest count]

namespace Valuation

/-- A monomial with the variable as one more factor. -/
def raised (x : String) (m : Monomial) : Monomial :=
  ⟨Monomial.setCount (.symbol x) 1 m.factors, m.exp⟩

/-- A monomial that may stand in front of the variable in an exponent. -/
structure Coefficient (v : Valuation K) (x : String) (m : Monomial) : Prop where
  admitted : v.Admits m
  free : m.mentions x = false
  inner : v.inner (raised x m)

theorem Coefficient.value (coefficient : v.Coefficient x m) (known : v.known (.symbol x)) :
    v.monomial (raised x m) = v.atom (.symbol x) * v.monomial m := by
  obtain ⟨fs, e⟩ := m
  have free := coefficient.free
  rw [Monomial.mentions, Bool.or_eq_false_iff, factorsMention_eq_false_iff] at free
  refine (coefficient.admitted.setCount (fun f member same => ?_) known).2
  have other := free.1 f member
  rw [same] at other
  simp [Atom.mentions] at other

/-- A monomial without the factor that is the variable. -/
def lowered (x : String) (m : Monomial) : Monomial :=
  ⟨m.factors.filter fun f => f.1 ≠ .symbol x, m.exp⟩

theorem linearTerms_cons {c : Rat} {qs : List Poly}
    (found : Antiderivative.linearTerms? x ((m, c) :: ts) = some qs) :
    m.count (.symbol x) = 1 ∧ (lowered x m).mentions x = false ∧
      ∃ rest, Antiderivative.linearTerms? x ts = some rest ∧
        qs = .term (lowered x m) c :: rest := by
  rw [Antiderivative.linearTerms?] at found
  split at found
  · cases found
  rename_i linear
  dsimp only at found
  split at found
  · cases found
  rename_i unmentioned
  obtain ⟨rest, others, last⟩ := Option.bind_eq_some_iff.mp found
  cases last
  exact ⟨not_not.mp linear, Bool.eq_false_iff.mpr unmentioned, rest, others, rfl⟩

theorem lowered_spec (differential : v.Differential d x) (inner : v.inner m)
    (linear : m.count (.symbol x) = 1) (free : (lowered x m).mentions x = false) :
    v.Coefficient x (lowered x m) ∧
      v.monomial m = v.atom (.symbol x) * v.monomial (lowered x m) := by
  have admitted := differential.nested m inner
  have whole : raised x (lowered x m) = m := by
    obtain ⟨fs, e⟩ := m
    rw [Monomial.count_eq] at linear
    exact congrArg (Monomial.mk · e)
      (Monomial.setCount_filter admitted.increasing one_ne_zero linear)
  have part : v.Admits (lowered x m) := by
    obtain ⟨fs, ⟨ts⟩⟩ := m
    have chosen := admitted.part (fun f => f.1 ≠ .symbol x) (fun _ => true)
    rwa [List.filter_true] at chosen
  have coefficient : v.Coefficient x (lowered x m) := ⟨part, free, by rwa [whole]⟩
  exact ⟨coefficient, by rw [← coefficient.value differential.symbol, whole]⟩

/-- The terms of a linear exponent, without the variable. -/
theorem linearTerms_spec (differential : v.Differential d x) {qs : List Poly}
    (each : ∀ t ∈ ts, v.inner t.1) (found : Antiderivative.linearTerms? x ts = some qs) :
    (∀ q ∈ qs, v.AdmitsPoly q ∧ q.All (v.Coefficient x)) ∧
      v.terms ts = v.atom (.symbol x) * (qs.map v.poly).sum := by
  induction ts generalizing qs with
  | nil =>
    cases found
    simp
  | cons t ts ih =>
    obtain ⟨m, c⟩ := t
    obtain ⟨head, tail⟩ := List.forall_mem_cons.mp each
    obtain ⟨linear, free, rest, others, rfl⟩ := linearTerms_cons found
    obtain ⟨coefficient, value⟩ := lowered_spec differential head linear free
    obtain ⟨admitted, sum⟩ := ih tail others
    refine ⟨List.forall_mem_cons.mpr
      ⟨⟨.term coefficient.admitted c, .term coefficient c⟩, admitted⟩, ?_⟩
    rw [terms_cons, value, sum, List.map_cons, List.sum_cons, poly_term]
    ring

/-- The rate of a linear exponent. -/
structure Rate (v : Valuation K) (d : Derivation ℚ K K) (x : String) (rate : Poly) : Prop where
  admitted : v.AdmitsPoly rate
  constant : d (v.poly rate) = 0
  linear : v.Admits (.exponential (Antiderivative.linearTerm rate x)) ∧
    v.poly (Antiderivative.linearTerm rate x) = v.atom (.symbol x) * v.poly rate

theorem linearCoefficient_spec (differential : v.Differential d x) {rate : Poly}
    (turning : v.turning) (inner : p.All v.inner)
    (found : Antiderivative.linearCoefficient? p x = some rate) :
    v.Rate d x rate ∧ v.poly p = v.atom (.symbol x) * v.poly rate := by
  obtain ⟨qs, terms, rfl⟩ := Option.map_eq_some_iff.mp found
  obtain ⟨each, value⟩ := linearTerms_spec differential inner terms
  have coefficients : (Poly.sum qs).All (v.Coefficient x) := .sum fun q member => (each q member).2
  have admitted : v.AdmitsPoly (Poly.sum qs) := .sum fun q member => (each q member).1
  refine ⟨⟨admitted, ?_, ?_⟩, by rw [poly_eq, value, poly_sum]⟩
  · refine poly_constant_of_unmentioned differential _ admitted.all ?_
    generalize Poly.sum qs = rate at coefficients
    obtain ⟨ts⟩ := rate
    rw [Poly.mentions, termsMention_eq_false_iff]
    exact fun t member => (coefficients t member).free
  · generalize Poly.sum qs = rate at coefficients
    obtain ⟨ts⟩ := rate
    have inner : ∀ p ∈ ts.map fun t => Poly.term (raised x t.1) t.2, p.Ordered ∧ p.All v.inner := by
      refine List.forall_mem_map.mpr fun t member => ?_
      exact ⟨.term _ _, .term (coefficients t member).inner _⟩
    refine ⟨⟨.nil, by simp [Monomial.exponential], .sum fun p member => (inner p member).1,
      .inr turning, .sum fun p member => (inner p member).2⟩, ?_⟩
    change v.poly (.sum (ts.map fun t => Poly.term (raised x t.1) t.2)) = _
    rw [poly_sum, poly_eq, List.map_map]
    clear inner
    induction ts with
    | nil => simp
    | cons t ts ih =>
      obtain ⟨head, tail⟩ := List.forall_mem_cons.mp coefficients
      rw [List.map_cons, List.sum_cons, ih tail, terms_cons, Function.comp_apply, poly_term,
        head.value differential.symbol]
      ring

/-! ## Shapes -/

theorem shapeFactors_spec {k k' : Int} {b b' : Bool} (increasing : Monomial.Increasing fs)
    (each : ∀ f ∈ fs, v.AdmitsFactor f)
    (ran : Antiderivative.shapeFactors x k b fs = .ok (k', b')) :
    v.factors fs = v.atom (.symbol x) ^ Monomial.exponentIn fs (.symbol x) *
        v.atom (logOf x) ^ Monomial.exponentIn fs (logOf x) ∧
      k' = (if Monomial.exponentIn fs (.symbol x) = 0 then k
        else Monomial.exponentIn fs (.symbol x)) ∧
      (Monomial.exponentIn fs (logOf x) = 0 ∧ b' = b ∨
        Monomial.exponentIn fs (logOf x) = 1 ∧ b' = true) := by
  induction fs generalizing k b with
  | nil =>
    cases ran
    simp
  | cons f fs ih =>
    obtain ⟨a, n⟩ := f
    obtain ⟨behind, rest⟩ := Monomial.increasing_cons.mp increasing
    obtain ⟨head, tail⟩ := List.forall_mem_cons.mp each
    have nonzero : n ≠ 0 := head.nonzero
    rw [Antiderivative.shapeFactors] at ran
    split at ran
    · rename_i own
      subst own
      have alone := Monomial.exponentIn_of_behind behind
      have other : logOf x ≠ .symbol x := nofun
      obtain ⟨value, degree, logarithm⟩ := ih rest tail ran
      rw [alone, zpow_zero, one_mul] at value
      rw [if_pos alone] at degree
      simp only [Monomial.exponentIn_cons, if_pos, if_neg other, if_neg nonzero]
      exact ⟨by rw [factors_cons, value, intPower_eq_zpow], degree, logarithm⟩
    split at ran
    · rename_i other own
      obtain ⟨rfl, rfl⟩ := own
      have alone := Monomial.exponentIn_of_behind behind
      obtain ⟨value, degree, logarithm⟩ := ih rest tail ran
      rw [alone, zpow_zero, mul_one] at value
      rw [alone] at logarithm
      simp only [Monomial.exponentIn_cons, if_pos, if_neg (Ne.symm other)]
      refine ⟨?_, degree, .inr ⟨trivial, ?_⟩⟩
      · rw [factors_cons, value, intPower_one, zpow_one, mul_comm]
      · exact (logarithm.resolve_right fun one => absurd one.1 zero_ne_one).2
    · cases ran

/-- The function that a shape describes. -/
noncomputable def shapeValue (v : Valuation K) (x : String) (s : Antiderivative.Shape) : K :=
  v.atom (.symbol x) ^ s.degree * (if s.logarithm then v.atom (logOf x) else 1) *
    (match s.rate with
      | none => 1
      | some rate => v.exp (v.atom (.symbol x) * v.poly rate))

/-- What a shape tells about the monomial. -/
structure Shaped (v : Valuation K) (d : Derivation ℚ K K) (x : String) (m : Monomial)
    (s : Antiderivative.Shape) : Prop where
  value : v.monomial m = shapeValue v x s
  degree : s.degree = m.count (.symbol x)
  rate : ∀ rate, s.rate = some rate → v.Rate d x rate

theorem shape_spec (differential : v.Differential d x) (admitted : v.Admits m)
    {s : Antiderivative.Shape} (ran : Antiderivative.shape m x = .ok s) : Shaped v d x m s := by
  obtain ⟨⟨degree, logarithm⟩, factors, ran⟩ := bind_eq_ok ran
  obtain ⟨value, same, log⟩ := shapeFactors_spec admitted.increasing admitted.factor factors
  have degree_eq : degree = m.count (.symbol x) := by
    rw [Monomial.count_eq, same]
    split
    · exact Eq.symm ‹_›
    · rfl
  have power : v.factors m.factors =
      v.atom (.symbol x) ^ degree * (if logarithm then v.atom (logOf x) else 1) := by
    rw [value, degree_eq, Monomial.count_eq]
    rcases log with ⟨zero, rfl⟩ | ⟨one, rfl⟩
    · rw [zero, zpow_zero, if_neg nofun]
    · rw [one, zpow_one, if_pos rfl]
  dsimp only at ran
  split at ran
  · rename_i empty
    cases ran
    refine ⟨?_, degree_eq, nofun⟩
    rw [monomial_eq, power, poly_of_isZero empty, v.exp_zero]
    rfl
  · rename_i proper
    have turning : v.turning := by
      refine admitted.turning.resolve_left fun zero => proper ?_
      rw [zero]
      rfl
    split at ran
    · rename_i rate found
      cases ran
      obtain ⟨linear, exponent⟩ := linearCoefficient_spec differential turning admitted.inner found
      refine ⟨?_, degree_eq, ?_⟩
      · rw [monomial_eq, power, exponent]
        rfl
      · rintro _ ⟨⟩
        exact linear
    · cases ran

/-! ## Powers and logarithms of the variable -/

section Pieces

variable (differential : v.Differential d x)

include differential

theorem variable_ne_zero : v.atom (.symbol x) ≠ 0 := by
  intro zero
  have one := differential.variable_
  rw [zero, map_zero] at one
  exact zero_ne_one one

theorem derivation_power (n : Int) :
    d (v.atom (.symbol x) ^ n) = n * v.atom (.symbol x) ^ (n - 1) := by
  rw [derivation_zpow, differential.variable_, mul_one]

theorem power_valued {n : Int} (fits : fitsInt64 n = true) :
    v.Valued (.whole (powerOf x n)) (· = v.atom (.symbol x) ^ n) := by
  have admitted : v.Admits (.ofAtom (.symbol x) n) := by
    unfold Monomial.ofAtom
    split
    · exact .one
    · rename_i nonzero
      refine ⟨List.pairwise_singleton _ _, fun f member => ?_, .zero, .inl rfl, .zero⟩
      rw [List.mem_singleton.mp member]
      exact ⟨nonzero, fits, differential.symbol,
        fun _ => differential.invertible _ (variable_ne_zero differential)⟩
  refine .of_poly (.term admitted 1) ?_ []
  rw [poly_term, map_one, one_mul, monomial_eq, Monomial.ofAtom]
  split
  · rename_i zero
    simp [zero, v.exp_zero]
  · simp [intPower_eq_zpow, v.exp_zero]

theorem log_valued : v.Valued (.whole (.ofAtom (logOf x))) (· = v.atom (logOf x)) :=
  .of_poly (.ofAtom differential.logarithm) (v.poly_ofAtom _) []

theorem derivation_powerLog {n : Int} (nonzero : n ≠ 0) :
    d (algebraMap ℚ K (n : ℚ)⁻¹ * (v.atom (.symbol x) ^ n * v.atom (logOf x)) +
        -(algebraMap ℚ K ((n * n : Int) : ℚ)⁻¹ * v.atom (.symbol x) ^ n)) =
      v.atom (.symbol x) ^ (n - 1) * v.atom (logOf x) := by
  have regular := variable_ne_zero differential
  have : CharZero K := algebraRat.charZero K
  have proper : (n : K) ≠ 0 := Int.cast_ne_zero.mpr nonzero
  rw [d.map_add, d.map_neg, d.leibniz, d.leibniz, d.leibniz, d.map_algebraMap, d.map_algebraMap,
    derivation_power differential, differential.log, zpow_sub_one₀ regular]
  simp only [map_inv₀, map_intCast, smul_eq_mul]
  push_cast
  field_simp
  ring

/-- The piece for a power of the variable with its logarithm. -/
theorem powerLog_valued {k : Int} (proper : k ≠ -1) :
    Yields (Traced.powerLog x k)
      (v.Valued · fun y => d y = v.atom (.symbol x) ^ k * v.atom (logOf x)) := by
  have lawful := differential.lawful
  have invertible := differential.invertible
  unfold Traced.powerLog
  rw [lnOf_eq]
  refine Yields.bind_ok fun log found => ?_
  cases found
  refine Yields.bind_ok fun n added => ?_
  obtain ⟨fits, rfl⟩ := machineInt_eq_ok added
  have lifted := power_valued differential fits
  refine .bind (mul_valued lawful invertible lifted (log_valued differential)) fun first product => ?_
  refine Yields.bind_ok fun square multiplied => ?_
  obtain ⟨-, rfl⟩ := machineInt_eq_ok multiplied
  have below : v.Valued ((Traced.whole (powerOf x (k + 1))).scale (((k + 1) * (k + 1) : Int) : ℚ)⁻¹)
      (· = algebraMap ℚ K (((k + 1) * (k + 1) : Int) : ℚ)⁻¹ * v.atom (.symbol x) ^ (k + 1)) :=
    (lifted.scale _).mono fun z => by
      rintro ⟨_, rfl, rfl⟩
      rfl
  refine (add_valued lawful invertible (product.scale _) below.neg).mono fun t valued =>
    valued.mono ?_
  rintro _ ⟨_, _, ⟨_, ⟨_, _, rfl, rfl, rfl⟩, rfl⟩, rfl, rfl⟩
  rw [derivation_powerLog differential (by omega), add_sub_cancel_right]

/-! ## Integration by parts -/

/-- What is missing after the first `j` terms of integration by parts: with it the
sum of the terms would solve `rate · T + T' = x ^ k`. -/
noncomputable def remainder (v : Valuation K) (x : String) (rate : K) (k j : Nat) (falling : ℚ) :
    K :=
  (-1) ^ j * algebraMap ℚ K falling * (v.atom (.symbol x) ^ ((k : Int) - j) / rate ^ j)

/-- One more term moves what is missing one step on. -/
theorem derivation_byParts {rate : K} (constant : d rate = 0) (nonzero : rate ≠ 0) (k j : Nat)
    (falling : ℚ) :
    let term := algebraMap ℚ K (if j % 2 = 0 then falling else -falling) *
      (v.atom (.symbol x) ^ ((k : Int) - j) / rate ^ (j + 1))
    rate * term + d term = remainder v x rate k j falling -
      remainder v x rate k (j + 1) (falling * ((k : Int) - j)) := by
  have regular := variable_ne_zero differential
  have sign : algebraMap ℚ K (if j % 2 = 0 then falling else -falling) =
      (-1) ^ j * algebraMap ℚ K falling := by
    split
    · rename_i even
      rw [(Nat.even_iff.mpr even).neg_one_pow, one_mul]
    · rename_i odd
      rw [(Nat.not_even_iff_odd.mp (mt Nat.even_iff.mp odd)).neg_one_pow, map_neg, neg_one_mul]
  have power : d (rate ^ (j + 1)) = 0 := by rw [d.leibniz_pow, constant, smul_zero, smul_zero]
  have lower : v.atom (.symbol x) ^ ((k : Int) - (j + 1 : Nat)) =
      v.atom (.symbol x) ^ ((k : Int) - j) / v.atom (.symbol x) := by
    rw [Nat.cast_succ, ← sub_sub, zpow_sub_one₀ regular, div_eq_mul_inv]
  dsimp only
  rw [sign, remainder, remainder, lower, div_eq_mul_inv _ (rate ^ (j + 1)), d.leibniz, d.leibniz,
    d.leibniz_inv, power, ← map_one (algebraMap ℚ K), ← map_neg, ← map_pow, ← map_mul,
    d.map_algebraMap, derivation_power differential, zpow_sub_one₀ regular]
  simp only [smul_eq_mul, mul_zero, zero_add, add_zero, map_mul, map_sub, map_pow, map_neg, map_one,
    map_intCast, map_natCast]
  push_cast
  field_simp
  ring

/-- The terms of integration by parts solve `rate · T + T' = x ^ k`. -/
theorem byParts_valued {rate : Poly} (linear : v.Rate d x rate) {k max rounds j : Nat}
    (fits : fitsInt64 k = true) (rest : j + rounds = k + 1) {total : Traced}
    (start : v.Valued total fun T => v.poly rate * T + d T =
      v.atom (.symbol x) ^ k - remainder v x (v.poly rate) k j (k.descFactorial j)) :
    Yields (Traced.byParts (.whole (.ofPoly rate)) x k max rounds j (k.descFactorial j) total)
      (v.Valued · fun T => v.poly rate * T + d T = v.atom (.symbol x) ^ k) := by
  have lawful := differential.lawful
  have invertible := differential.invertible
  induction rounds generalizing j total with
  | zero =>
    obtain rfl : j = k + 1 := rest
    refine start.mono fun T holds => ?_
    rw [holds, remainder, Nat.descFactorial_of_lt (Nat.lt_succ_self k)]
    simp
  | succ rounds ih =>
    have base := Valued.of_poly (P := (· = v.poly rate)) linear.admitted rfl []
    have lifted : fitsInt64 ((k : Int) - j) = true := by
      rw [Monomial.fitsInt64_iff] at fits ⊢
      omega
    have divisor := powNat_valued lawful invertible base (j + 1) max
    rw [Nat.cast_succ] at divisor
    refine .bind divisor fun bottom below => ?_
    refine .bind (div_valued lawful invertible (power_valued differential lifted) below)
      fun term quotient => ?_
    refine .bind (add_valued lawful invertible start (quotient.scale _)) fun next sum => ?_
    have falling : (k.descFactorial j : ℚ) * (((k : Int) : ℚ) - (j : ℚ)) =
        (k.descFactorial (j + 1) : ℚ) := by
      rw [Nat.descFactorial_succ]
      push_cast [Nat.cast_sub (show j ≤ k by omega)]
      ring
    rw [falling]
    refine ih (by omega) (sum.mono ?_)
    rintro _ ⟨T, _, solved, ⟨_, ⟨_, _, rfl, rfl, regular, rfl⟩, rfl⟩, rfl⟩
    have nonzero : v.poly rate ≠ 0 := fun zero => regular (by rw [zero, zero_pow (by omega)])
    have step := derivation_byParts differential linear.constant nonzero k j (k.descFactorial j)
    dsimp only at step
    rw [Int.cast_natCast] at falling step
    rw [falling] at step
    rw [d.map_add, mul_add, add_add_add_comm, solved, step]
    ring

/-- The piece for a natural power of the variable with an exponential. -/
theorem powerExp_valued {rate : Poly} (linear : v.Rate d x rate) {k max : Nat}
    (fits : fitsInt64 k = true) :
    Yields (Traced.powerExp rate x k max) (v.Valued · fun y =>
      d y = v.atom (.symbol x) ^ k * v.exp (v.atom (.symbol x) * v.poly rate)) := by
  have lawful := differential.lawful
  have invertible := differential.invertible
  unfold Traced.powerExp
  split
  · trivial
  obtain ⟨admitted, exponent⟩ := linear.linear
  have exponential : v.Valued
      (.whole (.ofPoly (.term (.exponential (Antiderivative.linearTerm rate x)) 1)))
      (· = v.exp (v.atom (.symbol x) * v.poly rate)) := by
    refine .of_poly (.term admitted 1) ?_ []
    rw [poly_term, map_one, one_mul, monomial_eq, ← exponent]
    exact one_mul _
  have chain : d (v.exp (v.atom (.symbol x) * v.poly rate)) =
      v.exp (v.atom (.symbol x) * v.poly rate) * v.poly rate := by
    have rule := differential.chain (Antiderivative.linearTerm rate x) admitted.exponent
      admitted.inner
    rw [exponent, d.leibniz, differential.variable_, linear.constant] at rule
    simpa using rule
  have start : v.Valued (.whole .zero) fun T => v.poly rate * T + d T =
      v.atom (.symbol x) ^ k - remainder v x (v.poly rate) k 0 (k.descFactorial 0) := by
    refine .of_poly .zero ?_ []
    simp [remainder]
  have solved : Yields (Traced.byParts _ x k max (k + 1) 0 _ _) _ :=
    byParts_valued differential linear fits (zero_add (k + 1)) start
  rw [Nat.descFactorial_zero, Nat.cast_one] at solved
  refine .bind solved fun total parts => ?_
  refine (mul_valued lawful invertible exponential parts).mono fun t valued => valued.mono ?_
  rintro _ ⟨_, T, rfl, holds, rfl⟩
  rw [d.leibniz, chain, smul_eq_mul, smul_eq_mul, ← holds]
  ring

/-! ## Shapes and terms -/

/-- The piece for a shape has the function that it describes as its derivative. -/
theorem ofShape_valued {s : Antiderivative.Shape} {max : Nat}
    (rates : ∀ rate, s.rate = some rate → v.Rate d x rate) (fits : fitsInt64 s.degree = true) :
    Yields (Traced.ofShape s x max) (v.Valued · fun y => d y = shapeValue v x s) := by
  have lawful := differential.lawful
  have invertible := differential.invertible
  have : CharZero K := algebraRat.charZero K
  obtain ⟨degree, logarithm, rate⟩ := s
  dsimp only at rates fits
  unfold Traced.ofShape shapeValue
  cases rate with
  | some rate =>
    dsimp only
    split
    · rename_i guards
      obtain ⟨plain, nonneg⟩ := guards
      obtain ⟨k, rfl⟩ := Int.eq_ofNat_of_zero_le nonneg
      have piece : Yields (Traced.powerExp rate x k max) _ :=
        powerExp_valued differential (rates rate rfl) fits
      rw [if_neg (by simpa using plain), mul_one, zpow_natCast]
      exact piece
    · trivial
  | none =>
    cases logarithm with
    | false =>
      dsimp only
      split
      · rename_i reciprocal
        refine (log_valued differential).mono fun y value => ?_
        rw [value, differential.log, reciprocal]
        simp
      · rename_i proper
        refine Yields.bind_ok fun n added => ?_
        obtain ⟨lifted, rfl⟩ := machineInt_eq_ok added
        refine ((power_valued differential lifted).scale _).mono ?_
        rintro _ ⟨_, rfl, rfl⟩
        have nonzero : ((degree + 1 : Int) : K) ≠ 0 := Int.cast_ne_zero.mpr (by omega)
        rw [d.leibniz, d.map_algebraMap, derivation_power differential, add_sub_cancel_right,
          map_inv₀, map_intCast, smul_zero, add_zero, smul_eq_mul, inv_mul_cancel_left₀ nonzero]
        simp
    | true =>
      dsimp only
      split
      · rename_i reciprocal
        refine Yields.bind_ok fun log found => ?_
        cases found
        have log := log_valued differential
        refine .bind (mul_valued lawful invertible log log) fun t product => ?_
        refine (product.scale _).mono ?_
        rintro _ ⟨_, ⟨_, _, rfl, rfl, rfl⟩, rfl⟩
        rw [d.leibniz, d.map_algebraMap, d.leibniz, differential.log, reciprocal]
        simp
        ring
      · rename_i proper
        refine (powerLog_valued differential proper).mono fun t valued =>
          valued.mono fun y value => ?_
        rw [value]
        simp

theorem ofTerms_valued {max : Nat} (each : ∀ t ∈ ts, v.Admits t.1)
    {total : Traced} {y : K} (start : v.Valued total (d · = y)) :
    Yields (Traced.ofTerms x max total ts) (v.Valued · (d · = y + v.terms ts)) := by
  have lawful := differential.lawful
  have invertible := differential.invertible
  induction ts generalizing total y with
  | nil =>
    rw [terms_nil, add_zero]
    exact start
  | cons t ts ih =>
    obtain ⟨m, c⟩ := t
    obtain ⟨head, tail⟩ := List.forall_mem_cons.mp each
    have dependent : v.Admits (m.split x).1 := by
      rw [split_eq]
      exact head.part _ _
    have free : v.Admits (m.split x).2 := by
      rw [split_eq]
      exact head.part _ _
    have constant : d (algebraMap ℚ K c * v.monomial (m.split x).2) = 0 := by
      rw [d.leibniz, d.map_algebraMap,
        monomial_constant differential _ free (unmentioned_split m x)]
      simp
    rw [Traced.ofTerms]
    refine Yields.bind_ok fun s shaped => ?_
    have shape := shape_spec differential dependent shaped
    have power := shape.degree.trans (count_split m (a := .symbol x) (by simp [Atom.mentions]))
    have small : fitsInt64 s.degree = true := by
      rw [power]
      by_cases zero : m.count (.symbol x) = 0
      · rw [zero]
        rfl
      · exact (head.of_count zero).fits
    refine .bind (ofShape_valued differential shape.rate small) fun piece valued => ?_
    have factor := Valued.of_poly (P := (· = algebraMap ℚ K c * v.monomial (m.split x).2))
      (.term free c) (poly_term v _ c) []
    have multiplied := mul_valued lawful invertible factor valued
    refine .bind multiplied fun product sides => ?_
    refine .bind (add_valued lawful invertible start sides) fun next sum => ?_
    rw [terms_cons, ← add_assoc]
    refine ih tail (sum.mono ?_)
    rintro _ ⟨a, _, value, ⟨_, b, rfl, slope, rfl⟩, rfl⟩
    rw [d.map_add, value, d.leibniz, constant, slope, smul_zero, add_zero, smul_eq_mul,
      v.monomial_split m x, shape.value, mul_assoc]

end Pieces

end Valuation

/-- Antiderivatives are right: in every differential field that interprets the
atoms of a canonical form, and in which nothing is zero that integration divides
by, the derivative of the antiderivative is the canonical form. -/
theorem antiderivative_exact {K : Type*} [Field K] [Algebra ℚ K] {v : Valuation K}
    {d : Derivation ℚ K K} {x : String} (differential : v.Differential d x) {r F : Fraction}
    (regular : v.Regular r) {max : Nat} (ran : r.antiderivative x max = .ok F)
    (divisors : v.Clear (r.integrationDivisors x max)) :
    v.poly F.den ≠ 0 ∧ d (v.poly F.num / v.poly F.den) = v.poly r.num / v.poly r.den := by
  have traced := Traced.antiderivative_of_ok ran
  have valued : Yields (Traced.antiderivative r x max)
      (v.Valued · fun y => d y = v.poly r.num / v.poly r.den) := by
    unfold Traced.antiderivative
    split
    · trivial
    rename_i free
    have start : v.Valued (.whole .zero) (d · = 0) := .of_poly .zero (by simp) []
    have total : Yields (Traced.ofTerms x max (.whole .zero) r.num.terms) _ :=
      Valuation.ofTerms_valued differential regular.num.all start
    have bottom := Valuation.Valued.of_poly (P := (· = v.poly r.den)) regular.den rfl []
    refine .bind total fun sum holds => ?_
    refine (Valuation.div_valued differential.lawful differential.invertible holds bottom).mono
      fun t quotient => quotient.mono ?_
    rintro _ ⟨y, _, slope, rfl, nonzero, rfl⟩
    have constant := Valuation.poly_constant_of_unmentioned differential r.den regular.den.all
      (by simpa using free)
    rw [zero_add, ← Valuation.poly_eq] at slope
    rw [div_eq_mul_inv, d.leibniz, d.leibniz_inv, constant, slope]
    simp [div_eq_mul_inv, mul_comm]
  obtain ⟨y, denotes, slope⟩ := valued.of_ok traced divisors
  exact ⟨denotes.regular, by rw [← denotes.eq_div, slope]⟩

/-! ## Laurent series -/

section

-- Under a name, the instance for the numeral leaves no proof in the definition.
local instance atLeastTwo_symbol : Nat.AtLeastTwo 2 := inferInstance

/-- The value of an atom at `1 + X` for `x` and two for all other symbols. -/
noncomputable def laurentAtom : Atom → LaurentSeries ℚ
  | .symbol s => if s = "x" then 1 + laurentX else 2
  | .ln _ => laurentLog
  | _ => 0

end

/-- Values in the Laurent series: `x` is `1 + X`, with its logarithm, and multiples
of `x` may stand in exponents. -/
noncomputable def Valuation.laurent : Valuation (LaurentSeries ℚ) where
  atom := laurentAtom
  exp := laurentExp
  exp_zero := laurentExp_zero
  exp_add := laurentExp_add
  known a := (∃ s, a = .symbol s) ∨ a = logOf "x"
  invertible a := laurentAtom a ≠ 0
  isUnit _ nonzero := nonzero.isUnit
  turning := True
  inner m := m = .ofAtom (.symbol "x") 1

theorem Valuation.laurent_lawful : Valuation.laurent.Lawful where
  imaginary known := by simp [Valuation.laurent, logOf] at known
  root _ _ known := by simp [Valuation.laurent, logOf] at known
  index _ _ known := by simp [Valuation.laurent, logOf] at known
  radicand _ _ known := by simp [Valuation.laurent, logOf] at known
  turn _ half := by
    have other : Monomial.halfTurn ≠ .ofAtom (.symbol "x") 1 := by decide_cbv
    exact absurd half other

theorem Valuation.laurent_variable :
    Valuation.laurent.monomial (.ofAtom (.symbol "x") 1) = 1 + laurentX := by
  simp [monomial_eq, Monomial.ofAtom, laurent, laurentAtom, laurentExp_zero]

/-- What may stand in exponents is a rational multiple of `1 + X`. -/
theorem Valuation.laurent_exponent {p : Poly} (inner : p.All Valuation.laurent.inner) :
    ∃ c : ℚ, Valuation.laurent.poly p = algebraMap ℚ _ c * (1 + laurentX) := by
  obtain ⟨ts⟩ := p
  rw [poly_eq]
  induction ts with
  | nil => exact ⟨0, by simp⟩
  | cons t ts ih =>
    obtain ⟨m, q⟩ := t
    obtain ⟨head, tail⟩ := List.forall_mem_cons.mp inner
    obtain rfl : m = .ofAtom (.symbol "x") 1 := head
    obtain ⟨c, value⟩ := ih tail
    exact ⟨q + c, by rw [terms_cons, value, laurent_variable, map_add, add_mul]⟩

theorem laurent_linear (c : ℚ) :
    (algebraMap ℚ (LaurentSeries ℚ) c * (1 + laurentX)).coeff 1 = c := by
  rw [eq_ratCast, ← eq_ratCast (HahnSeries.C : ℚ →+* LaurentSeries ℚ) c, HahnSeries.C_mul_eq_smul,
    HahnSeries.coeff_smul, HahnSeries.coeff_add, HahnSeries.coeff_one, laurentX_linear]
  simp

theorem one_add_laurentX_ne_zero : 1 + laurentX ≠ 0 := by
  intro zero
  have product := laurentDerivation_log
  rw [zero, mul_zero] at product
  exact zero_ne_one product

theorem laurentAtom_symbol_ne_zero (s : String) : laurentAtom (.symbol s) ≠ 0 := by
  have : CharZero (LaurentSeries ℚ) := algebraRat.charZero _
  rw [laurentAtom]
  split
  · exact one_add_laurentX_ne_zero
  · exact two_ne_zero

theorem Valuation.laurent_differential :
    Valuation.laurent.Differential laurentDerivation "x" where
  lawful := Valuation.laurent_lawful
  invertible _ nonzero := nonzero
  nested m inner := by
    obtain rfl : m = .ofAtom (.symbol "x") 1 := inner
    exact .ofAtom (.inl ⟨"x", rfl⟩)
  symbol := .inl ⟨"x", rfl⟩
  logarithm := .inr rfl
  variable_ := by
    change laurentDerivation (1 + laurentX) = 1
    rw [derivation_one_add, laurentDerivation_X]
  free a known unmentioned := by
    obtain ⟨s, rfl⟩ | rfl := known
    · have other : s ≠ "x" := by
        rintro rfl
        simp [Atom.mentions] at unmentioned
      change laurentDerivation (if s = "x" then _ else 2) = 0
      rw [if_neg other]
      exact_mod_cast derivation_ratCast laurentDerivation 2
    · rw [mentions_logOf] at unmentioned
      cases unmentioned
  chain p _ inner := by
    obtain ⟨c, value⟩ := laurent_exponent inner
    change laurentDerivation (laurentExp _) = laurentExp _ * _
    rw [value, laurentDerivation_exp, laurent_linear, derivation_algebraMap_mul, derivation_one_add,
      laurentDerivation_X, mul_one, eq_ratCast, eq_ratCast]
  log := by
    change laurentDerivation laurentLog = 1 / (1 + laurentX)
    exact eq_div_of_mul_eq one_add_laurentX_ne_zero laurentDerivation_log

/-- `y^2/x + x*ln(x) + 3*x^2*exp(2*x)/y`. -/
def mixedIntegrand : Fraction :=
  let x := Atom.symbol "x"
  let y := Atom.symbol "y"
  .ofPoly ⟨[(⟨[(x, -1), (y, 2)], .zero⟩, 1), (⟨[(x, 1), (logOf "x", 1)], .zero⟩, 1),
    (⟨[(x, 2), (y, -1)], .term (.ofAtom x 1) 2⟩, 3)]⟩

theorem mixedIntegrand_ordered : mixedIntegrand.num.Ordered :=
  ⟨by decide_cbv, by decide_cbv⟩

theorem mixedIntegrand_regular : Valuation.laurent.Regular mixedIntegrand where
  num := by
    have symbol (s : String) {n : Int} (nonzero : n ≠ 0) (fits : fitsInt64 n = true) :
        Valuation.laurent.AdmitsFactor (.symbol s, n) :=
      ⟨nonzero, fits, .inl ⟨s, rfl⟩, fun _ => laurentAtom_symbol_ne_zero s⟩
    have log : Valuation.laurent.AdmitsFactor (logOf "x", 1) :=
      ⟨one_ne_zero, rfl, .inr rfl, fun negative => absurd negative (by decide)⟩
    have pair {f g : Atom × Int} {e : Poly} (less : Atom.compare f.1 g.1 = .lt)
        (first : Valuation.laurent.AdmitsFactor f) (second : Valuation.laurent.AdmitsFactor g)
        (ordered : e.Ordered) (inner : e.All Valuation.laurent.inner) :
        Valuation.laurent.Admits ⟨[f, g], e⟩ :=
      ⟨by simpa [Monomial.Increasing] using less, by simp [first, second], ordered,
        .inr trivial, inner⟩
    have exponent : (Poly.term (.ofAtom (.symbol "x") 1) 2).All Valuation.laurent.inner :=
      .term (show Valuation.laurent.inner _ from rfl) 2
    refine ⟨mixedIntegrand_ordered, List.forall_mem_cons.mpr ⟨?_, List.forall_mem_cons.mpr ⟨?_,
      List.forall_mem_singleton.mpr ?_⟩⟩⟩
    · exact pair (by decide_cbv) (symbol "x" (by decide) rfl) (symbol "y" (by decide) rfl)
        .zero .zero
    · exact pair (by decide_cbv) (symbol "x" (by decide) rfl) log .zero .zero
    · exact pair (by decide_cbv) (symbol "x" (by decide) rfl) (symbol "y" (by decide) rfl)
        (.term _ 2) exponent
  den := .one
  nonzero := by
    change Valuation.laurent.poly .one ≠ 0
    rw [Valuation.poly_one]
    exact one_ne_zero

/-- Integrating divides by powers of two alone. -/
theorem mixedIntegrand_divisors {p : Poly}
    (member : p ∈ mixedIntegrand.integrationDivisors "x" 64) :
    ∃ c : ℚ, c ≠ 0 ∧ p = .constant c := by
  have each : (mixedIntegrand.integrationDivisors "x" 64).all fun p =>
      ∃ c ∈ [(1 : ℚ), 2, 4, 8], p = .constant c := by decide_cbv
  have proper : ∀ c ∈ [(1 : ℚ), 2, 4, 8], c ≠ 0 := by simp
  obtain ⟨c, power, constant⟩ := of_decide_eq_true (List.all_eq_true.mp each p member)
  exact ⟨c, proper c power, constant⟩

/-- The antiderivative is
`y^2*ln(x) + x^2*ln(x)/2 - x^2/4 + (3/(2*y)*x^2 - 3/(2*y)*x + 3/(4*y))*exp(2*x)`. -/
theorem antiderivative_exact_mixedIntegrand :
    ∃ F, mixedIntegrand.antiderivative "x" 64 = .ok F ∧
      let v := Valuation.laurent
      laurentDerivation (v.poly F.num / v.poly F.den) =
        v.poly mixedIntegrand.num / v.poly mixedIntegrand.den := by
  have total : ((mixedIntegrand.antiderivative "x" 64).toOption.isSome : Bool) := by
    decide_cbv
  cases ran : mixedIntegrand.antiderivative "x" 64 with
  | error e =>
    rw [ran] at total
    cases total
  | ok F =>
    refine ⟨F, rfl, (antiderivative_exact Valuation.laurent_differential mixedIntegrand_regular ran
      fun p member => ?_).2⟩
    obtain ⟨c, nonzero, rfl⟩ := mixedIntegrand_divisors member
    rw [Valuation.poly_constant]
    exact (map_ne_zero _).mpr nonzero

end Discharge
