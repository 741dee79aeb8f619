import Discharge.Proofs.Normal.Valuation

/-! Conditions on all factors of a polynomial, those inside of exponents
included. They are what its value depends on: a homomorphism that respects the
powers of these factors and exponentials respects the value. -/

namespace Discharge

section Every

variable (P : Atom × Int → Prop)

mutual
/-- All factors satisfy a condition, also in the exponent. -/
def Monomial.Every : Monomial → Prop
  | ⟨fs, e⟩ => (∀ f ∈ fs, P f) ∧ Poly.Every e

/-- All factors of all terms satisfy a condition, also in exponents. -/
def Poly.Every : Poly → Prop
  | ⟨ts⟩ => termsEvery ts

/-- All factors of a list of terms satisfy a condition, also in exponents. -/
def termsEvery : List (Monomial × Rat) → Prop
  | [] => True
  | (m, _) :: ts => Monomial.Every m ∧ termsEvery ts
end

end Every

variable {P Q : Atom × Int → Prop} {m : Monomial} {p q : Poly}

theorem Monomial.every_iff : m.Every P ↔ (∀ f ∈ m.factors, P f) ∧ m.exp.Every P := by
  cases m
  rw [Monomial.Every]

theorem termsEvery_iff (ts : List (Monomial × Rat)) :
    termsEvery P ts ↔ ∀ t ∈ ts, t.1.Every P := by
  induction ts with
  | nil => simp [termsEvery]
  | cons t ts ih =>
    obtain ⟨m, c⟩ := t
    rw [termsEvery, ih, List.forall_mem_cons]

theorem Poly.every_iff : p.Every P ↔ p.All (Monomial.Every P) := by
  cases p
  rw [Poly.Every, termsEvery_iff]
  rfl

theorem Poly.every_zero : Poly.zero.Every P := by
  rw [Poly.every_iff]
  exact .zero

mutual
/-- A condition may be changed where it matters: at what is smaller than the whole. -/
theorem Monomial.Every.imp : ∀ m : Monomial, m.Every P →
    (∀ f : Atom × Int, sizeOf f.1 < sizeOf m → P f → Q f) → m.Every Q
  | ⟨fs, e⟩, every, change => by
    rw [Monomial.Every] at every ⊢
    refine ⟨fun f member => change f ?_ (every.1 f member), Poly.Every.imp e every.2 ?_⟩
    · obtain ⟨a, n⟩ := f
      have smaller := List.sizeOf_lt_of_mem member
      simp only [Prod.mk.sizeOf_spec, Monomial.mk.sizeOf_spec] at smaller ⊢
      omega
    · intro f smaller
      refine change f ?_
      simp only [Monomial.mk.sizeOf_spec]
      omega

theorem Poly.Every.imp : ∀ p : Poly, p.Every P →
    (∀ f : Atom × Int, sizeOf f.1 < sizeOf p → P f → Q f) → p.Every Q
  | ⟨ts⟩, every, change => by
    rw [Poly.Every] at every ⊢
    refine termsEvery.imp ts every fun f smaller => change f ?_
    simp only [Poly.mk.sizeOf_spec]
    omega

theorem termsEvery.imp : ∀ ts : List (Monomial × Rat), termsEvery P ts →
    (∀ f : Atom × Int, sizeOf f.1 < sizeOf ts → P f → Q f) → termsEvery Q ts
  | [], _, _ => by
    rw [termsEvery]
    trivial
  | (m, c) :: ts, every, change => by
    rw [termsEvery] at every ⊢
    refine ⟨Monomial.Every.imp m every.1 fun f smaller => change f ?_,
      termsEvery.imp ts every.2 fun f smaller => change f ?_⟩
    · simp only [List.cons.sizeOf_spec, Prod.mk.sizeOf_spec]
      omega
    · simp only [List.cons.sizeOf_spec]
      omega
end

mutual
theorem Monomial.Every.of_forall (holds : ∀ f, P f) : ∀ m : Monomial, m.Every P
  | ⟨fs, e⟩ => by
    rw [Monomial.Every]
    exact ⟨fun f _ => holds f, Poly.Every.of_forall holds e⟩

theorem Poly.Every.of_forall (holds : ∀ f, P f) : ∀ p : Poly, p.Every P
  | ⟨ts⟩ => by
    rw [Poly.Every]
    exact termsEvery.of_forall holds ts

theorem termsEvery.of_forall (holds : ∀ f, P f) : ∀ ts : List (Monomial × Rat), termsEvery P ts
  | [] => by
    rw [termsEvery]
    trivial
  | (m, c) :: ts => by
    rw [termsEvery]
    exact ⟨Monomial.Every.of_forall holds m, termsEvery.of_forall holds ts⟩
end

/-! ## Values -/

namespace Valuation

section Map

variable {A B : Type*} [CommRing A] [Algebra ℚ A] [CommRing B] [Algebra ℚ B] {v : Valuation A}
  {w : Valuation B} (φ : A →+* B)

theorem factors_map {fs : List (Atom × Int)}
    (powers : ∀ f ∈ fs, intPower (w.atom f.1) f.2 = φ (intPower (v.atom f.1) f.2)) :
    w.factors fs = φ (v.factors fs) := by
  induction fs with
  | nil => simp
  | cons f fs ih =>
    obtain ⟨a, n⟩ := f
    obtain ⟨head, tail⟩ := List.forall_mem_cons.mp powers
    rw [factors_cons, factors_cons, map_mul, ih tail, head]

mutual
theorem monomial_map (powers : ∀ f, P f → intPower (w.atom f.1) f.2 = φ (intPower (v.atom f.1) f.2))
    (exps : ∀ x, w.exp (φ x) = φ (v.exp x)) :
    ∀ m : Monomial, m.Every P → w.monomial m = φ (v.monomial m)
  | ⟨fs, e⟩, every => by
    rw [Monomial.Every] at every
    rw [monomial, monomial, map_mul, factors_map φ fun f member => powers f (every.1 f member),
      poly_map powers exps e every.2, exps]

/-- A homomorphism that respects the powers of all factors, and exponentials,
respects the value. -/
theorem poly_map (powers : ∀ f, P f → intPower (w.atom f.1) f.2 = φ (intPower (v.atom f.1) f.2))
    (exps : ∀ x, w.exp (φ x) = φ (v.exp x)) : ∀ p : Poly, p.Every P → w.poly p = φ (v.poly p)
  | ⟨ts⟩, every => by
    rw [Poly.Every] at every
    rw [poly, poly, terms_map powers exps ts every]

theorem terms_map (powers : ∀ f, P f → intPower (w.atom f.1) f.2 = φ (intPower (v.atom f.1) f.2))
    (exps : ∀ x, w.exp (φ x) = φ (v.exp x)) :
    ∀ ts : List (Monomial × Rat), termsEvery P ts → w.terms ts = φ (v.terms ts)
  | [], _ => by rw [terms, terms, map_zero]
  | (m, c) :: ts, every => by
    rw [termsEvery] at every
    have literal : φ (algebraMap ℚ A c) = algebraMap ℚ B c :=
      RingHom.congr_fun (RingHom.ext_rat (φ.comp (algebraMap ℚ A)) (algebraMap ℚ B)) c
    rw [terms, terms, map_add, map_mul, literal, monomial_map powers exps m every.1,
      terms_map powers exps ts every.2]
end

end Map

variable {A : Type*} [CommRing A] [Algebra ℚ A] {v w : Valuation A}

/-- Values depend on the values of atoms and exponentials only. -/
theorem monomial_congr (atoms : w.atom = v.atom) (exps : w.exp = v.exp) (m : Monomial) :
    w.monomial m = v.monomial m :=
  monomial_map (RingHom.id A) (fun f _ => by rw [atoms, RingHom.id_apply])
    (fun x => by rw [exps, RingHom.id_apply, RingHom.id_apply]) m
    (Monomial.Every.of_forall (fun _ => trivial) m)

theorem poly_congr (atoms : w.atom = v.atom) (exps : w.exp = v.exp) (p : Poly) :
    w.poly p = v.poly p :=
  poly_map (RingHom.id A) (fun f _ => by rw [atoms, RingHom.id_apply])
    (fun x => by rw [exps, RingHom.id_apply, RingHom.id_apply]) p
    (Poly.Every.of_forall (fun _ => trivial) p)

end Valuation

end Discharge
