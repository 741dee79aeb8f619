import Discharge.Error

/-! What a computation that may fail guarantees: a property of its result and a
property of its failure. Every function of the normal form has one such
guarantee, and a caller composes the guarantees of what it calls. -/

namespace Discharge

variable {ε α β : Type} {x : Except ε α} {f : α → Except ε β}
variable {good wanted : α → Prop} {good' : β → Prop} {bad : ε → Prop}

/-- A result is `good`, and a failure is `bad`. -/
def Ensures (x : Except ε α) (good : α → Prop) (bad : ε → Prop) : Prop :=
  match x with
  | .ok a => good a
  | .error e => bad e

namespace Ensures

theorem of_ok (ensured : Ensures x good bad) {a : α} (ran : x = .ok a) : good a := by
  subst ran
  exact ensured

theorem of_error (ensured : Ensures x good bad) {e : ε} (failed : x = .error e) : bad e := by
  subst failed
  exact ensured

/-- Running one computation after another. -/
theorem bind (first : Ensures x good bad) (next : ∀ a, good a → Ensures (f a) good' bad) :
    Ensures (x >>= f) good' bad := by
  cases x with
  | ok a => exact next a first
  | error e => exact first

theorem mono (ensured : Ensures x good bad) (imp : ∀ a, good a → wanted a) :
    Ensures x wanted bad := by
  cases x with
  | ok a => exact imp a ensured
  | error e => exact ensured

theorem mono_error {worse : ε → Prop} (ensured : Ensures x good bad)
    (imp : ∀ e, bad e → worse e) : Ensures x good worse := by
  cases x with
  | ok a => exact ensured
  | error e => exact imp e ensured

theorem and (left : Ensures x good bad) (right : ∀ a, x = .ok a → wanted a) :
    Ensures x (fun a => good a ∧ wanted a) bad := by
  cases x with
  | ok a => exact ⟨left, right a rfl⟩
  | error e => exact left

end Ensures

/-- A result is `good`; a failure may be any. -/
abbrev Yields (x : Except ε α) (good : α → Prop) : Prop := Ensures x good fun _ => True

theorem Yields.bind_ok (next : ∀ a, x = .ok a → Yields (f a) good') : Yields (x >>= f) good' := by
  cases x with
  | ok a => exact next a rfl
  | error e => trivial

/-- A result of two computations in a row is the result of the second on a
result of the first. -/
theorem bind_eq_ok {b : β} (ran : x >>= f = .ok b) : ∃ a, x = .ok a ∧ f a = .ok b := by
  cases x with
  | ok a => exact ⟨a, rfl, ran⟩
  | error e => cases ran

theorem map_eq_ok {g : α → β} {b : β} (ran : x.map g = .ok b) : ∃ a, x = .ok a ∧ g a = b := by
  cases x with
  | ok a =>
    cases ran
    exact ⟨a, rfl, rfl⟩
  | error e => cases ran

/-- The computation returns `a` if `w` holds, and fails otherwise. -/
def Returns (x : Except ε α) (a : α) (w : Prop) : Prop := ∀ b, x = .ok b ↔ w ∧ b = a

namespace Returns

variable {a : α} {b : β} {w w' : Prop}

theorem of_eq (ran : x = .ok a) : Returns x a True := by
  intro b
  rw [ran, Except.ok.injEq, true_and, eq_comm]

theorem of_error {e : ε} (failed : x = .error e) (never : ¬ w) : Returns x a w := by
  intro b
  simp [failed, never]

theorem eq_ok_iff (returns : Returns x a w) : x = .ok a ↔ w := by
  rw [returns a, and_iff_left rfl]

theorem yields (returns : Returns x a w) : Yields x (· = a) := by
  cases ran : x with
  | ok b => exact ((returns b).mp ran).2
  | error e => trivial

theorem congr (returns : Returns x a w) (same : w ↔ w') : Returns x a w' := by
  intro b
  rw [returns b, same]

/-- Two computations in a row return if both do. -/
theorem bind (first : Returns x a w) (next : w → Returns (f a) b w') :
    Returns (x >>= f) b (w ∧ w') := by
  intro c
  constructor
  · intro ran
    obtain ⟨d, begun, finished⟩ := bind_eq_ok ran
    obtain ⟨holds, rfl⟩ := (first d).mp begun
    obtain ⟨holds', rfl⟩ := (next holds c).mp finished
    exact ⟨⟨holds, holds'⟩, rfl⟩
  · rintro ⟨⟨holds, holds'⟩, rfl⟩
    rw [first.eq_ok_iff.mpr holds]
    exact (next holds).eq_ok_iff.mpr holds'

/-- What follows the computation does not fail. -/
theorem bind_eq (first : Returns x a w) (next : w → f a = .ok b) : Returns (x >>= f) b w :=
  (first.bind fun holds => of_eq (next holds)).congr (and_iff_left trivial)

end Returns

/-- Both computations come to the same, and what they return is `good`. -/
structure Coincide (good : α → Prop) (x y : Except ε α) : Prop where
  same : x = y
  yields : Yields y good

namespace Coincide

variable {y : Except ε α} {g : α → Except ε β}

theorem refl (yields : Yields y good) : Coincide good y y := ⟨rfl, yields⟩

theorem answer {a : α} (holds : good a) : Coincide good (.ok a : Except ε α) (.ok a) :=
  refl holds

/-- Running one computation after another. -/
theorem bind (first : Coincide good x y) (next : ∀ a, good a → Coincide good' (f a) (g a)) :
    Coincide good' (x >>= f) (y >>= g) := by
  obtain ⟨rfl, yields⟩ := first
  cases x with
  | ok a => exact next a yields
  | error e => exact refl trivial

theorem bind_ok (next : ∀ a, x = .ok a → Coincide good' (f a) (g a)) :
    Coincide good' (x >>= f) (x >>= g) := by
  cases x with
  | ok a => exact next a rfl
  | error e => exact refl trivial

theorem ite {c : Prop} [Decidable c] {x' y' : Except ε α} (yes : c → Coincide good x y)
    (no : ¬ c → Coincide good x' y') :
    Coincide good (if c then x else x') (if c then y else y') := by
  split
  · exact yes ‹c›
  · exact no ‹¬ c›

end Coincide

namespace Failure

/-- A size guard was exceeded. -/
def IsTooLarge (f : Failure) : Prop := ∃ what, f = .tooLarge what

/-- An exponent left the machine integers, so that the operation was abandoned. -/
def IsOverflow (f : Failure) : Prop := ∃ operation, f = .overflow operation

/-- A size guard was exceeded, or an exponent left the machine integers. -/
def IsRefusal (f : Failure) : Prop := f.IsTooLarge ∨ f.IsOverflow

theorem IsTooLarge.isRefusal {f : Failure} (large : f.IsTooLarge) : f.IsRefusal := .inl large

/-- A denominator came out as zero. -/
def IsDivisionByZero (f : Failure) : Prop := ∃ place, f = .divisionByZero place

end Failure

end Discharge
