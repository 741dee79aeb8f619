import Discharge.Attempt

/-! What the verdict of a trail tells. A property of the verdict is composed
from properties of the questions asked on the way, whatever steps have been
recorded; an attempt records the verdict as the status of the obligation. There is
a verdict exactly if every question on the way is answered. -/

namespace Discharge

namespace Trail

variable {α β : Type} {t : Trail α} {f : α → Trail β} {good : α → Prop} {good' : β → Prop}

theorem answer_eq_ok {r : Outcome α} {a : α} (ran : answer r = .ok a) : r = .ok a := by
  cases r with
  | ok b =>
    cases ran
    rfl
  | error e =>
    cases e with
    | error e => cases ran
    | crash m => cases ran

/-- A run of a sequence is the run of its second part from where the first got to. -/
theorem run_bind (before : List String) : (t >>= f).run.run before =
    match t.run.run before with
    | (.ok a, middle) => (f a).run.run middle
    | (.error stop, middle) => (.error stop, middle) := by
  simp only [ExceptT.run_bind, StateT.run_bind]
  rcases t.run.run before with ⟨result, middle⟩
  cases result <;> rfl

/-- Whatever was recorded before, a result of the trail is `good`. -/
def Concludes (t : Trail α) (good : α → Prop) : Prop :=
  ∀ before after a, t.run.run before = (.ok a, after) → good a

theorem Concludes.pure {a : α} (holds : good a) : Concludes (Pure.pure a : Trail α) good := by
  intro before after b ran
  cases ran
  exact holds

theorem Concludes.bind (first : Concludes t good) (next : ∀ a, good a → Concludes (f a) good') :
    Concludes (t >>= f) good' := by
  intro before after b ran
  rw [run_bind] at ran
  cases inner : t.run.run before with
  | mk result middle =>
    rw [inner] at ran
    cases result with
    | ok a => exact next a (first before middle a inner) middle after b ran
    | error e => cases ran

theorem Concludes.step (text : String) : Concludes (Trail.step text) fun _ => True :=
  fun _ _ _ _ => trivial

theorem Concludes.probe (r : Except Stop α) : Concludes (Trail.probe r) fun a => r = .ok a := by
  intro before after a ran
  cases r with
  | ok b =>
    cases ran
    rfl
  | error e => cases ran

/-- An answer is what the question came to. -/
theorem Concludes.ask (r : Outcome α) : Concludes (Trail.ask r) fun a => r = .ok a :=
  fun before after a ran => answer_eq_ok (Concludes.probe (answer r) before after a ran)

/-- Whatever was recorded before, the trail comes to a result exactly if `w`. -/
def Completes (t : Trail α) (w : Prop) : Prop :=
  ∀ before, (∃ a after, t.run.run before = (.ok a, after)) ↔ w

variable {w : Prop}

theorem Completes.pure (a : α) : Completes (Pure.pure a : Trail α) True :=
  fun before => iff_of_true ⟨a, before, rfl⟩ trivial

theorem Completes.step {f : Unit → Trail β} (text : String) (next : Completes (f ()) w) :
    Completes (Trail.step text >>= f) w :=
  fun before => next (before ++ [text])

theorem Completes.probe {r : Except Stop α} {a : α} (ran : r = .ok a) (next : Completes (f a) w) :
    Completes (Trail.probe r >>= f) w := by
  subst ran
  exact next

/-- A question stops the trail unless it is answered. -/
theorem Completes.ask {w : α → Prop} (r : Outcome α)
    (next : ∀ a, r = .ok a → Completes (f a) (w a)) :
    Completes (Trail.ask r >>= f) (∃ a, r = .ok a ∧ w a) := by
  intro before
  rw [run_bind]
  cases r with
  | ok a =>
    change (∃ b after, (f a).run.run before = (.ok b, after)) ↔ _
    rw [next a rfl before]
    simp
  | error failure =>
    refine iff_of_false ?_ (by simp)
    rintro ⟨b, after, ran⟩
    cases failure with
    | error e => cases ran
    | crash m => cases ran

theorem Completes.ite {c : Prop} [Decidable c] {t t' : Trail α} {w' : Prop}
    (yes : c → Completes t w) (no : ¬ c → Completes t' w') :
    Completes (if c then t else t') (if c then w else w') := by
  split
  · exact yes ‹_›
  · exact no ‹_›

end Trail

/-- The attempt records a side. -/
def Attempt.Decides (a : Attempt) : Prop :=
  a.obligation.status = .proven ∨ a.obligation.status = .refuted

/-- A strategy that always takes sides decides an obligation exactly if it completes. -/
theorem Strategy.decides_iff {s : Strategy} {oracle : Oracle} {ob : Obligation} {w : Prop}
    (completes : (s.attempt oracle ob).Completes w)
    (concludes : (s.attempt oracle ob).Concludes (· ≠ .inconclusive)) :
    (s.run oracle ob).Decides ↔ w := by
  have ended := completes []
  unfold Attempt.Decides Strategy.run Trail.start
  rcases ran : (s.attempt oracle ob).run.run [] with ⟨result, steps⟩
  rw [ran] at ended
  cases result with
  | ok verdict =>
    refine iff_of_true ?_ (ended.mp ⟨verdict, steps, rfl⟩)
    cases verdict with
    | proven => exact .inl rfl
    | refuted => exact .inr rfl
    | inconclusive => exact absurd rfl (concludes [] steps _ ran)
  | error stop =>
    refine iff_of_false (fun decided => ?_) fun holds => ?_
    · rcases decided with proven | refuted
      · cases proven
      · cases refuted
    · obtain ⟨a, after, same⟩ := ended.mpr holds
      cases same

/-- A status of a completed attempt is that of its verdict. -/
theorem Strategy.verdict_of_status {s : Strategy} {oracle : Oracle} {ob : Obligation}
    {good : Verdict → Prop} (concludes : (s.attempt oracle ob).Concludes good) (verdict : Verdict)
    (decided : verdict ≠ .inconclusive)
    (recorded : (s.run oracle ob).obligation.status = verdict.status) : good verdict := by
  unfold Strategy.run Trail.start at recorded
  rcases ran : (s.attempt oracle ob).run.run [] with ⟨result, steps⟩
  rw [ran] at recorded
  cases result with
  | ok found =>
    have same : found.status = verdict.status := recorded
    obtain rfl : found = verdict := by
      cases found <;> cases verdict <;> first | rfl | cases same
    exact concludes [] steps found ran
  | error stop =>
    have unknown : Status.unknown = verdict.status := recorded
    cases verdict with
    | inconclusive => exact absurd rfl decided
    | proven => cases unknown
    | refuted => cases unknown

end Discharge
