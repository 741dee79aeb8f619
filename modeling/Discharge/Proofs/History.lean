import Discharge.Proofs.Trail

/-! The history of an obligation under any sequence of attempts. An attempt
appends to the log, replaces the status and touches nothing else; what it appends
and the status it sets come from the strategy's own run on the two statements.
The contract is proved for one attempt and carried along a sequence of them. -/

namespace Discharge

/-! ## Sequences of attempts -/

/-- A strategy with the oracle it is run against.  Every trial brings its own, so
an oracle may answer the same question differently from trial to trial. -/
structure Trial where
  strategy : Strategy
  oracle : Oracle

namespace Trial

/-- One attempt on an obligation. -/
def run (t : Trial) (ob : Obligation) : Attempt := t.strategy.run t.oracle ob

/-- How the strategy itself ended on the obligation, and what it recorded. -/
def course (t : Trial) (ob : Obligation) : Except Stop Verdict × List String :=
  (t.strategy.attempt t.oracle ob).start

end Trial

namespace Obligation

/-- The attempts in order, each on the obligation the one before left. -/
def attempts (ob : Obligation) : List Trial → List Attempt
  | [] => []
  | t :: ts => t.run ob :: (t.run ob).obligation.attempts ts

/-- The obligation after all of the trials. -/
def after (ob : Obligation) (ts : List Trial) : Obligation :=
  ts.foldl (fun ob t => (t.run ob).obligation) ob

variable {ob : Obligation} {t : Trial} {ts : List Trial}

theorem length_attempts : (ob.attempts ts).length = ts.length := by
  induction ts generalizing ob with
  | nil => rfl
  | cons t ts ih => rw [attempts, List.length_cons, ih, List.length_cons]

/-- An attempt of a sequence is a run on what the ones before it left. -/
theorem attempts_getElem? (ob : Obligation) (ts : List Trial) (i : Nat) :
    (ob.attempts ts)[i]? = ts[i]?.map fun t => t.run (ob.after (ts.take i)) := by
  induction ts generalizing ob i with
  | nil => rfl
  | cons t ts ih =>
    cases i with
    | zero => rfl
    | succ i => exact ih _ i

theorem after_take_succ {i : Nat} (reached : ts[i]? = some t) :
    ob.after (ts.take (i + 1)) = (t.run (ob.after (ts.take i))).obligation := by
  rw [List.take_add_one, reached, after, List.foldl_append]
  rfl

end Obligation

/-! ## Strategies that always record something -/

/-- The strategies that come with the verifier. -/
inductive Strategy.IsBuiltin : Strategy → Prop
  | simplification : IsBuiltin .simplification
  | induction (baseCase inductiveStep : Strategy.Probe) :
    IsBuiltin (.induction baseCase inductiveStep)
  | contradiction (assumption : Claim) (contradicts : Oracle → Claim → Except Stop Bool) :
    IsBuiltin (.contradiction assumption contradicts)
  | limit (expression : Expr) (var : String) (point : LimitPoint) (expected : Expr) :
    IsBuiltin (.limit expression var point expected)
  | derivative (function : Expr) (var : String) (expected : Expr) :
    IsBuiltin (.derivative function var expected)
  | integral (integrand : Expr) (var : String) (bounds : Option Interval) (expected : Expr) :
    IsBuiltin (.integral integrand var bounds expected)

namespace Trail

variable {α β : Type} {t : Trail α} {f : α → Trail β}

/-- Whatever was recorded before, a result of the trail comes with some step. -/
def Records (t : Trail α) : Prop :=
  ∀ before after a, t.run.run before = (.ok a, after) → after ≠ []

/-- A trail that records nothing at first may do so later. -/
theorem Records.bind (next : ∀ a, Records (f a)) : Records (t >>= f) := by
  intro before after b ran
  rw [run_bind] at ran
  rcases inner : t.run.run before with ⟨result, middle⟩
  rw [inner] at ran
  cases result with
  | ok a => exact next a middle after b ran
  | error stop => cases ran

/-- A last step, and the result. -/
theorem Records.step_pure (text : String) (a : α) :
    Records (do Trail.step text; pure a) := by
  intro before after b ran
  cases ran
  exact List.append_ne_nil_of_right_ne_nil _ (List.cons_ne_nil _ _)

end Trail

namespace Strategy

open Trail

variable (oracle : Oracle) (ob : Obligation)

theorem simplification_records : Records (simplification.attempt oracle ob) := by
  refine .bind fun hypothesis => .bind fun conclusion => .bind fun simplified => .bind fun _ => ?_
  split
  · exact .step_pure _ _
  refine .bind fun expanded => ?_
  split
  · exact .bind fun _ => .step_pure _ _
  refine .bind fun factored => ?_
  split
  · exact .bind fun _ => .step_pure _ _
  · exact .step_pure _ _

theorem induction_records (baseCase inductiveStep : Probe) :
    Records ((induction baseCase inductiveStep).attempt oracle ob) := by
  refine .bind fun base => ?_
  split
  · exact .step_pure _ _
  refine .bind fun _ => .bind fun next => ?_
  split
  · exact .step_pure _ _
  · exact .bind fun _ => .step_pure _ _

theorem contradiction_records (assumption : Claim)
    (contradicts : Oracle → Claim → Except Stop Bool) :
    Records ((contradiction assumption contradicts).attempt oracle ob) := by
  refine .bind fun _ => .bind fun found => ?_
  split
  · exact .bind fun _ => .step_pure _ _
  · exact .step_pure _ _

theorem limit_records (expression : Expr) (var : String) (point : LimitPoint) (expected : Expr) :
    Records ((limit expression var point expected).attempt oracle ob) := by
  refine .bind fun computed => .bind fun _ => .bind fun _ => .bind fun difference => ?_
  split
  · exact .step_pure _ _
  · exact .step_pure _ _

theorem derivative_records (function : Expr) (var : String) (expected : Expr) :
    Records ((derivative function var expected).attempt oracle ob) := by
  refine .bind fun computed => .bind fun _ => .bind fun difference => ?_
  split
  · exact .step_pure _ _
  · exact .step_pure _ _

theorem integral_records (integrand : Expr) (var : String) (bounds : Option Interval)
    (expected : Expr) : Records ((integral integrand var bounds expected).attempt oracle ob) := by
  refine .bind fun computed => .bind fun _ => .bind fun difference => ?_
  split
  · exact .step_pure _ _
  split
  · refine .bind fun constant => ?_
    split
    · exact .step_pure _ _
    · exact .step_pure _ _
  · exact .step_pure _ _

theorem IsBuiltin.records {s : Strategy} (builtin : s.IsBuiltin) :
    Records (s.attempt oracle ob) := by
  cases builtin with
  | simplification => exact simplification_records oracle ob
  | induction => exact induction_records oracle ob _ _
  | contradiction => exact contradiction_records oracle ob _ _
  | limit => exact limit_records oracle ob _ _ _ _
  | derivative => exact derivative_records oracle ob _ _ _
  | integral => exact integral_records oracle ob _ _ _ _

/-- Of the obligation the strategies read the two statements only. -/
theorem IsBuiltin.attempt_congr {s : Strategy} (builtin : s.IsBuiltin) {ob ob' : Obligation}
    (hypothesis : ob'.hypothesis = ob.hypothesis) (conclusion : ob'.conclusion = ob.conclusion) :
    s.attempt oracle ob' = s.attempt oracle ob := by
  cases builtin with
  | simplification => simp only [Strategy.simplification, hypothesis, conclusion]
  | induction => simp only [Strategy.induction, conclusion]
  | contradiction => simp only [Strategy.contradiction, conclusion]
  | limit => rfl
  | derivative => rfl
  | integral => rfl

end Strategy

/-! ## The contract of an attempt -/

/-- The reason for stopping is reported as an error. -/
theorem Stop.exists_message (method : Method) (stop : Stop) :
    ∃ reason, stop.message method = "error: " ++ reason := by
  cases stop with
  | fault f => exact ⟨f.message, rfl⟩
  | crash m => exact ⟨_, by rw [Stop.message, String.append_assoc, String.append_assoc]⟩

/-- What an attempt on an obligation owes to it and to an observer. -/
structure Attempt.Honours (t : Trial) (ob : Obligation) (a : Attempt) : Prop where
  name : a.obligation.name = ob.name
  hypothesis : a.obligation.hypothesis = ob.hypothesis
  conclusion : a.obligation.conclusion = ob.conclusion
  methodLabel : a.obligation.methodLabel = ob.methodLabel
  /-- The log is extended, never rewritten. -/
  log : a.obligation.steps = ob.steps ++ a.steps
  not_assumed : a.obligation.status ≠ .axiomatic
  proven_iff : a.proven = true ↔ a.obligation.status = .proven
  /-- A verdict sets the status, with the recorded steps and no fault. -/
  completed : ∀ verdict recorded, t.course ob = (.ok verdict, recorded) →
    a.obligation.status = verdict.status ∧ a.steps = recorded ∧
      a.events = .started ob.name t.strategy.method ::
        (a.steps.map (.step ob.name) ++ [.finished ob.name a.obligation.status])
  /-- A fault or a crash leaves the obligation open.  The error is the last step,
  and an observer is told of it before any step. -/
  stopped : ∀ stop recorded, t.course ob = (.error stop, recorded) →
    a.obligation.status = .unknown ∧ ∃ message reason, message = "error: " ++ reason ∧
      message = stop.message t.strategy.method ∧ a.steps = recorded ++ [message] ∧
      a.events = .started ob.name t.strategy.method :: .fault ob.name message ::
        (a.steps.map (.step ob.name) ++ [.finished ob.name a.obligation.status])
  recorded : t.strategy.IsBuiltin → a.steps ≠ []
  /-- Nothing else of an obligation matters than its two statements. -/
  independent : t.strategy.IsBuiltin → ∀ other : Obligation,
    other.hypothesis = ob.hypothesis → other.conclusion = ob.conclusion →
      (t.run other).steps = a.steps ∧
        (t.run other).obligation.status = a.obligation.status

namespace Trial

variable {t : Trial} {ob : Obligation} {recorded : List String}

theorem run_completed {verdict : Verdict} (ended : t.course ob = (.ok verdict, recorded)) :
    t.run ob = {
      obligation := ob.record verdict.status recorded
      steps := recorded
      events := .started ob.name t.strategy.method ::
        (recorded.map (.step ob.name) ++ [.finished ob.name verdict.status]) } := by
  simp only [course] at ended
  simp [run, Strategy.run, ended]

theorem run_stopped {stop : Stop} (ended : t.course ob = (.error stop, recorded)) :
    let message := stop.message t.strategy.method
    t.run ob = {
      obligation := ob.record .unknown (recorded ++ [message])
      steps := recorded ++ [message]
      events := .started ob.name t.strategy.method :: .fault ob.name message ::
        ((recorded ++ [message]).map (.step ob.name) ++ [.finished ob.name .unknown]) } := by
  simp only [course] at ended
  simp [run, Strategy.run, ended]

/-- Steps and status of an attempt are those of the strategy's own course. -/
theorem run_congr {other : Obligation} (same : t.course other = t.course ob) :
    (t.run other).steps = (t.run ob).steps ∧
      (t.run other).obligation.status = (t.run ob).obligation.status := by
  rcases ended : t.course ob with ⟨stop | verdict, recorded⟩
  · rw [run_stopped ended, run_stopped (same.trans ended)]
    exact ⟨rfl, rfl⟩
  · rw [run_completed ended, run_completed (same.trans ended)]
    exact ⟨rfl, rfl⟩

theorem run_steps_ne_nil (builtin : t.strategy.IsBuiltin) : (t.run ob).steps ≠ [] := by
  rcases ended : t.course ob with ⟨stop | verdict, recorded⟩
  · rw [run_stopped ended]
    exact List.append_ne_nil_of_right_ne_nil _ (List.cons_ne_nil _ _)
  · rw [run_completed ended]
    exact builtin.records t.oracle ob [] recorded verdict ended

theorem course_congr (builtin : t.strategy.IsBuiltin) {other : Obligation}
    (hypothesis : other.hypothesis = ob.hypothesis)
    (conclusion : other.conclusion = ob.conclusion) : t.course other = t.course ob := by
  rw [course, builtin.attempt_congr t.oracle hypothesis conclusion, course]

/-- Every attempt keeps the contract, whatever the strategy and the oracle. -/
theorem run_honours (t : Trial) (ob : Obligation) : (t.run ob).Honours t ob where
  name := rfl
  hypothesis := rfl
  conclusion := rfl
  methodLabel := rfl
  log := rfl
  not_assumed := by
    rcases ended : t.course ob with ⟨stop | verdict, recorded⟩
    · rw [run_stopped ended]
      exact nofun
    · rw [run_completed ended]
      cases verdict <;> exact nofun
  proven_iff := decide_eq_true_iff
  completed := by
    intro verdict recorded ended
    rw [run_completed ended]
    exact ⟨rfl, rfl, rfl⟩
  stopped := by
    intro stop recorded ended
    obtain ⟨reason, error⟩ := stop.exists_message t.strategy.method
    rw [run_stopped ended]
    exact ⟨rfl, _, reason, error, rfl, rfl, rfl⟩
  recorded := run_steps_ne_nil
  independent := fun builtin _ hypothesis conclusion =>
    run_congr (course_congr builtin hypothesis conclusion)

end Trial

/-! ## The history of an obligation -/

namespace Obligation

/-- What a sequence of attempts leaves of the obligation it began with. -/
structure History (ob : Obligation) (attempts : List Attempt) (final : Obligation) : Prop where
  name : final.name = ob.name
  hypothesis : final.hypothesis = ob.hypothesis
  conclusion : final.conclusion = ob.conclusion
  methodLabel : final.methodLabel = ob.methodLabel
  /-- The log is the one at the start and the steps of every attempt, in order. -/
  log : final.steps = ob.steps ++ (attempts.map Attempt.steps).flatten
  /-- The last attempt decides the status. -/
  status : final.status = (attempts.map (·.obligation.status)).getLastD ob.status

variable {ob : Obligation} {t : Trial} {ts : List Trial}

/-- A further attempt in front of a sequence. -/
theorem History.cons {a : Attempt} {attempts : List Attempt} {final : Obligation}
    (first : a.Honours t ob) (rest : History a.obligation attempts final) :
    History ob (a :: attempts) final where
  name := rest.name.trans first.name
  hypothesis := rest.hypothesis.trans first.hypothesis
  conclusion := rest.conclusion.trans first.conclusion
  methodLabel := rest.methodLabel.trans first.methodLabel
  log := by rw [rest.log, first.log, List.map_cons, List.flatten_cons, List.append_assoc]
  status := by rw [rest.status, List.map_cons, List.getLastD_cons]

theorem after_history (ob : Obligation) (ts : List Trial) :
    History ob (ob.attempts ts) (ob.after ts) := by
  induction ts generalizing ob with
  | nil => exact ⟨rfl, rfl, rfl, rfl, (List.append_nil _).symm, rfl⟩
  | cons t ts ih => exact .cons (t.run_honours ob) (ih _)

theorem after_not_assumed (begun : ts ≠ []) : (ob.after ts).status ≠ .axiomatic := by
  induction ts generalizing ob with
  | nil => exact absurd rfl begun
  | cons t ts ih =>
    cases ts with
    | nil => exact (t.run_honours ob).not_assumed
    | cons t' ts => exact ih (List.cons_ne_nil t' ts)

/-- Verification only adds to an obligation.  After any trials, with any
strategies and oracles, name, statements and label are those at the start, the
log has grown by the steps of the attempts in order, and the status is that of
the last of them and not the one of an assumption.  Every single attempt keeps
its contract: what is appended and what an observer is told match how the
strategy ended, and a strategy that comes with the verifier records something
and reads nothing but the two statements. -/
theorem verification_history (ob : Obligation) (ts : List Trial) :
    History ob (ob.attempts ts) (ob.after ts) ∧
    (ts ≠ [] → (ob.after ts).status ≠ .axiomatic) ∧
    (ob.attempts ts).length = ts.length ∧
    ∀ i t, ts[i]? = some t → ∃ a, (ob.attempts ts)[i]? = some a ∧
      a.obligation = ob.after (ts.take (i + 1)) ∧ a.Honours t (ob.after (ts.take i)) := by
  refine ⟨after_history ob ts, after_not_assumed, length_attempts, fun i t reached => ?_⟩
  refine ⟨t.run (ob.after (ts.take i)), ?_, (after_take_succ reached).symm, t.run_honours _⟩
  rw [attempts_getElem?, reached, Option.map_some]

end Obligation

end Discharge
