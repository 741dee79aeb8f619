import Discharge.Proofs.Definitions
import Discharge.Proofs.History
import Discharge.Proofs.Table

/-! The registries of a theory under any sequence of operations. All of them are
looked at through one view, an entry by registry and name, so that what an
operation leaves alone is said once for every registry. The contract is proved
for one operation on any theory; what every entry of a reached theory goes back to
is carried along the sequence. -/

namespace Discharge

/-! ## Entries -/

/-- What a registry holds under a name. -/
inductive Entry where
  | assumed (a : Axiom)
  | defined (e : Expr)
  | posed (ob : Obligation)

namespace Theory

/-- The entry of a registry under a name. -/
def lookup? (t : Theory) : Registry → String → Option Entry
  | .axioms, name => (t.axioms.find? name).map .assumed
  | .definitions, name => (t.definitions.find? name).map .defined
  | .obligations kind, name => ((t.obligations kind).find? name).map .posed

/-- The theories agree in everything but one entry. -/
structure SameBut (registry : Registry) (name : String) (t t' : Theory) : Prop where
  duplicates : t'.duplicates = t.duplicates
  entry : ∀ r n, ¬(r = registry ∧ n = name) → t'.lookup? r n = t.lookup? r n

/-! ## Operations -/

/-- What can be registered. -/
inductive Addition where
  | assume (name : String) (statement : Claim)
  | define (name : String) (e : Expr)
  | pose (kind : Kind) (ob : Obligation)

namespace Addition

/-- The registry that is added to. -/
def registry : Addition → Registry
  | assume .. => .axioms
  | define .. => .definitions
  | pose kind _ => .obligations kind

/-- The name that is registered, for an obligation its own. -/
def name : Addition → String
  | assume name _ => name
  | define name _ => name
  | pose _ ob => ob.name

/-- The entry that is registered. -/
def entry : Addition → Entry
  | assume name statement => .assumed ⟨name, statement⟩
  | define _ e => .defined e
  | pose _ ob => .posed ob

end Addition

/-- Registers something. -/
def add (t : Theory) : Addition → Except TheoryError Theory
  | .assume name statement => t.addAxiom name statement
  | .define name e => t.addDefinition name e
  | .pose kind ob => t.addObligation kind ob

/-- One call on a theory. -/
inductive Operation where
  | add (a : Addition)
  | verify (kind : Kind) (name : String) (expand : Bool) (trial : Trial)

/-- The theory an operation comes to, unless it is refused. -/
def apply (t : Theory) : Operation → Except TheoryError Theory
  | .add a => t.add a
  | .verify kind name expand trial =>
    (t.verify kind name expand trial.strategy trial.oracle).map (·.1)

/-- The theory after an operation, refused or not. -/
def after (t : Theory) (op : Operation) : Theory :=
  match t.apply op with
  | .ok t' => t'
  | .error _ => t

variable {t t' : Theory} {kind : Kind} {name : String} {ob : Obligation}

theorem lookup?_obligations :
    t.lookup? (.obligations kind) name = some (.posed ob) ↔
      (t.obligations kind).find? name = some ob := by
  simp [lookup?]

/-! ## Storing an obligation -/

theorem obligations_setObligation_self (t : Theory) (kind : Kind) (name : String)
    (ob : Obligation) :
    (t.setObligation kind name ob).obligations kind = (t.obligations kind).insert name ob := by
  cases kind <;> rfl

theorem obligations_setObligation_of_ne (t : Theory) {kind other : Kind} (different : other ≠ kind)
    (name : String) (ob : Obligation) :
    (t.setObligation kind name ob).obligations other = t.obligations other := by
  cases kind <;> cases other <;> first | rfl | exact absurd rfl different

@[simp]
theorem axioms_setObligation (t : Theory) (kind : Kind) (name : String) (ob : Obligation) :
    (t.setObligation kind name ob).axioms = t.axioms := by
  cases kind <;> rfl

@[simp]
theorem definitions_setObligation (t : Theory) (kind : Kind) (name : String) (ob : Obligation) :
    (t.setObligation kind name ob).definitions = t.definitions := by
  cases kind <;> rfl

@[simp]
theorem duplicates_setObligation (t : Theory) (kind : Kind) (name : String) (ob : Obligation) :
    (t.setObligation kind name ob).duplicates = t.duplicates := by
  cases kind <;> rfl

theorem lookup?_setObligation_self (t : Theory) (kind : Kind) (name : String) (ob : Obligation) :
    (t.setObligation kind name ob).lookup? (.obligations kind) name = some (.posed ob) := by
  simp [lookup?, obligations_setObligation_self]

theorem sameBut_setObligation (t : Theory) (kind : Kind) (name : String) (ob : Obligation) :
    SameBut (.obligations kind) name t (t.setObligation kind name ob) where
  duplicates := duplicates_setObligation t kind name ob
  entry := by
    intro r n elsewhere
    cases r with
    | axioms => simp [lookup?]
    | definitions => simp [lookup?]
    | obligations other =>
      by_cases same : other = kind
      · subst same
        have different : n ≠ name := fun same => elsewhere ⟨rfl, same⟩
        simp [lookup?, obligations_setObligation_self, Table.find?_insert_of_ne _ different]
      · simp [lookup?, obligations_setObligation_of_ne t same]

/-! ## Adding -/

/-- What adding owes: only a taken name is refused, and only if duplicates are
rejected; otherwise the entry is there and no other one has changed. -/
structure Adds (t : Theory) (a : Addition) : Prop where
  refused_iff : (∃ err, t.add a = .error err) ↔
    t.duplicates = .reject ∧ t.lookup? a.registry a.name ≠ none
  duplicate : ∀ err, t.add a = .error err →
    err = .duplicateName a.registry a.name ∧ err.diagnostic.code = "duplicate-name"
  stored : ∀ t', t.add a = .ok t' →
    t'.lookup? a.registry a.name = some a.entry ∧ SameBut a.registry a.name t t'

/-- The theory with an addition in its place. -/
def put (t : Theory) : Addition → Theory
  | .assume name statement => { t with axioms := t.axioms.insert name ⟨name, statement⟩ }
  | .define name e => { t with definitions := t.definitions.insert name e }
  | .pose kind ob => t.setObligation kind ob.name ob

theorem lookup?_put_self (t : Theory) (a : Addition) :
    (t.put a).lookup? a.registry a.name = some a.entry := by
  cases a with
  | assume name statement => simp [put, lookup?, Addition.registry, Addition.name, Addition.entry]
  | define name e => simp [put, lookup?, Addition.registry, Addition.name, Addition.entry]
  | pose kind ob => exact t.lookup?_setObligation_self kind ob.name ob

theorem sameBut_put (t : Theory) (a : Addition) : SameBut a.registry a.name t (t.put a) := by
  cases a with
  | assume name statement =>
    refine ⟨rfl, fun r n elsewhere => ?_⟩
    cases r with
    | axioms =>
      have different : n ≠ name := fun same => elsewhere ⟨rfl, same⟩
      simp [put, lookup?, Table.find?_insert_of_ne _ different]
    | definitions => rfl
    | obligations kind => cases kind <;> rfl
  | define name e =>
    refine ⟨rfl, fun r n elsewhere => ?_⟩
    cases r with
    | axioms => rfl
    | definitions =>
      have different : n ≠ name := fun same => elsewhere ⟨rfl, same⟩
      simp [put, lookup?, Table.find?_insert_of_ne _ different]
    | obligations kind => cases kind <;> rfl
  | pose kind ob => exact t.sameBut_setObligation kind ob.name ob

/-- Checking a name before going on. -/
theorem checkFree_then {α : Type} (t : Theory) (registry : Registry) (entries : Table α)
    (name : String) (t' : Theory) :
    (do t.checkFree registry entries name; return t') =
      if t.duplicates = .reject ∧ entries.find? name ≠ none then
        .error (.duplicateName registry name) else .ok t' := by
  by_cases taken : t.duplicates = .reject ∧ entries.find? name ≠ none
  · have contained : entries.contains name = true ∧ t.duplicates = .reject :=
      ⟨Option.isSome_iff_ne_none.mpr taken.2, taken.1⟩
    simp only [checkFree, if_pos contained, if_pos taken]
    rfl
  · have free : ¬(entries.contains name = true ∧ t.duplicates = .reject) :=
      fun contained => taken ⟨contained.2, Option.isSome_iff_ne_none.mp contained.1⟩
    simp only [checkFree, if_neg free, if_neg taken]
    rfl

/-- The three registrations check the name in the same way and then store. -/
theorem add_eq (t : Theory) (a : Addition) :
    t.add a = if t.duplicates = .reject ∧ t.lookup? a.registry a.name ≠ none then
      .error (.duplicateName a.registry a.name) else .ok (t.put a) := by
  cases a with
  | assume name statement =>
    simp only [lookup?, Addition.registry, Addition.name, ne_eq, Option.map_eq_none_iff]
    exact t.checkFree_then .axioms t.axioms name _
  | define name e =>
    simp only [lookup?, Addition.registry, Addition.name, ne_eq, Option.map_eq_none_iff]
    exact t.checkFree_then .definitions t.definitions name _
  | pose kind ob =>
    simp only [lookup?, Addition.registry, Addition.name, ne_eq, Option.map_eq_none_iff]
    exact t.checkFree_then (.obligations kind) (t.obligations kind) ob.name _

theorem add_adds (t : Theory) (a : Addition) : t.Adds a := by
  by_cases taken : t.duplicates = .reject ∧ t.lookup? a.registry a.name ≠ none
  · have refused := (t.add_eq a).trans (if_pos taken)
    refine ⟨⟨fun _ => taken, fun _ => ⟨_, refused⟩⟩, fun err failed => ?_, fun t' added => ?_⟩
    · cases refused.symm.trans failed
      exact ⟨rfl, rfl⟩
    · cases refused.symm.trans added
  · have stored := (t.add_eq a).trans (if_neg taken)
    refine ⟨⟨?_, fun both => absurd both taken⟩, fun err failed => ?_, fun t' added => ?_⟩
    · rintro ⟨err, failed⟩
      cases stored.symm.trans failed
    · cases stored.symm.trans failed
    · cases stored.symm.trans added
      exact ⟨t.lookup?_put_self a, t.sameBut_put a⟩

/-! ## Verifying -/

/-- What a strategy is shown of a stored obligation: the obligation itself, or a
copy that differs in the expanded statements only. -/
structure Shows (t : Theory) (expand : Bool) (stored shown : Obligation) : Prop where
  plain : expand = false → shown = stored
  hypothesis : expand = true → t.expandClaim stored.hypothesis = .ok shown.hypothesis
  conclusion : expand = true → t.expandClaim stored.conclusion = .ok shown.conclusion
  rest : shown = { stored with hypothesis := shown.hypothesis, conclusion := shown.conclusion }

/-- What verifying owes: it is refused for an absent obligation and for statements
whose expansion runs into a cycle; otherwise status and steps of the attempt on what
was shown are recorded, and neither the statements nor any other entry has changed. -/
structure Verifies (t : Theory) (kind : Kind) (name : String) (expand : Bool) (trial : Trial) :
    Prop where
  unknown_iff : (∃ err, t.verify kind name expand trial.strategy trial.oracle = .error err ∧
      err.diagnostic.code = "unknown-name") ↔ t.lookup? (.obligations kind) name = none
  refused : ∀ err, t.verify kind name expand trial.strategy trial.oracle = .error err →
    (t.lookup? (.obligations kind) name = none ∧ err = .unknownName (.obligations kind) name) ∨
      expand = true ∧ err.diagnostic.code = "definition-cycle" ∧
        ∃ stored, t.lookup? (.obligations kind) name = some (.posed stored) ∧
          stored.mapClaims t.expandClaim = .error err
  recorded : ∀ t' attempt,
    t.verify kind name expand trial.strategy trial.oracle = .ok (t', attempt) →
    SameBut (.obligations kind) name t t' ∧
      ∃ stored shown, t.lookup? (.obligations kind) name = some (.posed stored) ∧
        t.Shows expand stored shown ∧ attempt = trial.run shown ∧
        t'.lookup? (.obligations kind) name = some (.posed
          { stored with status := attempt.obligation.status,
                        steps := stored.steps ++ attempt.steps })

theorem expandClaim_eq_error {c : Claim} {err : TheoryError}
    (failed : t.expandClaim c = .error err) : err.diagnostic.code = "definition-cycle" := by
  have cycle {e : Expr} (failed : t.expand e = .error err) :
      err.diagnostic.code = "definition-cycle" := by
    rw [expand_eq_error failed]
    rfl
  cases c with
  | expr e =>
    cases ran : t.expand e with
    | error err' =>
      simp only [expandClaim, Claim.mapM, ran] at failed
      cases failed
      exact cycle ran
    | ok r =>
      simp only [expandClaim, Claim.mapM, ran] at failed
      cases failed
  | equation lhs rhs =>
    cases left : t.expand lhs with
    | error err' =>
      simp only [expandClaim, Claim.mapM, left] at failed
      cases failed
      exact cycle left
    | ok l =>
      cases right : t.expand rhs with
      | error err' =>
        simp only [expandClaim, Claim.mapM, left, right] at failed
        cases failed
        exact cycle right
      | ok r =>
        simp only [expandClaim, Claim.mapM, left, right] at failed
        cases failed
  | text s => cases failed

theorem working_eq_ok {expand : Bool} {stored shown : Obligation}
    (ran : t.working expand stored = .ok shown) : t.Shows expand stored shown := by
  cases expand with
  | false =>
    cases ran
    exact ⟨fun _ => rfl, nofun, nofun, rfl⟩
  | true =>
    obtain ⟨hypothesis, first, ran⟩ := bind_eq_ok ran
    obtain ⟨conclusion, second, ran⟩ := bind_eq_ok ran
    cases ran
    exact ⟨nofun, fun _ => first, fun _ => second, rfl⟩

theorem working_eq_error {expand : Bool} {stored : Obligation} {err : TheoryError}
    (failed : t.working expand stored = .error err) :
    expand = true ∧ err.diagnostic.code = "definition-cycle" ∧
      stored.mapClaims t.expandClaim = .error err := by
  cases expand with
  | false => cases failed
  | true =>
    refine ⟨rfl, ?_, failed⟩
    cases first : t.expandClaim stored.hypothesis with
    | error err' =>
      simp only [working, if_true, Obligation.mapClaims, first] at failed
      cases failed
      exact expandClaim_eq_error first
    | ok hypothesis =>
      cases second : t.expandClaim stored.conclusion with
      | error err' =>
        simp only [working, if_true, Obligation.mapClaims, first, second] at failed
        cases failed
        exact expandClaim_eq_error second
      | ok conclusion =>
        simp only [working, if_true, Obligation.mapClaims, first, second] at failed
        cases failed

/-- How verifying a registered obligation goes. -/
theorem verify_found (found : (t.obligations kind).find? name = some ob) (expand : Bool)
    (trial : Trial) :
    t.verify kind name expand trial.strategy trial.oracle =
      (t.working expand ob).map fun shown =>
        (t.setObligation kind name
          (ob.record (trial.run shown).obligation.status (trial.run shown).steps),
          trial.run shown) := by
  simp only [verify, found]
  cases t.working expand ob <;> rfl

theorem verify_verifies (t : Theory) (kind : Kind) (name : String) (expand : Bool)
    (trial : Trial) : t.Verifies kind name expand trial := by
  cases found : (t.obligations kind).find? name with
  | none =>
    have absent : t.lookup? (.obligations kind) name = none := by simp [lookup?, found]
    have refused : t.verify kind name expand trial.strategy trial.oracle =
        .error (.unknownName (.obligations kind) name) := by simp only [verify, found]
    refine ⟨⟨fun _ => absent, fun _ => ⟨_, refused, rfl⟩⟩, ?_, ?_⟩
    · intro err failed
      cases refused.symm.trans failed
      exact .inl ⟨absent, rfl⟩
    · intro t' attempt ran
      cases refused.symm.trans ran
  | some stored =>
    have present := lookup?_obligations.mpr found
    have course := verify_found found expand trial
    have refused (err : TheoryError)
        (failed : t.verify kind name expand trial.strategy trial.oracle = .error err) :
        t.working expand stored = .error err := by
      rw [course] at failed
      cases working : t.working expand stored with
      | error err' =>
        rw [working] at failed
        cases failed
        rfl
      | ok shown =>
        rw [working] at failed
        cases failed
    refine ⟨⟨?_, fun absent => ?_⟩, ?_, ?_⟩
    · rintro ⟨err, failed, code⟩
      obtain ⟨-, cycle, -⟩ := working_eq_error (refused err failed)
      exact absurd (cycle.symm.trans code) (by decide)
    · cases present.symm.trans absent
    · intro err failed
      obtain ⟨expanded, cycle, failed⟩ := working_eq_error (refused err failed)
      exact .inr ⟨expanded, cycle, stored, present, failed⟩
    · intro t' attempt ran
      obtain ⟨shown, working, made⟩ := map_eq_ok (course.symm.trans ran)
      cases made
      exact ⟨t.sameBut_setObligation kind name _, stored, shown, present, working_eq_ok working,
        rfl, t.lookup?_setObligation_self kind name _⟩

/-! ## Sequences of operations -/

/-- What an entry keeps of the addition that brought it in: axioms and definitions
everything, an obligation all but the status, with its log extended. -/
inductive Stems : Entry → Entry → Prop
  | assumed (a : Axiom) : Stems (.assumed a) (.assumed a)
  | defined (e : Expr) : Stems (.defined e) (.defined e)
  | posed (ob : Obligation) (status : Status) (steps : List String) :
    Stems (.posed ob) (.posed (ob.record status steps))

theorem Stems.refl (entry : Entry) : Stems entry entry := by
  cases entry with
  | assumed a => exact .assumed a
  | defined e => exact .defined e
  | posed ob =>
    have same : ob.record ob.status [] = ob := by simp [Obligation.record]
    have stems := Stems.posed ob ob.status []
    rwa [same] at stems

/-- A further attempt on an obligation. -/
theorem Stems.record {entry : Entry} (stems : Stems entry (.posed ob)) (status : Status)
    (steps : List String) :
    Stems entry (.posed { ob with status, steps := ob.steps ++ steps }) := by
  cases stems with
  | posed first _ before =>
    have twice : { first.record ‹_› before with
        status, steps := (first.record ‹_› before).steps ++ steps } =
        first.record status (before ++ steps) := by
      simp [Obligation.record]
    rw [twice]
    exact .posed first status (before ++ steps)

/-- Every entry stems from an addition of this name to this registry. -/
def Accounted (t : Theory) (ops : List Operation) : Prop :=
  ∀ registry name entry, t.lookup? registry name = some entry →
    ∃ a, .add a ∈ ops ∧ a.registry = registry ∧ a.name = name ∧ Stems a.entry entry

variable {ops : List Operation}

theorem accounted_empty (duplicates : Duplicates) : Accounted { duplicates } [] := by
  intro registry name entry found
  cases registry with
  | axioms => cases found
  | definitions => cases found
  | obligations kind => cases kind <;> cases found

theorem Accounted.mono {more : List Operation} (accounted : t.Accounted ops)
    (included : ops ⊆ more) : t.Accounted more := by
  intro registry name entry found
  obtain ⟨a, member, rest⟩ := accounted registry name entry found
  exact ⟨a, included member, rest⟩

/-- An operation keeps every entry accounted for: the one it sets is the addition
itself, or the obligation from before with the attempt recorded. -/
theorem Accounted.after (accounted : t.Accounted ops) (op : Operation) :
    (t.after op).Accounted (ops ++ [op]) := by
  have before := accounted.mono (List.subset_append_left ops [op])
  cases applied : t.apply op with
  | error err =>
    rw [Theory.after, applied]
    exact before
  | ok t' =>
    rw [Theory.after, applied]
    intro registry name entry found
    cases op with
    | add a =>
      obtain ⟨stored, frame⟩ := (t.add_adds a).stored t' applied
      by_cases here : registry = a.registry ∧ name = a.name
      · obtain ⟨rfl, rfl⟩ := here
        cases stored.symm.trans found
        exact ⟨a, by simp, rfl, rfl, .refl _⟩
      · exact before registry name entry ((frame.entry registry name here).symm.trans found)
    | verify kind target expand trial =>
      obtain ⟨⟨t', attempt⟩, ran, rfl⟩ := map_eq_ok applied
      obtain ⟨frame, stored, shown, present, -, -, recorded⟩ :=
        (t.verify_verifies kind target expand trial).recorded _ _ ran
      by_cases here : registry = .obligations kind ∧ name = target
      · obtain ⟨rfl, rfl⟩ := here
        obtain ⟨a, member, same, named, stems⟩ := before _ _ _ present
        cases recorded.symm.trans found
        exact ⟨a, member, same, named, stems.record _ _⟩
      · exact before registry name entry ((frame.entry registry name here).symm.trans found)

theorem duplicates_after (t : Theory) (op : Operation) :
    (t.after op).duplicates = t.duplicates := by
  cases applied : t.apply op with
  | error err => rw [after, applied]
  | ok t' =>
    rw [after, applied]
    cases op with
    | add a => exact ((t.add_adds a).stored t' applied).2.duplicates
    | verify kind target expand trial =>
      obtain ⟨⟨t', attempt⟩, ran, rfl⟩ := map_eq_ok applied
      exact ((t.verify_verifies kind target expand trial).recorded _ _ ran).1.duplicates

/-- What holds of a theory after any operations. -/
structure Kept (duplicates : Duplicates) (ops : List Operation) (t : Theory) : Prop where
  duplicates : t.duplicates = duplicates
  accounted : t.Accounted ops
  axiom_name : ∀ name a, t.axioms.find? name = some a → a.name = name
  obligation_name : ∀ kind name ob, (t.obligations kind).find? name = some ob → ob.name = name

/-- Entries are stored under their own names, since additions are and attempts
keep the name. -/
theorem Accounted.kept {duplicates : Duplicates} (accounted : t.Accounted ops)
    (same : t.duplicates = duplicates) : Kept duplicates ops t := by
  refine ⟨same, accounted, fun name a found => ?_, fun kind name ob found => ?_⟩
  · have entry : t.lookup? .axioms name = some (.assumed a) := by simp [lookup?, found]
    obtain ⟨addition, -, registry, named, stems⟩ := accounted _ _ _ entry
    cases addition with
    | assume n statement =>
      cases stems
      exact named
    | define n e => cases registry
    | pose kind ob => cases registry
  · obtain ⟨addition, -, registry, named, stems⟩ := accounted _ _ _ (lookup?_obligations.mpr found)
    cases addition with
    | assume n statement => cases registry
    | define n e => cases registry
    | pose kind first =>
      cases stems
      exact named

theorem run_kept (duplicates : Duplicates) (ops : List Operation) :
    Kept duplicates ops (ops.foldl after { duplicates }) := by
  suffices all : (ops.foldl after { duplicates }).Accounted ops ∧
      (ops.foldl after { duplicates }).duplicates = duplicates from all.1.kept all.2
  induction ops using List.reverseRecOn with
  | nil => exact ⟨accounted_empty duplicates, rfl⟩
  | append_singleton ops op ih =>
    rw [List.foldl_concat]
    exact ⟨ih.1.after op, (duplicates_after _ op).trans ih.2⟩

/-- The registries after any operations on an empty theory, under either rule for
duplicates. Every axiom and every obligation is stored under its own name, and every
entry stems from an addition of that name to that registry. A refused operation
changes nothing, and whatever comes next is refused only for the stated reasons,
changes one entry only, and records on it what the attempt on the shown statements
came to. -/
theorem registries_kept (duplicates : Duplicates) (ops : List Operation) :
    Kept duplicates ops (ops.foldl after { duplicates }) ∧
    (∀ op err, (ops.foldl after { duplicates }).apply op = .error err →
      (ops ++ [op]).foldl after { duplicates } = ops.foldl after { duplicates }) ∧
    (∀ a, (ops.foldl after { duplicates }).Adds a) ∧
    ∀ kind name expand trial,
      (ops.foldl after { duplicates }).Verifies kind name expand trial := by
  refine ⟨run_kept duplicates ops, fun op err refused => ?_, fun a => add_adds _ a,
    fun kind name expand trial => verify_verifies _ kind name expand trial⟩
  rw [List.foldl_concat, after, refused]

end Theory

end Discharge
