import Discharge.Proofs.Catalog.Order
import Discharge.Proofs.Rational.Rereading
import Discharge.Proofs.Text.Statement

/-! Expansion where nothing is defined. Every expression stays as it is, but the
assumption of a contradiction is written and read again, and the test for a
contradiction sees what was read. Two runs of a catalog, with and without expansion,
are carried along side by side: they agree in everything but what such tests came to. -/

namespace Discharge

/-! ## Nothing to expand -/

namespace Theory

variable {t : Theory}

theorem expand_undefined (undefined : t.definitions = ∅) (e : Expr) : t.expand e = .ok e := by
  have none : t.pending e = [] := by
    unfold pending
    rw [undefined]
    exact List.filter_eq_nil_iff.mpr fun s _ => Bool.false_ne_true
  unfold expand
  rw [settle?, none]
  rfl

theorem expandClaim_undefined (undefined : t.definitions = ∅) (c : Claim) :
    t.expandClaim c = .ok c := by
  have expressions := expand_undefined undefined
  cases c with
  | expr e =>
    simp only [expandClaim, Claim.mapM, expressions, bind, Except.bind]
    rfl
  | equation l r =>
    simp only [expandClaim, Claim.mapM, expressions, bind, Except.bind]
    rfl
  | text s => rfl

theorem working_undefined (undefined : t.definitions = ∅) (expand : Bool) (ob : Obligation) :
    t.working expand ob = .ok ob := by
  have claims := expandClaim_undefined undefined
  cases expand with
  | false => rfl
  | true =>
    simp only [working, if_true, Obligation.mapClaims, claims, bind, Except.bind]
    rfl

end Theory

namespace Plan

variable {t : Theory}

/-- The plan after its assumption has been written and read again. -/
def rewritten : Plan → Plan
  | .contradiction assumption => .contradiction (Claim.parse assumption).render
  | p => p

theorem expand_undefined (undefined : t.definitions = ∅) (p : Plan) :
    p.expand t = .ok p.rewritten := by
  have expressions := Theory.expand_undefined undefined
  have claims := Theory.expandClaim_undefined undefined
  have points (point : LimitPoint) : expandPoint t point = .ok point := by
    cases point with
    | finite e =>
      simp only [expandPoint, expressions, bind, Except.bind]
      rfl
    | _ => rfl
  have bounds (bound : Option LimitPoint) : expandBound t bound = .ok bound := by
    cases bound with
    | none => rfl
    | some point =>
      simp only [expandBound, points, bind, Except.bind]
      rfl
  cases p <;>
    simp only [Plan.expand, expressions, claims, points, bounds, bind, Except.bind] <;> rfl

theorem builtin {p : Plan} {s : Strategy} (planned : p.strategy? = some s) : s.IsBuiltin := by
  cases p with
  | simplification =>
    cases planned
    exact .simplification
  | induction sum =>
    cases planned
    exact .induction _ _
  | contradiction assumption =>
    cases planned
    exact .contradiction _ _
  | limit =>
    cases planned
    exact .limit _ _ _ _
  | derivative =>
    cases planned
    exact .derivative _ _ _
  | integral integrand var lower upper expected =>
    obtain ⟨bounds, -, rfl⟩ := Option.map_eq_some_iff.mp planned
    exact .integral _ _ _ _

end Plan

/-! ## Assumptions that are read again -/

/-- A proof by contradiction is one exactly if the test finds one. -/
theorem Strategy.contradiction_status (oracle : Oracle) (ob : Obligation) (assumption : Claim)
    (contradicts : Oracle → Claim → Except Stop Bool) :
    ((contradiction assumption contradicts).run oracle ob).obligation.status =
      if contradicts oracle assumption = .ok true then .proven else .unknown := by
  unfold run contradiction
  cases found : contradicts oracle assumption with
  | error stop =>
    rw [if_neg nofun]
    simp only [found]
    rfl
  | ok answer =>
    cases answer with
    | false =>
      rw [if_neg nofun]
      simp only [found]
      rfl
    | true =>
      rw [if_pos rfl]
      simp only [found]
      rfl

/-- The test for a contradiction is refused by a size guard, or an exponent in it leaves
the machine integers. -/
def Claim.IsOversized (guards : Guards) (c : Claim) : Prop :=
  ∃ stop, Strategy.residualContradiction (Oracle.exact guards) c = .error stop ∧
    RationalFunction.Oversized stop

/-- An assumption that may be written and read again before it is tested: it is no
equation, or the difference of its sides keeps its normal form, or both sides denote
rational functions, so that nothing is divided by zero, and are not too large. -/
inductive Claim.Rereadable (guards : Guards) : Claim → Prop
  | expr (e : Expr) : Rereadable guards (.expr e)
  | text (s : String) : Rereadable guards (.text s)
  | normalised {l r l' r' : Expr} (left : Expr.parse l.render = .ok l')
      (right : Expr.parse r.render = .ok r')
      (same : Fraction.ofExpr guards.maxPower (l' - r') = Fraction.ofExpr guards.maxPower (l - r)) :
    Rereadable guards (.equation l r)
  | rational {l r : Expr} {f g : RationalFunction} (left : l.denote = some f)
      (right : r.denote = some g) (within : ¬(Claim.equation l r).IsOversized guards)
      (within' : ¬(Claim.parse (Claim.equation l r).render).IsOversized guards) :
    Rereadable guards (.equation l r)

namespace Claim

variable {guards : Guards} {l r : Expr} {f g : RationalFunction} {text : String}

theorem residualContradiction_congr {l' r' : Expr}
    (same : Fraction.ofExpr guards.maxPower (l' - r') = Fraction.ofExpr guards.maxPower (l - r)) :
    Strategy.residualContradiction (Oracle.exact guards) (.equation l' r') =
      Strategy.residualContradiction (Oracle.exact guards) (.equation l r) := by
  simp only [Strategy.residualContradiction, Oracle.exact, same]

theorem residualContradiction_iff (left : l.denote = some f) (right : r.denote = some g)
    (within : ¬(Claim.equation l r).IsOversized guards) :
    Strategy.residualContradiction (Oracle.exact guards) (.equation l r) = .ok true ↔
      RationalFunction.Apart f g := by
  have ensured := RationalFunction.residualContradiction_ensures guards left right
  cases ran : Strategy.residualContradiction (Oracle.exact guards) (.equation l r) with
  | error stop => exact absurd ⟨stop, ran, ensured.of_error ran⟩ within
  | ok answer => simpa using ensured.of_ok ran

/-- The test comes to the same before and after. -/
theorem Rereadable.test (rereadable : (parse text).Rereadable guards) :
    Strategy.residualContradiction (Oracle.exact guards) (parse (parse text).render) = .ok true ↔
      Strategy.residualContradiction (Oracle.exact guards) (parse text) = .ok true := by
  by_cases equation : ∃ l r, parse text = .equation l r
  · obtain ⟨l, r, equation⟩ := equation
    obtain ⟨left, right⟩ : Parser.Named l ∧ Parser.Named r := by
      rcases parse_cases text with ⟨l', r', same, left, right⟩ | ⟨e, same, -⟩ | same
      · cases equation.symm.trans same
        exact ⟨left, right⟩
      · cases equation.symm.trans same
      · cases equation.symm.trans same
    have reread := parse_equation left right
    rw [equation] at rereadable ⊢
    cases rereadable with
    | normalised read read' same =>
      have built := Parser.toOption_of_parses (Parser.parses_render l left)
      have built' := Parser.toOption_of_parses (Parser.parses_render r right)
      rw [read] at built
      rw [read'] at built'
      rw [← built, ← built'] at reread
      rw [reread]
      dsimp only [Except.toOption]
      rw [residualContradiction_congr same]
    | rational denotes denotes' within within' =>
      obtain ⟨l', built, shows'⟩ := RationalFunction.built_of_denote left denotes
      obtain ⟨r', built', shows''⟩ := RationalFunction.built_of_denote right denotes'
      rw [built, built'] at reread
      rw [reread] at within' ⊢
      rw [residualContradiction_iff denotes denotes' within,
        residualContradiction_iff shows' shows'' within']
  · -- What is no equation is not contradictory.
    have refused {c : Claim} (other : ∀ l r, c ≠ .equation l r) :
        Strategy.residualContradiction (Oracle.exact guards) c ≠ .ok true := by
      cases c with
      | equation l r => exact absurd rfl (other l r)
      | expr | text => exact nofun
    have other : ∀ l r, parse text ≠ .equation l r := fun l r same => equation ⟨l, r, same⟩
    exact iff_of_false (refused (parse_render_of_no_equation other)) (refused other)

end Claim

/-- The plan starts from no assumption that must not be read again. -/
def Plan.Rereadable (guards : Guards) : Plan → Prop
  | .contradiction assumption => (Claim.parse assumption).Rereadable guards
  | _ => True

/-- A plan and the rewritten one have strategies that differ in an assumption only. -/
theorem Plan.strategy_rewritten (guards : Guards) (p : Plan) :
    (p.strategy? = none ∧ p.rewritten.strategy? = none) ∨
      ∃ s s', p.strategy? = some s ∧ p.rewritten.strategy? = some s' ∧
        (p.method ≠ .contradiction → s' = s) ∧
        (p.Rereadable guards → ∀ ob, (s'.run (Oracle.exact guards) ob).obligation.status =
          (s.run (Oracle.exact guards) ob).obligation.status) := by
  have unchanged (same : p.rewritten = p) : (p.strategy? = none ∧ p.rewritten.strategy? = none) ∨
      ∃ s s', p.strategy? = some s ∧ p.rewritten.strategy? = some s' ∧
        (p.method ≠ .contradiction → s' = s) ∧
        (p.Rereadable guards → ∀ ob, (s'.run (Oracle.exact guards) ob).obligation.status =
          (s.run (Oracle.exact guards) ob).obligation.status) := by
    rw [same]
    cases planned : p.strategy? with
    | none => exact .inl ⟨rfl, rfl⟩
    | some s => exact .inr ⟨s, s, rfl, rfl, fun _ => rfl, fun _ _ => rfl⟩
  cases p with
  | contradiction assumption =>
    refine .inr ⟨_, _, rfl, rfl, fun other => absurd rfl other, fun rereadable ob => ?_⟩
    rw [Strategy.contradiction_status, Strategy.contradiction_status]
    exact if_congr (Claim.Rereadable.test rereadable) rfl rfl
  | simplification | induction | limit | derivative | integral => exact unchanged rfl

/-! ## Two runs side by side -/

/-- The computations fail alike, or succeed with related results. -/
inductive Alike {ε σ : Type} (R : σ → σ → Prop) : Except ε σ → Except ε σ → Prop
  | ok {s s' : σ} (related : R s s') : Alike R (.ok s) (.ok s')
  | error (e : ε) : Alike R (.error e) (.error e)

theorem Alike.bind {ε σ τ : Type} {R : σ → σ → Prop} {S : τ → τ → Prop} {x y : Except ε σ}
    {f g : σ → Except ε τ} (first : Alike R x y) (next : ∀ s s', R s s' → Alike S (f s) (g s')) :
    Alike S (x >>= f) (y >>= g) := by
  cases first with
  | ok related => exact next _ _ related
  | error e => exact .error e

theorem Alike.mono {ε σ : Type} {R S : σ → σ → Prop} {x y : Except ε σ} (alike : Alike R x y)
    (imp : ∀ s s', R s s' → S s s') : Alike S x y := by
  cases alike with
  | ok related => exact .ok (imp _ _ related)
  | error e => exact .error e

/-- Related steps make related runs. -/
theorem foldlM_alike {ε σ α : Type} {R : σ → σ → Prop} {f g : σ → α → Except ε σ} {l : List α}
    (step : ∀ a ∈ l, ∀ s s', R s s' → Alike R (f s a) (g s' a)) {s s' : σ} (related : R s s') :
    Alike R (l.foldlM f s) (l.foldlM g s') := by
  induction l generalizing s s' with
  | nil => exact .ok related
  | cons a l ih =>
    obtain ⟨head, tail⟩ := List.forall_mem_cons.mp step
    rw [List.foldlM_cons, List.foldlM_cons]
    exact (head s s' related).bind fun _ _ => ih tail

/-- The obligation is what the other is but for its status and its steps. -/
structure Obligation.Resembles (agreed direct : Prop) (ob ob' : Obligation) : Prop where
  name : ob'.name = ob.name
  hypothesis : ob'.hypothesis = ob.hypothesis
  conclusion : ob'.conclusion = ob.conclusion
  methodLabel : ob'.methodLabel = ob.methodLabel
  status : agreed → ob'.status = ob.status
  same : direct → ob' = ob

theorem Obligation.Resembles.refl (agreed direct : Prop) (ob : Obligation) :
    Resembles agreed direct ob ob := ⟨rfl, rfl, rfl, rfl, fun _ => rfl, fun _ => rfl⟩

theorem Obligation.Resembles.record {agreed direct : Prop} {ob ob' : Obligation}
    (resembles : Resembles agreed direct ob ob') {status status' : Status}
    {steps steps' : List String} (equal : agreed → status' = status)
    (same : direct → status' = status ∧ steps' = steps) :
    Resembles agreed direct (ob.record status steps) (ob'.record status' steps') where
  name := resembles.name
  hypothesis := resembles.hypothesis
  conclusion := resembles.conclusion
  methodLabel := resembles.methodLabel
  status := equal
  same holds := by
    obtain ⟨rfl, rfl⟩ := same holds
    rw [resembles.same holds]

namespace Catalog

variable {c : Catalog} {guards : Guards} {t t' : Theory} {kind : Kind} {name : String}
  {o : ObligationSpec}

/-- Every entry for the obligation has a plan that can be read again. -/
def Rereadable (c : Catalog) (guards : Guards) (kind : Kind) (name : String) : Prop :=
  ∀ o ∈ c.obligations, o.kind = kind → o.name = name → o.plan.Rereadable guards

/-- No entry for the obligation is a contradiction. -/
def Direct (c : Catalog) (kind : Kind) (name : String) : Prop :=
  ∀ o ∈ c.obligations, o.kind = kind → o.name = name → o.plan.method ≠ .contradiction

/-- The theories differ in the statuses and steps of obligations only; the statuses
agree where all plans can be read again, and the steps where there is nothing to read. -/
structure Resemble (c : Catalog) (guards : Guards) (t t' : Theory) : Prop where
  duplicates : t'.duplicates = t.duplicates
  axioms : t'.axioms = t.axioms
  definitions : t'.definitions = t.definitions
  obligations : ∀ kind name, Option.Rel
    (Obligation.Resembles (c.Rereadable guards kind name) (c.Direct kind name))
    ((t.obligations kind).find? name) ((t'.obligations kind).find? name)

theorem Resemble.refl (c : Catalog) (guards : Guards) (t : Theory) : c.Resemble guards t t where
  duplicates := rfl
  axioms := rfl
  definitions := rfl
  obligations kind name := by
    cases (t.obligations kind).find? name with
    | none => exact .none
    | some ob => exact .some (.refl _ _ ob)

theorem find?_setObligation (t : Theory) (kind kind' : Kind) (name name' : String)
    (ob : Obligation) : ((t.setObligation kind name ob).obligations kind').find? name' =
      if kind' = kind ∧ name' = name then some ob else (t.obligations kind').find? name' := by
  by_cases same : kind' = kind
  · subst same
    rw [Theory.obligations_setObligation_self]
    by_cases equal : name' = name
    · subst equal
      rw [if_pos ⟨rfl, rfl⟩, Table.find?_insert_self]
    · rw [if_neg fun both => equal both.2, Table.find?_insert_of_ne _ equal]
  · rw [if_neg fun both => same both.1, Theory.obligations_setObligation_of_ne t same]

theorem Resemble.setObligation (resemble : c.Resemble guards t t') {ob ob' : Obligation}
    (resembles : Obligation.Resembles (c.Rereadable guards kind name) (c.Direct kind name) ob ob') :
    c.Resemble guards (t.setObligation kind name ob) (t'.setObligation kind name ob') where
  duplicates := by simpa using resemble.duplicates
  axioms := by simpa using resemble.axioms
  definitions := by simpa using resemble.definitions
  obligations kind' name' := by
    rw [find?_setObligation, find?_setObligation]
    split
    · rename_i same
      obtain ⟨rfl, rfl⟩ := same
      exact .some resembles
    · exact resemble.obligations kind' name'

/-! ## One entry -/

theorem verifyEntry_found {expand : Bool} {plan : Plan} {s : Strategy} {ob : Obligation}
    (undefined : t.definitions = ∅) (oracle : Oracle)
    (expanded : (if expand then o.plan.expand t else .ok o.plan) = .ok plan)
    (planned : plan.strategy? = some s) (found : (t.obligations o.kind).find? o.name = some ob) :
    verifyEntry oracle expand t o = .ok (t.setObligation o.kind o.name
      (ob.record (s.run oracle ob).obligation.status (s.run oracle ob).steps)) :=
  verifyEntry_eq_ok.mpr ⟨_, ⟨plan, s, ob, ob, expanded, planned, found,
    Theory.working_undefined undefined expand ob, rfl⟩, rfl⟩

theorem verifyEntry_missing {expand : Bool} {plan : Plan} {s : Strategy} (oracle : Oracle)
    (expanded : (if expand then o.plan.expand t else .ok o.plan) = .ok plan)
    (planned : plan.strategy? = some s) (missing : (t.obligations o.kind).find? o.name = none) :
    verifyEntry oracle expand t o =
      .error (.refused (.unknownName (.obligations o.kind) o.name)) := by
  simp only [verifyEntry, expanded, Except.mapError, bind, Except.bind, planned, Theory.verify,
    missing]

theorem verifyEntry_unplanned {expand : Bool} {plan : Plan} (oracle : Oracle)
    (expanded : (if expand then o.plan.expand t else .ok o.plan) = .ok plan)
    (unplanned : plan.strategy? = none) :
    verifyEntry oracle expand t o = .error (.halfOpenBounds o.name) := by
  simp only [verifyEntry, expanded, Except.mapError, bind, Except.bind, unplanned]

/-- Verifying an entry with and without expansion keeps the theories alike. -/
theorem verifyEntry_alike (member : o ∈ c.obligations) (undefined : t.definitions = ∅)
    (resemble : c.Resemble guards t t') :
    Alike (fun t t' => t.definitions = ∅ ∧ c.Resemble guards t t')
      (verifyEntry (Oracle.exact guards) false t o)
      (verifyEntry (Oracle.exact guards) true t' o) := by
  have undefined' : t'.definitions = ∅ := resemble.definitions.trans undefined
  have expanded : (if true then o.plan.expand t' else .ok o.plan) = .ok o.plan.rewritten :=
    Plan.expand_undefined undefined' o.plan
  rcases o.plan.strategy_rewritten guards with
    ⟨unplanned, unplanned'⟩ | ⟨s, s', planned, planned', equal, status⟩
  · rw [verifyEntry_unplanned _ rfl unplanned, verifyEntry_unplanned _ expanded unplanned']
    exact .error _
  have related := resemble.obligations o.kind o.name
  cases found : (t.obligations o.kind).find? o.name with
  | none =>
    have missing : (t'.obligations o.kind).find? o.name = none := by
      rw [found] at related
      generalize (t'.obligations o.kind).find? o.name = entry at related
      cases related
      rfl
    rw [verifyEntry_missing _ rfl planned found, verifyEntry_missing _ expanded planned' missing]
    exact .error _
  | some ob =>
    obtain ⟨ob', found', resembles⟩ : ∃ ob', (t'.obligations o.kind).find? o.name = some ob' ∧
        Obligation.Resembles (c.Rereadable guards o.kind o.name) (c.Direct o.kind o.name)
          ob ob' := by
      rw [found] at related
      generalize (t'.obligations o.kind).find? o.name = entry at related
      cases related with
      | some resembles => exact ⟨_, rfl, resembles⟩
    rw [verifyEntry_found undefined _ rfl planned found,
      verifyEntry_found undefined' _ expanded planned' found']
    -- A strategy only looks at the statements, which are the same.
    obtain ⟨steps, outcome⟩ := Trial.run_congr (t := ⟨s', Oracle.exact guards⟩)
      (Trial.course_congr (t := ⟨s', Oracle.exact guards⟩) (Plan.builtin planned')
        resembles.hypothesis resembles.conclusion)
    refine .ok ⟨by simpa using undefined, resemble.setObligation (resembles.record ?_ ?_)⟩
    · exact fun agreed => outcome.trans (status (agreed o member rfl rfl) ob)
    · intro direct
      obtain rfl := equal (direct o member rfl rfl)
      exact ⟨outcome, steps⟩

/-! ## Catalogs -/

theorem register_definitions (none : c.definitions = []) {duplicates : Duplicates}
    (ran : c.register duplicates = .ok t) : t.definitions = ∅ := by
  have fold {α : Type} {f : Theory → α → Except TheoryError Theory}
      (step : ∀ t a t', f t a = .ok t' → t'.definitions = t.definitions) {l : List α}
      {t t' : Theory} (ran : l.foldlM f t = .ok t') : t'.definitions = t.definitions := by
    induction l generalizing t with
    | nil =>
      cases ran
      rfl
    | cons a l ih =>
      rw [List.foldlM_cons] at ran
      obtain ⟨next, first, rest⟩ := bind_eq_ok ran
      exact (ih rest).trans (step t a next first)
  obtain ⟨t₁, axioms, ran⟩ := bind_eq_ok ran
  obtain ⟨t₂, definitions, obligations⟩ := bind_eq_ok ran
  rw [none] at definitions
  cases definitions
  have last := fold (fun t o t' added => ?_) obligations
  · have first := fold (fun t a t' added => ?_) axioms
    · exact last.trans first
    · obtain ⟨-, -, made⟩ := bind_eq_ok added
      cases made
      rfl
  · obtain ⟨-, -, made⟩ := bind_eq_ok added
    cases made
    exact Theory.definitions_setObligation _ _ _ _

theorem verify_alike (none : c.definitions = []) (policy : Policy) :
    Alike (c.Resemble policy.guards)
      (c.verify (Oracle.exact policy.guards) { policy with expandDefinitions := false })
      (c.verify (Oracle.exact policy.guards) { policy with expandDefinitions := true }) := by
  unfold verify
  cases registers : c.register policy.duplicates with
  | error e => exact .error _
  | ok t =>
    have undefined := register_definitions none registers
    have run : Alike (fun t t' => t.definitions = ∅ ∧ c.Resemble policy.guards t t')
        (c.obligations.foldlM (verifyEntry (Oracle.exact policy.guards) false) t)
        (c.obligations.foldlM (verifyEntry (Oracle.exact policy.guards) true) t) := by
      refine foldlM_alike ?_ ⟨undefined, .refl c policy.guards t⟩
      exact fun o member t t' related => verifyEntry_alike member related.1 related.2
    exact run.mono fun _ _ => And.right

/-- With no definitions, a run with expansion fails exactly if the one without does,
and in the same way. Otherwise their theories differ in nothing but the statuses and
the steps of obligations that are proved by contradiction, and not in a status where
all assumptions can be read again. -/
theorem verify_expansion (none : c.definitions = []) (policy : Policy) :
    let plain := c.verify (Oracle.exact policy.guards) { policy with expandDefinitions := false }
    let expanded := c.verify (Oracle.exact policy.guards) { policy with expandDefinitions := true }
    (∀ e, plain = .error e ↔ expanded = .error e) ∧
      ∀ t t', plain = .ok t → expanded = .ok t' → c.Resemble policy.guards t t' := by
  intro plain expanded
  have alike : Alike (c.Resemble policy.guards) plain expanded := verify_alike none policy
  generalize plain = x at alike
  generalize expanded = y at alike
  cases alike with
  | ok related =>
    refine ⟨fun e => ⟨nofun, nofun⟩, fun t t' left right => ?_⟩
    cases left
    cases right
    exact related
  | error e => exact ⟨fun e' => Iff.rfl, nofun⟩

/-- A catalog with a contradiction whose sides are written in another way than they
are read. -/
def inversePowers : Catalog where
  obligations := [
    ⟨"sum", .supporting, "x + x", "2*x", .simplification⟩,
    ⟨"apart", .principal, "the difference is 1", "no point", .contradiction "x^(-2) + 1 = x^(-2)"⟩]

theorem inversePowers_rereadable : inversePowers.Rereadable {} .principal "apart" := by
  have power : (Expr.power (.symbol "x") (.int (-2))).denote =
      some (RationalFunction.var "x" ^ (-2 : ℤ)) :=
    Expr.denote_power_of_ne_zero (Expr.denote_symbol "x") (RationalFunction.var_ne_zero "x") (-2)
  have parsed : Claim.parse "x^(-2) + 1 = x^(-2)" = .equation
      (.power (.symbol "x") (.int (-2)) + .number 1) (.power (.symbol "x") (.int (-2))) := by
    decide +kernel
  have test : Strategy.residualContradiction (Oracle.exact {})
      (Claim.parse "x^(-2) + 1 = x^(-2)") = .ok true := by decide +kernel
  have again : Strategy.residualContradiction (Oracle.exact {})
      (Claim.parse (Claim.parse "x^(-2) + 1 = x^(-2)").render) = .ok true := by decide +kernel
  have rereadable : (Claim.parse "x^(-2) + 1 = x^(-2)").Rereadable {} := by
    rw [parsed] at test again ⊢
    refine .rational (Expr.denote_add power (Expr.denote_number 1)) power ?_ ?_
    · rintro ⟨stop, refused, -⟩
      cases test.symm.trans refused
    · rintro ⟨stop, refused, -⟩
      cases again.symm.trans refused
  intro o member kind name
  rcases List.mem_pair.mp member with rfl | rfl
  · cases kind
  · exact rereadable

theorem verify_expansion_inversePowers : inversePowers.definitions = [] ∧
    ∃ t t' ob ob', inversePowers.verify (Oracle.exact {}) { expandDefinitions := false } = .ok t ∧
      inversePowers.verify (Oracle.exact {}) { expandDefinitions := true } = .ok t' ∧
      (t.obligations .principal).find? "apart" = some ob ∧
      (t'.obligations .principal).find? "apart" = some ob' ∧ ob'.status = ob.status := by
  have found : (inversePowers.verify (Oracle.exact {}) { expandDefinitions := false }).map
      (fun t => ((t.obligations .principal).find? "apart").isSome) = .ok true := by decide +kernel
  obtain ⟨failing, succeeding⟩ := verify_expansion (c := inversePowers) rfl {}
  obtain ⟨t, plain, found⟩ := map_eq_ok found
  obtain ⟨ob, posed⟩ := Option.isSome_iff_exists.mp found
  cases expanded : inversePowers.verify (Oracle.exact {}) { expandDefinitions := true } with
  | error e => cases plain.symm.trans ((failing e).mpr expanded)
  | ok t' =>
    have related := (succeeding t t' plain expanded).obligations .principal "apart"
    rw [posed] at related
    generalize posed' : (t'.obligations .principal).find? "apart" = entry at related
    cases related with
    | @some _ ob' resembles =>
      exact ⟨rfl, t, t', ob, ob', plain, rfl, posed, posed',
        resembles.status inversePowers_rereadable⟩

/-- A catalog with an assumption that divides by zero, but not any more when it has
been written and read again. -/
def vanishingQuotient : Catalog where
  obligations := [⟨"quotient", .principal, "nothing is assumed", "no point",
    .contradiction "0/(x - x) = 1"⟩]

/-- Expansion can change a status where nothing is defined. -/
theorem vanishingQuotient_expansion : vanishingQuotient.definitions = [] ∧
    (vanishingQuotient.verify (Oracle.exact {}) { expandDefinitions := false }).map
      (fun t => t.theorems.values.map (·.status)) = .ok [.unknown] ∧
    (vanishingQuotient.verify (Oracle.exact {}) { expandDefinitions := true }).map
      (fun t => t.theorems.values.map (·.status)) = .ok [.proven] := by
  decide +kernel

end Catalog

end Discharge
