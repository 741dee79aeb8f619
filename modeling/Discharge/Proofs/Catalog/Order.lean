import Discharge.Catalog
import Discharge.Proofs.Registry

/-! The order of the entries of a catalog. Registering and verifying are folds of
steps, and steps for different entries commute: what a step reads besides its own
entry are the definitions, which verifying leaves alone. So a fold that succeeds
also succeeds on every permutation of its list, with the same result. -/

namespace Discharge

/-! ## Folds of commuting steps -/

theorem bind_of_ok {ε α β : Type} {x : Except ε α} {f : α → Except ε β} {a : α}
    {y : Except ε β} (first : x = .ok a) (next : f a = y) : x >>= f = y := by
  rw [first]
  exact next

/-- Where successful steps for elements that are apart commute, a fold does not
depend on the order of its elements. -/
theorem foldlM_of_perm {ε σ α : Type} (f : σ → α → Except ε σ) (apart : α → α → Prop)
    (symm : ∀ a b, apart a b → apart b a)
    (comm : ∀ s s₁ s₂ a b, apart a b → f s a = .ok s₁ → f s₁ b = .ok s₂ →
      ∃ s', f s b = .ok s' ∧ f s' a = .ok s₂)
    {l l' : List α} (perm : l.Perm l') (distinct : l.Pairwise apart) {s t : σ}
    (ran : l.foldlM f s = .ok t) : l'.foldlM f s = .ok t := by
  induction perm generalizing s with
  | nil => exact ran
  | cons a _ ih =>
    rw [List.foldlM_cons] at ran ⊢
    obtain ⟨s₁, first, rest⟩ := bind_eq_ok ran
    exact bind_of_ok first (ih (List.pairwise_cons.mp distinct).2 rest)
  | swap a b l =>
    rw [List.foldlM_cons] at ran
    obtain ⟨s₁, first, ran⟩ := bind_eq_ok ran
    rw [List.foldlM_cons] at ran
    obtain ⟨s₂, second, rest⟩ := bind_eq_ok ran
    have different : apart b a := (List.pairwise_cons.mp distinct).1 a List.mem_cons_self
    obtain ⟨s', before, after⟩ := comm s s₁ s₂ b a different first second
    rw [List.foldlM_cons]
    exact bind_of_ok before (bind_of_ok after rest)
  | trans perm _ ih₁ ih₂ =>
    exact ih₂ (distinct.perm perm fun {a b} => symm a b) (ih₁ distinct ran)

namespace Theory

variable {t t' t₁ t₂ : Theory}

/-! ## Independent registrations -/

/-- A theory is determined by its rule for duplicates and its entries. -/
theorem ext_lookup? (duplicates : t.duplicates = t'.duplicates)
    (entry : ∀ r n, t.lookup? r n = t'.lookup? r n) : t = t' := by
  have axioms : t.axioms = t'.axioms := Table.ext_find? fun n =>
    Option.map_injective (fun _ _ same => Entry.assumed.inj same) (entry .axioms n)
  have definitions : t.definitions = t'.definitions := Table.ext_find? fun n =>
    Option.map_injective (fun _ _ same => Entry.defined.inj same) (entry .definitions n)
  have obligations (kind : Kind) : t.obligations kind = t'.obligations kind :=
    Table.ext_find? fun n =>
      Option.map_injective (fun _ _ same => Entry.posed.inj same) (entry (.obligations kind) n)
  have lemmas := obligations .supporting
  have theorems := obligations .principal
  have corollaries := obligations .consequence
  cases t
  cases t'
  simp_all [Theory.obligations]

/-- Two entries that are set one after the other, in both orders. -/
theorem eq_of_sameBut {a b ab ba : Theory} {r r' : Registry} {n n' : String}
    (apart : ¬(r' = r ∧ n' = n)) (first : SameBut r n t a) (then' : SameBut r' n' a ab)
    (second : SameBut r' n' t b) (then'' : SameBut r n b ba)
    (left : ba.lookup? r n = a.lookup? r n) (right : ab.lookup? r' n' = b.lookup? r' n') :
    ab = ba := by
  refine ext_lookup? ?_ fun r₀ n₀ => ?_
  · rw [then'.duplicates, first.duplicates, then''.duplicates, second.duplicates]
  · by_cases atFirst : r₀ = r ∧ n₀ = n
    · obtain ⟨rfl, rfl⟩ := atFirst
      rw [left, then'.entry _ _ fun same => apart ⟨same.1.symm, same.2.symm⟩]
    · by_cases atSecond : r₀ = r' ∧ n₀ = n'
      · obtain ⟨rfl, rfl⟩ := atSecond
        rw [right, then''.entry _ _ apart]
      · rw [then'.entry _ _ atSecond, first.entry _ _ atFirst, then''.entry _ _ atFirst,
          second.entry _ _ atSecond]

theorem setObligation_comm (t : Theory) {kind kind' : Kind} {name name' : String}
    (apart : (kind, name) ≠ (kind', name')) (ob ob' : Obligation) :
    (t.setObligation kind name ob).setObligation kind' name' ob' =
      (t.setObligation kind' name' ob').setObligation kind name ob := by
  have other : ¬(Registry.obligations kind' = .obligations kind ∧ name' = name) := by
    rintro ⟨same, rfl⟩
    cases same
    exact apart rfl
  refine eq_of_sameBut other (sameBut_setObligation t kind name ob)
    (sameBut_setObligation _ kind' name' ob') (sameBut_setObligation t kind' name' ob')
    (sameBut_setObligation _ kind name ob) ?_ ?_
  · rw [lookup?_setObligation_self, lookup?_setObligation_self]
  · rw [lookup?_setObligation_self, lookup?_setObligation_self]

/-- The additions are for different entries. -/
def Addition.Apart (a b : Addition) : Prop := ¬(a.registry = b.registry ∧ a.name = b.name)

theorem Addition.Apart.symm {a b : Addition} (apart : a.Apart b) : b.Apart a :=
  fun same => apart ⟨same.1.symm, same.2.symm⟩

theorem put_comm (t : Theory) {a b : Addition} (apart : a.Apart b) :
    (t.put a).put b = (t.put b).put a := by
  refine eq_of_sameBut apart.symm (t.sameBut_put a) (sameBut_put _ b) (t.sameBut_put b)
    (sameBut_put _ a) ?_ ?_
  · rw [lookup?_put_self, lookup?_put_self]
  · rw [lookup?_put_self, lookup?_put_self]

theorem add_eq_ok {a : Addition} : t.add a = .ok t' ↔
    ¬(t.duplicates = .reject ∧ t.lookup? a.registry a.name ≠ none) ∧ t' = t.put a := by
  rw [add_eq]
  split
  · simp_all
  · simp_all [eq_comm]

theorem add_comm {a b : Addition} (apart : a.Apart b) (first : t.add a = .ok t₁)
    (second : t₁.add b = .ok t₂) : ∃ t', t.add b = .ok t' ∧ t'.add a = .ok t₂ := by
  obtain ⟨free, rfl⟩ := add_eq_ok.mp first
  obtain ⟨free', rfl⟩ := add_eq_ok.mp second
  have frame := t.sameBut_put a
  rw [frame.duplicates, frame.entry _ _ apart.symm] at free'
  refine ⟨t.put b, add_eq_ok.mpr ⟨free', rfl⟩, add_eq_ok.mpr ⟨?_, t.put_comm apart⟩⟩
  have frame' := t.sameBut_put b
  rwa [frame'.duplicates, frame'.entry _ _ apart]

/-! ## What expansion reads -/

theorem expand_congr (same : t'.definitions = t.definitions) : t'.expand = t.expand := by
  have once : t'.expandOnce = t.expandOnce := by
    funext e
    unfold expandOnce pending putDefinition
    rw [same]
  have settle (looks : Nat) : t'.settle? looks = t.settle? looks := by
    induction looks with
    | zero => rfl
    | succ looks ih =>
      funext e
      rw [settle?, settle?, once, ih, pending, pending, same]
  funext e
  rw [expand, expand, same, settle]

theorem working_congr (same : t'.definitions = t.definitions) (expand : Bool) (ob : Obligation) :
    t'.working expand ob = t.working expand ob := by
  have claims : t'.expandClaim = t.expandClaim := by
    funext c
    rw [expandClaim, expandClaim, expand_congr same]
  rw [working, working, claims]

end Theory

theorem Plan.expand_congr {t t' : Theory} (same : t'.definitions = t.definitions) (p : Plan) :
    p.expand t' = p.expand t := by
  have expressions := Theory.expand_congr same
  have claims : t'.expandClaim = t.expandClaim := by
    funext c
    rw [Theory.expandClaim, Theory.expandClaim, expressions]
  have points : expandPoint t' = expandPoint t := by
    funext point
    unfold expandPoint
    rw [expressions]
  have bounds : expandBound t' = expandBound t := by
    funext bound
    unfold expandBound
    rw [points]
  cases p <;> simp only [Plan.expand, expressions, claims, points, bounds]

namespace Catalog

variable {oracle : Oracle} {expand : Bool} {t t' t₁ t₂ : Theory} {o p : ObligationSpec}

/-! ## Independent verifications -/

/-- Verifying the entry leaves its obligation in the given form. -/
def Settles (oracle : Oracle) (expand : Bool) (t : Theory) (o : ObligationSpec)
    (ob : Obligation) : Prop :=
  ∃ plan strategy stored shown, (if expand then o.plan.expand t else .ok o.plan) = .ok plan ∧
    plan.strategy? = some strategy ∧ (t.obligations o.kind).find? o.name = some stored ∧
    t.working expand stored = .ok shown ∧
    ob = stored.record (strategy.run oracle shown).obligation.status
      (strategy.run oracle shown).steps

theorem mapError_eq_ok {ε ε' α : Type} {x : Except ε α} {f : ε → ε'} {a : α} :
    x.mapError f = .ok a ↔ x = .ok a := by
  cases x <;> simp [Except.mapError]

theorem verifyEntry_eq_ok : verifyEntry oracle expand t o = .ok t' ↔
    ∃ ob, Settles oracle expand t o ob ∧ t' = t.setObligation o.kind o.name ob := by
  constructor
  · intro ran
    obtain ⟨plan, expanded, ran⟩ := bind_eq_ok ran
    have expanded := mapError_eq_ok.mp expanded
    cases planned : plan.strategy? with
    | none =>
      rw [planned] at ran
      cases ran
    | some strategy =>
      rw [planned] at ran
      obtain ⟨⟨t'', attempt⟩, verified, ran⟩ := bind_eq_ok ran
      have verified := mapError_eq_ok.mp verified
      cases ran
      cases found : (t.obligations o.kind).find? o.name with
      | none =>
        simp only [Theory.verify, found] at verified
        cases verified
      | some stored =>
        rw [Theory.verify_found found expand ⟨strategy, oracle⟩] at verified
        obtain ⟨shown, working, made⟩ := map_eq_ok verified
        cases made
        exact ⟨_, ⟨plan, strategy, stored, shown, expanded, planned, found, working, rfl⟩, rfl⟩
  · rintro ⟨ob, ⟨plan, strategy, stored, shown, expanded, planned, found, working, rfl⟩, rfl⟩
    have verified := Theory.verify_found found expand ⟨strategy, oracle⟩
    rw [working] at verified
    simp only [verifyEntry, expanded, mapError_eq_ok.mpr rfl, Except.bind, bind, planned, verified]
    rfl

/-- Besides its own obligation, verifying an entry reads the definitions only. -/
theorem Settles.congr {ob : Obligation} (settles : Settles oracle expand t o ob)
    (definitions : t'.definitions = t.definitions)
    (entry : t'.lookup? (.obligations o.kind) o.name = t.lookup? (.obligations o.kind) o.name) :
    Settles oracle expand t' o ob := by
  obtain ⟨plan, strategy, stored, shown, expanded, planned, found, working, recorded⟩ := settles
  refine ⟨plan, strategy, stored, shown, ?_, planned, ?_, ?_, recorded⟩
  · rwa [Plan.expand_congr definitions]
  · exact Theory.lookup?_obligations.mp (entry.trans (Theory.lookup?_obligations.mpr found))
  · rwa [Theory.working_congr definitions]

theorem verifyEntry_comm (apart : (o.kind, o.name) ≠ (p.kind, p.name))
    (first : verifyEntry oracle expand t o = .ok t₁)
    (second : verifyEntry oracle expand t₁ p = .ok t₂) :
    ∃ t', verifyEntry oracle expand t p = .ok t' ∧ verifyEntry oracle expand t' o = .ok t₂ := by
  obtain ⟨left, settled, rfl⟩ := verifyEntry_eq_ok.mp first
  obtain ⟨right, settled', rfl⟩ := verifyEntry_eq_ok.mp second
  have other : ¬(Registry.obligations p.kind = .obligations o.kind ∧ p.name = o.name) := by
    rintro ⟨kind, name⟩
    exact apart (Prod.ext (Registry.obligations.inj kind).symm name.symm)
  have early : Settles oracle expand t p right := by
    refine settled'.congr (t.definitions_setObligation o.kind o.name left).symm ?_
    exact ((t.sameBut_setObligation o.kind o.name left).entry _ _ other).symm
  have late : Settles oracle expand (t.setObligation p.kind p.name right) o left := by
    refine settled.congr (t.definitions_setObligation p.kind p.name right) ?_
    refine (t.sameBut_setObligation p.kind p.name right).entry _ _ fun same => other ?_
    exact ⟨same.1.symm, same.2.symm⟩
  exact ⟨_, verifyEntry_eq_ok.mpr ⟨right, early, rfl⟩,
    verifyEntry_eq_ok.mpr ⟨left, late, t.setObligation_comm apart left right⟩⟩

/-! ## Catalogs -/

theorem add_of_perm {α : Type} (f : α → Theory.Addition) {l l' : List α} (perm : l.Perm l')
    (apart : l.Pairwise fun a b => (f a).Apart (f b))
    (ran : l.foldlM (fun t a => t.add (f a)) t = .ok t') :
    l'.foldlM (fun t a => t.add (f a)) t = .ok t' :=
  foldlM_of_perm (fun (t : Theory) a => t.add (f a)) (fun a b => (f a).Apart (f b))
    (fun _ _ => Theory.Addition.Apart.symm)
    (fun _ _ _ _ _ different => Theory.add_comm different) perm apart ran

/-- No two axioms, no two definitions and no two obligations of a kind share a name. -/
structure Distinct (c : Catalog) : Prop where
  axioms : (c.axioms.map (·.name)).Nodup
  definitions : (c.definitions.map (·.name)).Nodup
  obligations : (c.obligations.map fun o => (o.kind, o.name)).Nodup

/-- The catalogs list the same entries. -/
structure Rearranges (c c' : Catalog) : Prop where
  axioms : c.axioms.Perm c'.axioms
  definitions : c.definitions.Perm c'.definitions
  obligations : c.obligations.Perm c'.obligations

variable {c c' : Catalog}

theorem register_of_perm (distinct : c.Distinct) (rearranges : c.Rearranges c')
    {duplicates : Duplicates} (ran : c.register duplicates = .ok t) :
    c'.register duplicates = .ok t := by
  obtain ⟨t₁, axioms, ran⟩ := bind_eq_ok ran
  obtain ⟨t₂, definitions, obligations⟩ := bind_eq_ok ran
  have axioms := add_of_perm (fun a : AxiomSpec => .assume a.name (Claim.parse a.statement))
    rearranges.axioms
    ((List.pairwise_map.mp distinct.axioms).imp fun different same => different same.2) axioms
  have definitions := add_of_perm (fun d : DefinitionSpec => .define d.name d.expression)
    rearranges.definitions
    ((List.pairwise_map.mp distinct.definitions).imp fun different same => different same.2)
    definitions
  have obligations := add_of_perm (fun o : ObligationSpec => .pose o.kind (obligationOf o))
    rearranges.obligations
    ((List.pairwise_map.mp distinct.obligations).imp fun different same =>
      different (Prod.ext (Registry.obligations.inj same.1) same.2)) obligations
  exact bind_of_ok axioms (bind_of_ok definitions obligations)

/-- The result of a run does not depend on the order of the entries: if a catalog
without two entries of one name is verified successfully, then so is every catalog
that lists the same axioms, definitions and obligations in another order, and the
theories are equal in every status, log and statement. -/
theorem verify_of_perm (oracle : Oracle) (policy : Policy) (distinct : c.Distinct)
    (rearranges : c.Rearranges c') (ran : c.verify oracle policy = .ok t) :
    c'.verify oracle policy = .ok t := by
  obtain ⟨registered, registers, ran⟩ := bind_eq_ok ran
  have registers := register_of_perm distinct rearranges (mapError_eq_ok.mp registers)
  have verified := foldlM_of_perm (verifyEntry oracle policy.expandDefinitions)
    (fun o p => (o.kind, o.name) ≠ (p.kind, p.name)) (fun _ _ => Ne.symm)
    (fun _ _ _ _ _ different => verifyEntry_comm different)
    rearranges.obligations (List.pairwise_map.mp distinct.obligations) ran
  exact bind_of_ok (mapError_eq_ok.mpr registers) verified

/-- A catalog whose definitions build on each other, with a lemma and a theorem of
one name. -/
def chained : Catalog where
  axioms := [⟨"unit", "x^0 = 1"⟩, ⟨"order", "numbers are ordered"⟩]
  definitions := [⟨"f", .symbol "x" + .one⟩, ⟨"g", .symbol "f" * .symbol "f"⟩]
  obligations := [
    ⟨"square", .supporting, "g", "x^2 + 2*x + 1", .simplification⟩,
    ⟨"square", .principal, "g is a square", "its slope is 2*f", .derivative (.symbol "g") "x"
      (.int 2 * .symbol "f")⟩,
    ⟨"apart", .principal, "f", "x", .contradiction "f = x"⟩]

/-- Its entries in the opposite order. -/
def chainedReversed : Catalog where
  axioms := chained.axioms.reverse
  definitions := chained.definitions.reverse
  obligations := chained.obligations.reverse

theorem verify_of_perm_chained : chained.Distinct ∧ chained.Rearranges chainedReversed ∧
    ∃ t, chained.verify (Oracle.exact {}) {} = .ok t ∧
      chainedReversed.verify (Oracle.exact {}) {} = .ok t := by
  have distinct : chained.Distinct := ⟨by decide, by decide, by decide⟩
  have rearranges : chained.Rearranges chainedReversed :=
    ⟨(List.reverse_perm _).symm, (List.reverse_perm _).symm, (List.reverse_perm _).symm⟩
  have succeeds : (chained.verify (Oracle.exact {}) {}).toOption.isSome = true := by
    decide +kernel
  obtain ⟨t, some⟩ := Option.isSome_iff_exists.mp succeeds
  have ran : chained.verify (Oracle.exact {}) {} = .ok t := by
    cases verified : chained.verify (Oracle.exact {}) {} with
    | error e =>
      rw [verified] at some
      cases some
    | ok t' =>
      rw [verified] at some
      cases some
      rfl
  exact ⟨distinct, rearranges, t, ran, verify_of_perm _ _ distinct rearranges ran⟩

end Catalog

end Discharge
