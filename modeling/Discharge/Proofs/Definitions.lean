import Mathlib.Data.List.Nodup
import Mathlib.Logic.Relation
import Discharge.Theory
import Discharge.Proofs.Ensures
import Discharge.Proofs.Substitution

/-! Expansion of definitions. A name has a height when the definitions cannot be
followed from it any longer than that; every round lowers the greatest height of
the names that occur, and a cycle is never left. Between the two lies a chain of
definitions that is longer than their number, and so repeats a name. -/

namespace Discharge.Theory

open Relation (ReflTransGen TransGen)

variable (t : Theory)

/-! ## References -/

/-- The definition of the first name mentions the second. -/
def Refers (s u : String) : Prop := ∃ v, t.definitions.find? s = some v ∧ u ∈ v.symbols

/-- The definitions lead from a free symbol of the expression to the name. -/
def Reaches (e : Expr) (u : String) : Prop := ∃ s ∈ e.symbols, ReflTransGen t.Refers s u

/-- The definitions lead from the name back to it. -/
def Cyclic (s : String) : Prop := TransGen t.Refers s s

/-- The definitions cannot be followed from the name for more than `n` steps. -/
def Height : Nat → String → Prop
  | 0, s => t.definitions.find? s = none
  | n + 1, s => ∀ u, t.Refers s u → Height n u

variable {t} {e v r : Expr} {s u : String} {n : Nat}

theorem Reaches.of_symbol (occurs : u ∈ e.symbols) : t.Reaches e u := ⟨u, occurs, .refl⟩

theorem Reaches.trans (reached : t.Reaches e s) (leads : ReflTransGen t.Refers s u) :
    t.Reaches e u := by
  obtain ⟨start, occurs, path⟩ := reached
  exact ⟨start, occurs, path.trans leads⟩

theorem eq_of_undefined (undefined : t.definitions.find? s = none)
    (leads : ReflTransGen t.Refers s u) : u = s := by
  rcases leads.cases_head with same | ⟨next, ⟨v, defined, -⟩, -⟩
  · exact same.symm
  · cases undefined.symm.trans defined

theorem Cyclic.defined (cyclic : t.Cyclic s) : t.definitions.find? s ≠ none := by
  intro undefined
  obtain ⟨next, ⟨v, defined, -⟩, -⟩ := TransGen.head'_iff.mp cyclic
  cases undefined.symm.trans defined

/-! ## One definition -/

theorem mem_pending : s ∈ t.pending e ↔ s ∈ e.symbols ∧ t.definitions.find? s ≠ none := by
  rw [pending, List.mem_filter, Table.contains, Option.isSome_iff_ne_none]

theorem pending_eq_nil (settled : t.pending e = []) (occurs : s ∈ e.symbols) :
    t.definitions.find? s = none := by
  by_contra defined
  have member := mem_pending.mpr ⟨occurs, defined⟩
  rw [settled] at member
  cases member

theorem putDefinition_of_defined (defined : t.definitions.find? s = some v) :
    t.putDefinition e s = e.substitute s v := by
  rw [putDefinition, defined]

/-- Putting in a definition leads nowhere else. -/
theorem Reaches.of_put (reached : t.Reaches (t.putDefinition e s) u) : t.Reaches e u := by
  cases found : t.definitions.find? s with
  | none => rwa [putDefinition, found] at reached
  | some v =>
    rw [putDefinition_of_defined found] at reached
    obtain ⟨start, occurs, path⟩ := reached
    rcases Expr.mem_symbols_substitute.mp occurs with ⟨occurs, -⟩ | ⟨occurs, inside⟩
    · exact ⟨start, occurs, path⟩
    · exact ⟨s, occurs, .head ⟨v, found, inside⟩ path⟩

/-- What is met before is met after, unless it is the name itself and not met
again in its definition. -/
theorem Reaches.put (reached : t.Reaches e u) (other : u ≠ s ∨ t.Cyclic u) :
    t.Reaches (t.putDefinition e s) u := by
  cases found : t.definitions.find? s with
  | none => rwa [putDefinition, found]
  | some v =>
    rw [putDefinition_of_defined found]
    obtain ⟨start, occurs, path⟩ := reached
    by_cases same : start = s
    · subst same
      have proper : TransGen t.Refers start u := by
        rcases Relation.reflTransGen_iff_eq_or_transGen.mp path with rfl | proper
        · exact other.resolve_left fun different => different rfl
        · exact proper
      obtain ⟨next, ⟨w, defined, inside⟩, rest⟩ := TransGen.head'_iff.mp proper
      cases found.symm.trans defined
      exact ⟨next, Expr.mem_symbols_substitute.mpr (.inr ⟨occurs, inside⟩), rest⟩
    · exact ⟨start, Expr.mem_symbols_substitute.mpr (.inl ⟨occurs, same⟩), path⟩

/-! ## Rounds -/

theorem Reaches.of_foldl {names : List String}
    (reached : t.Reaches (names.foldl t.putDefinition e) u) : t.Reaches e u := by
  induction names generalizing e with
  | nil => exact reached
  | cons s names ih => exact (ih reached).of_put

theorem Reaches.foldl {names : List String} (reached : t.Reaches e u)
    (other : u ∉ names ∨ t.Cyclic u) : t.Reaches (names.foldl t.putDefinition e) u := by
  induction names generalizing e with
  | nil => exact reached
  | cons s names ih =>
    have apart : u ≠ s ∨ t.Cyclic u :=
      other.imp_left fun absent same => absent (same ▸ List.mem_cons_self)
    exact ih (reached.put apart) (other.imp_left fun absent member =>
      absent (List.mem_cons_of_mem s member))

/-- Rounds meet the same undefined names and the same cycles. -/
theorem settle_reaches {looks : Nat} (settled : t.settle? looks e = some r) :
    (t.pending r = [] ∧ ∀ u, t.Reaches r u → t.Reaches e u) ∧
      ∀ u, t.Reaches e u → t.definitions.find? u = none ∨ t.Cyclic u → t.Reaches r u := by
  induction looks generalizing e with
  | zero => cases settled
  | succ looks ih =>
    rw [settle?] at settled
    split at settled
    · rename_i empty
      cases settled
      exact ⟨⟨List.isEmpty_iff.mp empty, fun u reached => reached⟩, fun u reached _ => reached⟩
    · obtain ⟨⟨empty, back⟩, forth⟩ := ih settled
      refine ⟨⟨empty, fun u reached => (back u reached).of_foldl⟩, fun u reached kind => ?_⟩
      refine forth u (reached.foldl (kind.imp_left fun undefined member => ?_)) kind
      exact (mem_pending.mp member).2 undefined

/-! ## Heights -/

theorem Height.succ (height : t.Height n s) : t.Height (n + 1) s := by
  induction n generalizing s with
  | zero =>
    rintro u ⟨v, defined, -⟩
    cases height.symm.trans defined
  | succ n ih => exact fun u refers => ih (height u refers)

/-- Putting in definitions, one after the other, leaves names of a smaller height
besides those that are still to come. -/
theorem foldl_height {names : List String}
    (each : ∀ s ∈ names, t.Height (n + 1) s)
    (all : ∀ u ∈ e.symbols, t.Height n u ∨ u ∈ names) :
    ∀ u ∈ (names.foldl t.putDefinition e).symbols, t.Height n u := by
  induction names generalizing e with
  | nil => exact fun u occurs => (all u occurs).resolve_right List.not_mem_nil
  | cons s names ih =>
    obtain ⟨head, tail⟩ := List.forall_mem_cons.mp each
    refine ih tail fun u occurs => ?_
    have before (occurs : u ∈ e.symbols) (different : u ≠ s) : t.Height n u ∨ u ∈ names :=
      (all u occurs).imp_right fun member => (List.mem_cons.mp member).resolve_left different
    cases found : t.definitions.find? s with
    | none =>
      rw [putDefinition, found] at occurs
      by_cases same : u = s
      · subst same
        refine .inl ?_
        cases n with
        | zero => exact found
        | succ n =>
          rintro w ⟨v, defined, -⟩
          cases found.symm.trans defined
      · exact before occurs same
    | some v =>
      rw [putDefinition_of_defined found] at occurs
      rcases Expr.mem_symbols_substitute.mp occurs with ⟨occurs, different⟩ | ⟨-, inside⟩
      · exact before occurs different
      · exact .inl (head u ⟨v, found, inside⟩)

theorem expandOnce_height (all : ∀ u ∈ e.symbols, t.Height (n + 1) u) :
    ∀ u ∈ (t.expandOnce e).symbols, t.Height n u := by
  refine foldl_height (fun s member => all s (mem_pending.mp member).1) fun u occurs => ?_
  by_cases defined : t.definitions.find? u = none
  · refine .inl ?_
    clear all
    induction n with
    | zero => exact defined
    | succ n ih => exact ih.succ
  · exact .inr (mem_pending.mpr ⟨occurs, defined⟩)

/-- An expression whose names have a height settles in as many rounds. -/
theorem settle_of_height (all : ∀ u ∈ e.symbols, t.Height n u) :
    ∃ r, t.settle? (n + 1) e = some r := by
  induction n generalizing e with
  | zero =>
    have empty : t.pending e = [] := List.eq_nil_iff_forall_not_mem.mpr fun s member =>
      (mem_pending.mp member).2 (all s (mem_pending.mp member).1)
    exact ⟨e, by rw [settle?, empty]; rfl⟩
  | succ n ih =>
    rw [settle?]
    split
    · exact ⟨e, rfl⟩
    · exact ih (expandOnce_height all)

/-- A name without a height starts a chain of more definitions than that. -/
theorem exists_chain (unbounded : ¬ t.Height n s) : ∃ names : List String,
    names.length = n ∧ (s :: names).IsChain t.Refers ∧
      ∀ u ∈ s :: names, t.definitions.find? u ≠ none := by
  induction n generalizing s with
  | zero => exact ⟨[], rfl, .singleton s, List.forall_mem_singleton.mpr unbounded⟩
  | succ n ih =>
    obtain ⟨next, refers, higher⟩ : ∃ u, t.Refers s u ∧ ¬ t.Height n u := by
      simpa [Height] using unbounded
    obtain ⟨names, length, chain, defined⟩ := ih higher
    obtain ⟨v, found, -⟩ := id refers
    refine ⟨next :: names, by rw [List.length_cons, length], chain.cons_cons refers, ?_⟩
    exact List.forall_mem_cons.mpr ⟨by simp [found], defined⟩

theorem mem_keys (defined : t.definitions.find? s ≠ none) : s ∈ t.definitions.keys := by
  rw [Table.keys, List.mem_map]
  by_contra absent
  refine defined (List.lookup_eq_none_iff.mpr fun entry member => ?_)
  exact bne_iff_ne.mpr fun same => absent ⟨entry, member, same.symm⟩

/-- A name that does not lead to a cycle has a height of the number of
definitions. -/
theorem height_of_acyclic (acyclic : ∀ u, ReflTransGen t.Refers s u → ¬ t.Cyclic u) :
    t.Height t.definitions.entries.length s := by
  by_contra unbounded
  obtain ⟨names, length, chain, defined⟩ := exists_chain unbounded
  have later : (s :: names).Pairwise (TransGen t.Refers) :=
    (chain.imp fun _ _ => TransGen.single).pairwise
  have met : ∀ u ∈ s :: names, ReflTransGen t.Refers s u := by
    refine List.forall_mem_cons.mpr ⟨.refl, fun u member => ?_⟩
    exact (List.rel_of_pairwise_cons later member).to_reflTransGen
  have distinct : (s :: names).Nodup := by
    refine List.Pairwise.imp_of_mem (fun first _ leads same => ?_) later
    exact acyclic _ (met _ first) (same ▸ leads)
  have fewer := (List.subperm_of_subset distinct fun u member =>
    mem_keys (defined u member)).length_le
  rw [List.length_cons, length, Table.keys, List.length_map] at fewer
  omega

/-! ## Values -/

/-- Undefined names have the values of the interpretation, and the defined names
that are met have the values of their definitions. -/
structure Respects (t : Theory) (e : Expr) {K : Type*} [Field K] (I : Interpretation K)
    (σ : String → K) : Prop where
  undefined : ∀ s, t.definitions.find? s = none → σ s = I.symbol s
  defined : ∀ s v, t.Reaches e s → t.definitions.find? s = some v →
    σ s = v.value (I.withSymbols σ)

section Value

variable {K : Type*} [Field K] {I : Interpretation K} {σ : String → K}

/-- Values of names after following definitions for `n` steps. -/
def unfolded (t : Theory) (I : Interpretation K) : Nat → String → K
  | 0, s => I.symbol s
  | n + 1, s =>
    match t.definitions.find? s with
    | some v => v.value (I.withSymbols (unfolded t I n))
    | none => I.symbol s

theorem unfolded_undefined (undefined : t.definitions.find? s = none) :
    t.unfolded I n s = I.symbol s := by
  cases n with
  | zero => rfl
  | succ n => rw [unfolded, undefined]

/-- No step changes the value of a name after its height. -/
theorem unfolded_succ (height : t.Height n s) : t.unfolded I (n + 1) s = t.unfolded I n s := by
  induction n generalizing s with
  | zero => rw [unfolded_undefined height, unfolded_undefined height]
  | succ n ih =>
    cases found : t.definitions.find? s with
    | none => rw [unfolded_undefined found, unfolded_undefined found]
    | some v =>
      rw [unfolded, unfolded, found]
      exact Expr.value_congr fun u inside => ih (height u ⟨v, found, inside⟩)

theorem exists_respects (height : ∀ s, t.Reaches e s → t.Height n s) (I : Interpretation K) :
    ∃ σ, t.Respects e I σ := by
  refine ⟨t.unfolded I n, fun s undefined => unfolded_undefined undefined, ?_⟩
  intro s v reached found
  rw [← unfolded_succ (height s reached), unfolded, found]

theorem foldl_value (respects : t.Respects e I σ) {names : List String}
    (each : ∀ s ∈ names, t.Reaches e s) (r : Expr) :
    (names.foldl t.putDefinition r).value (I.withSymbols σ) = r.value (I.withSymbols σ) := by
  induction names generalizing r with
  | nil => rfl
  | cons s names ih =>
    obtain ⟨head, tail⟩ := List.forall_mem_cons.mp each
    rw [List.foldl_cons, ih tail, putDefinition]
    split
    · rename_i v found
      exact Expr.value_substitute (respects.defined s v head found) r
    · rfl

theorem settle_value (respects : t.Respects e I σ) {looks : Nat} {x : Expr}
    (within : ∀ s, t.Reaches x s → t.Reaches e s) (settled : t.settle? looks x = some r) :
    r.value (I.withSymbols σ) = x.value (I.withSymbols σ) := by
  induction looks generalizing x with
  | zero => cases settled
  | succ looks ih =>
    rw [settle?] at settled
    split at settled
    · cases settled
      rfl
    · have each : ∀ s ∈ t.pending x, t.Reaches e s := fun s member =>
        within s (.of_symbol (mem_pending.mp member).1)
      exact (ih (fun s reached => within s reached.of_foldl) settled).trans
        (foldl_value respects each x)

end Value

/-! ## Expansion -/

theorem expand_eq_ok : t.expand e = .ok r ↔
    t.settle? (t.definitions.entries.length + 1) e = some r := by
  rw [expand]
  split <;> simp_all

theorem expand_eq_error {err : TheoryError} (failed : t.expand e = .error err) :
    err = .definitionCycle e := by
  rw [expand] at failed
  split at failed
  · cases failed
  · cases failed
    rfl

/-- The symbols left are the undefined names that are met. -/
theorem mem_symbols_of_settle {looks : Nat} (settled : t.settle? looks e = some r) :
    s ∈ r.symbols ↔ t.Reaches e s ∧ t.definitions.find? s = none := by
  obtain ⟨⟨empty, back⟩, forth⟩ := settle_reaches settled
  refine ⟨fun occurs => ⟨back s (.of_symbol occurs), pending_eq_nil empty occurs⟩, ?_⟩
  rintro ⟨reached, undefined⟩
  obtain ⟨start, occurs, path⟩ := forth s reached (.inl undefined)
  rwa [eq_of_undefined (pending_eq_nil empty occurs) path]

/-- What settles has met no cycle. -/
theorem acyclic_of_settle {looks : Nat} (settled : t.settle? looks e = some r)
    (reached : t.Reaches e s) : ¬ t.Cyclic s := by
  intro cyclic
  obtain ⟨⟨empty, -⟩, forth⟩ := settle_reaches settled
  obtain ⟨start, occurs, path⟩ := forth s reached (.inr cyclic)
  have undefined := pending_eq_nil empty occurs
  rw [eq_of_undefined undefined path] at cyclic
  exact cyclic.defined undefined

theorem height_of_reached (acyclic : ∀ s, t.Reaches e s → ¬ t.Cyclic s) (s : String)
    (reached : t.Reaches e s) : t.Height t.definitions.entries.length s :=
  height_of_acyclic fun u leads => acyclic u (reached.trans leads)

/-- Expanding an expression succeeds exactly if no cycle of definitions is met
from its symbols. The result has the undefined names that are met as its symbols,
and the value of the expression with every defined name for its definition; the
failure is reported as a cycle. -/
theorem expansion_exact (t : Theory) (e : Expr) :
    ((∃ r, t.expand e = .ok r) ↔ ∀ s, t.Reaches e s → ¬ t.Cyclic s) ∧
    (∀ r, t.expand e = .ok r →
      (∀ s ∈ r.symbols, t.definitions.contains s = false) ∧
      (∀ s, s ∈ r.symbols ↔ t.Reaches e s ∧ t.definitions.contains s = false) ∧
      ∀ (K : Type*) [Field K] (I : Interpretation K),
        (∃ σ, t.Respects e I σ) ∧
        ∀ σ, t.Respects e I σ → r.value I = e.value (I.withSymbols σ)) ∧
    ∀ err, t.expand e = .error err → err.diagnostic.code = "definition-cycle" := by
  have undefined_iff (s : String) :
      t.definitions.contains s = false ↔ t.definitions.find? s = none := by
    rw [Table.contains, Option.isSome_eq_false_iff, Option.isNone_iff_eq_none]
  refine ⟨⟨?_, fun acyclic => ?_⟩, fun r expanded => ?_, fun err failed => ?_⟩
  · rintro ⟨r, expanded⟩ s reached
    exact acyclic_of_settle (expand_eq_ok.mp expanded) reached
  · obtain ⟨r, settled⟩ := settle_of_height fun u occurs =>
      height_of_reached acyclic u (.of_symbol occurs)
    exact ⟨r, expand_eq_ok.mpr settled⟩
  · have settled := expand_eq_ok.mp expanded
    simp only [undefined_iff]
    refine ⟨fun s occurs => ((mem_symbols_of_settle settled).mp occurs).2,
      fun s => mem_symbols_of_settle settled, fun K _ I => ⟨?_, fun σ respects => ?_⟩⟩
    · exact exists_respects (height_of_reached fun s reached => acyclic_of_settle settled reached) I
    · have same : r.value I = r.value (I.withSymbols σ) := Expr.value_congr fun u occurs =>
        (respects.undefined u ((mem_symbols_of_settle settled).mp occurs).2).symm
      rw [same, settle_value respects (fun s reached => reached) settled]
  · rw [expand_eq_error failed]
    rfl

end Discharge.Theory
