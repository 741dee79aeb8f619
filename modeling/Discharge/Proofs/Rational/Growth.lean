import Discharge.Proofs.Rational.Limit

/-! Dominant terms of polynomials in symbols. The terms with one exponent of the
variable form a group, and the groups are ordered by that exponent, so that no
two of them grow equally fast. Cleared of negative powers of the variable, the
polynomial has the group of the greatest exponent as its leading term. -/

namespace Discharge

namespace Limit

open RationalFunction

variable {x : String} {m : Monomial} {fs : List (Atom × Int)} {ts : List (Monomial × Rat)}
  {p : Poly} {g h : Group} {gs : List Group}

/-! ## Powers of the variable -/

/-- The growth of a power of the variable. -/
def Growth.power (n : Int) : Growth := Growth.flat.addDegree n

theorem factorsGrowth_symbols (growth : Growth) (increasing : Monomial.Increasing fs)
    (each : ∀ f ∈ fs, valuation.AdmitsFactor f) :
    factorsGrowth x growth fs =
      .ok (growth.addDegree (Monomial.exponentIn fs (.symbol x) : Int)) := by
  induction fs generalizing growth with
  | nil => simp [factorsGrowth, Growth.addDegree]
  | cons f fs ih =>
    obtain ⟨a, n⟩ := f
    obtain ⟨behind, rest⟩ := Monomial.increasing_cons.mp increasing
    obtain ⟨head, tail⟩ := List.forall_mem_cons.mp each
    obtain ⟨s, rfl⟩ := head.known
    rw [factorsGrowth, Monomial.exponentIn_cons]
    by_cases own : s = x
    · subst own
      have alone := Monomial.exponentIn_of_behind behind
      rw [if_pos rfl, if_pos (by simp [Atom.mentions]), atomGrowth, if_pos rfl]
      simp only [bind, Except.bind]
      rw [ih _ rest tail, alone]
      simp [Growth.addDegree]
    · have other : Atom.symbol x ≠ .symbol s := fun same => own (Atom.symbol.inj same).symm
      rw [if_neg other, if_neg (by simpa [Atom.mentions] using own), ih _ rest tail]

/-- Without the power of the variable. -/
theorem factors_free (increasing : Monomial.Increasing fs)
    (each : ∀ f ∈ fs, valuation.AdmitsFactor f) :
    fs.filter (fun f => f.1.mentions x) =
        (Monomial.ofAtom (.symbol x) (Monomial.exponentIn fs (.symbol x))).factors ∧
      (along x).factors (fs.filter fun f => !f.1.mentions x) *
        RatFunc.X ^ Monomial.exponentIn fs (.symbol x) = (along x).factors fs := by
  induction fs with
  | nil => simp [Monomial.ofAtom]
  | cons f fs ih =>
    obtain ⟨a, n⟩ := f
    obtain ⟨behind, rest⟩ := Monomial.increasing_cons.mp increasing
    obtain ⟨head, tail⟩ := List.forall_mem_cons.mp each
    obtain ⟨power, value⟩ := ih rest tail
    obtain ⟨s, rfl⟩ := head.known
    rw [Monomial.exponentIn_cons, Valuation.factors_cons, List.filter_cons, List.filter_cons]
    by_cases own : s = x
    · subst own
      have alone := Monomial.exponentIn_of_behind behind
      rw [alone] at power value
      have nonzero : n ≠ 0 := head.nonzero
      have variable_value : intPower ((along s).atom (.symbol s)) n = RatFunc.X ^ n := by
        rw [intPower_eq_zpow, ← RatFunc.algebraMap_X, ← symbolIn_self]
        rfl
      simp only [Atom.mentions, beq_self_eq_true, Bool.not_true, if_true, power]
      simp [Monomial.ofAtom, nonzero, variable_value, ← value, mul_comm]
    · have other : Atom.symbol x ≠ .symbol s := fun same => own (Atom.symbol.inj same).symm
      simp [Atom.mentions, own, other, mul_assoc, value, power]

/-! ## Groups -/

/-- The exponent of the variable in the key of a group. -/
def Group.degree (x : String) (g : Group) : Int := g.key.count (.symbol x)

/-- The terms with one exponent of the variable. -/
def slice (x : String) (ts : List (Monomial × Rat)) (n : Int) : List (Monomial × Rat) :=
  ts.filter fun t => t.1.count (.symbol x) = n

/-- The group of the terms with one exponent of the variable. -/
structure Slice (x : String) (ts : List (Monomial × Rat)) (g : Group) : Prop where
  key : g.key = .ofAtom (.symbol x) (g.degree x)
  growth : g.growth = .ok (.power (g.degree x))
  admitted : valuation.AdmitsPoly g.coefficient
  value : (along x).poly g.coefficient * RatFunc.X ^ g.degree x =
    (along x).terms (slice x ts (g.degree x))
  occupied : ∃ t ∈ ts, t.1.count (.symbol x) = g.degree x

/-- The group of one term. -/
def groupOf (x : String) : Monomial × Rat → Group
  | (⟨fs, e⟩, c) =>
    let (dependent, free) := (Monomial.mk fs e).split x
    ⟨dependent, .term free c, do factorsGrowth x (← exponentialGrowth x dependent.exp) fs⟩

theorem groups_eq_map (x : String) (ts : List (Monomial × Rat)) :
    groups x ts = ts.map (groupOf x) := by
  induction ts with
  | nil => rw [groups, List.map_nil]
  | cons t ts ih =>
    obtain ⟨⟨fs, e⟩, c⟩ := t
    rw [groups, ih, List.map_cons]
    rfl

theorem slice_groupOf (admitted : valuation.Admits m) (c : Rat) :
    Slice x [(m, c)] (groupOf x (m, c)) ∧ (groupOf x (m, c)).degree x = m.count (.symbol x) := by
  obtain ⟨fs, e⟩ := m
  obtain rfl : e = .zero := exp_eq_zero admitted
  obtain ⟨power, value⟩ := factors_free (x := x) admitted.increasing admitted.factor
  have key : (groupOf x (⟨fs, .zero⟩, c)).key =
      .ofAtom (.symbol x) (Monomial.exponentIn fs (.symbol x)) := by
    rw [groupOf, Monomial.split, List.partition_eq_filter_filter]
    exact congrArg (Monomial.mk · .zero) power
  have degree : (groupOf x (⟨fs, .zero⟩, c)).degree x = Monomial.exponentIn fs (.symbol x) := by
    rw [Group.degree, key, count_ofAtom]
  have coefficient : (groupOf x (⟨fs, .zero⟩, c)).coefficient =
      .term ⟨fs.filter fun f => !f.1.mentions x, .zero⟩ c := by
    rw [groupOf, Monomial.split, List.partition_eq_filter_filter]
    rfl
  have free : valuation.Admits ⟨fs.filter fun f => !f.1.mentions x, .zero⟩ :=
    ⟨admitted.increasing.filter _,
      fun f member => admitted.factor f (List.mem_of_mem_filter member),
      admitted.exponent, admitted.turning, admitted.inner⟩
  refine ⟨⟨by rw [degree, key], ?_, ?_, ?_, ?_⟩, by rw [degree, Monomial.count_eq]⟩
  · rw [degree]
    have flat : exponentialGrowth x .zero = .ok .flat := rfl
    exact factorsGrowth_symbols .flat admitted.increasing admitted.factor
  · rw [coefficient]
    exact .term free c
  · rw [degree, coefficient, slice, List.filter_singleton, Monomial.count_eq]
    simp only [Valuation.poly_term, Valuation.monomial_eq, decide_true, cond_true,
      Valuation.terms_cons, Valuation.terms_nil, add_zero, ← value]
    ring
  · exact ⟨_, List.mem_singleton_self _, by rw [degree, Monomial.count_eq]⟩

/-! ## Insertion -/

/-- The keys increase. -/
def Increasing (gs : List Group) : Prop :=
  gs.Pairwise fun g h => Monomial.compare g.key h.key = .lt

/-- The keys are those of the groups before, and that of the new group. -/
theorem keys_insertGroup (g : Group) (gs : List Group) (k : Monomial) :
    (∃ h ∈ insertGroup g gs, h.key = k) ↔ g.key = k ∨ ∃ h ∈ gs, h.key = k := by
  induction gs with
  | nil => simp [insertGroup]
  | cons h hs ih =>
    rw [insertGroup]
    cases order : Monomial.compare g.key h.key with
    | lt => simp
    | eq =>
      have same := (Monomial.compare_eq_iff _ _).mp order
      simp [same]
    | gt =>
      rw [List.exists_mem_cons_iff, List.exists_mem_cons_iff, ih]
      exact or_left_comm

theorem increasing_insertGroup (increasing : Increasing gs) : Increasing (insertGroup g gs) := by
  induction gs with
  | nil => simp [insertGroup, Increasing]
  | cons h hs ih =>
    obtain ⟨after, rest⟩ := List.pairwise_cons.mp increasing
    rw [insertGroup]
    cases order : Monomial.compare g.key h.key with
    | lt =>
      refine List.pairwise_cons.mpr ⟨?_, increasing⟩
      rintro k (_ | ⟨_, member⟩)
      · exact order
      · exact Monomial.compare_lt_trans _ _ _ order (after k member)
    | eq => exact List.pairwise_cons.mpr ⟨after, rest⟩
    | gt =>
      refine List.pairwise_cons.mpr ⟨fun k member => ?_, ih rest⟩
      rcases (keys_insertGroup g hs k.key).mp ⟨k, member, rfl⟩ with same | ⟨l, inside, same⟩
      · rw [← same]
        exact Monomial.compare_gt_iff.mp order
      · rw [← same]
        exact after l inside

/-- A group stays, is the new one, or takes up the new coefficient. -/
theorem mem_insertGroup (increasing : Increasing gs) (member : h ∈ insertGroup g gs) :
    h ∈ gs ∧ h.key ≠ g.key ∨ h = g ∧ (∀ k ∈ gs, k.key ≠ g.key) ∨
      ∃ k ∈ gs, k.key = g.key ∧ h = { k with coefficient := k.coefficient.add g.coefficient } := by
  induction gs with
  | nil => exact .inr (.inl ⟨List.mem_singleton.mp member, by simp⟩)
  | cons l ls ih =>
    obtain ⟨after, rest⟩ := List.pairwise_cons.mp increasing
    have distinct : ∀ {k o : Monomial}, Monomial.compare k o = .lt → o ≠ k := by
      rintro k _ less rfl
      rw [(Monomial.compare_eq_iff _ _).mpr rfl] at less
      cases less
    rw [insertGroup] at member
    cases order : Monomial.compare g.key l.key with
    | lt =>
      have later : ∀ k ∈ l :: ls, k.key ≠ g.key := by
        rintro k (_ | ⟨_, inside⟩)
        · exact distinct order
        · exact distinct (Monomial.compare_lt_trans _ _ _ order (after k inside))
      rw [order] at member
      rcases List.mem_cons.mp member with rfl | inside
      · exact .inr (.inl ⟨rfl, later⟩)
      · exact .inl ⟨inside, later h inside⟩
    | eq =>
      have same := (Monomial.compare_eq_iff _ _).mp order
      rw [order] at member
      rcases List.mem_cons.mp member with rfl | inside
      · exact .inr (.inr ⟨l, List.mem_cons_self, same.symm, rfl⟩)
      · exact .inl ⟨List.mem_cons_of_mem _ inside, same ▸ distinct (after h inside)⟩
    | gt =>
      have earlier := (distinct (Monomial.compare_gt_iff.mp order)).symm
      rw [order] at member
      rcases List.mem_cons.mp member with rfl | inside
      · exact .inl ⟨List.mem_cons_self, earlier⟩
      · rcases ih rest inside with ⟨before, other⟩ | ⟨new, other⟩ | ⟨k, before, same, joined⟩
        · exact .inl ⟨List.mem_cons_of_mem _ before, other⟩
        · exact .inr (.inl ⟨new, List.forall_mem_cons.mpr ⟨earlier, other⟩⟩)
        · exact .inr (.inr ⟨k, List.mem_cons_of_mem _ before, same, joined⟩)

/-- The groups of a list of terms. -/
structure Grouped (x : String) (ts : List (Monomial × Rat)) (gs : List Group) : Prop where
  increasing : Increasing gs
  slices : ∀ g ∈ gs, Slice x ts g
  covered : ∀ t ∈ ts, ∃ g ∈ gs, g.key = .ofAtom (.symbol x) (t.1.count (.symbol x))

theorem slice_append (x : String) (ts us : List (Monomial × Rat)) (n : Int) :
    slice x (ts ++ us) n = slice x ts n ++ slice x us n := List.filter_append ts us

theorem slice_eq_nil {n : Int} (absent : ∀ t ∈ ts, t.1.count (.symbol x) ≠ n) :
    slice x ts n = [] := by
  rw [slice, List.filter_eq_nil_iff]
  exact fun t member => by simpa using absent t member

theorem terms_append (ts us : List (Monomial × Rat)) :
    (along x).terms (ts ++ us) = (along x).terms ts + (along x).terms us := by
  induction ts with
  | nil => simp
  | cons t ts ih => rw [List.cons_append, Valuation.terms_cons, Valuation.terms_cons, ih, add_assoc]

/-- One more term joins the group of its exponent. -/
theorem Grouped.insert (grouped : Grouped x ts gs) (admitted : valuation.Admits m) (c : Rat) :
    Grouped x (ts ++ [(m, c)]) (insertGroup (groupOf x (m, c)) gs) := by
  obtain ⟨single, degree⟩ := slice_groupOf (x := x) admitted c
  have key := single.key
  generalize groupOf x (m, c) = g at single degree key
  rw [degree] at key
  refine ⟨increasing_insertGroup grouped.increasing, fun h member => ?_, fun t member => ?_⟩
  · have apart : ∀ k : Group, k.degree x ≠ m.count (.symbol x) →
        slice x [(m, c)] (k.degree x) = [] :=
      fun k other => slice_eq_nil fun t inside => by
        rw [List.mem_singleton.mp inside]
        exact other.symm
    rcases mem_insertGroup grouped.increasing member with
      ⟨before, other⟩ | ⟨rfl, fresh⟩ | ⟨k, before, same, rfl⟩
    · have old := grouped.slices h before
      have different : h.degree x ≠ m.count (.symbol x) := fun equal =>
        other (by rw [old.key, key, equal])
      obtain ⟨t, inside, count⟩ := old.occupied
      refine ⟨old.key, old.growth, old.admitted, ?_, t, List.mem_append_left _ inside, count⟩
      rw [slice_append, apart h different, List.append_nil, old.value]
    · obtain ⟨t, inside, count⟩ := single.occupied
      refine ⟨single.key, single.growth, single.admitted, ?_, t, List.mem_append_right _ inside,
        count⟩
      have empty : slice x ts (h.degree x) = [] := by
        refine slice_eq_nil fun t inside equal => ?_
        obtain ⟨k, known, covered⟩ := grouped.covered t inside
        exact fresh k known (by rw [covered, single.key, equal])
      rw [slice_append, empty, List.nil_append, single.value]
    · have old := grouped.slices k before
      have equal : k.degree x = g.degree x := congrArg (Monomial.count · (.symbol x)) same
      obtain ⟨t, inside, count⟩ := old.occupied
      refine ⟨old.key, old.growth, old.admitted.add single.admitted, ?_, t,
        List.mem_append_left _ inside, count⟩
      change (along x).poly (k.coefficient.add g.coefficient) * RatFunc.X ^ k.degree x =
        (along x).terms (slice x (ts ++ [(m, c)]) (k.degree x))
      rw [slice_append, terms_append, Valuation.poly_add, add_mul, old.value, equal, single.value]
  · rw [keys_insertGroup]
    rcases List.mem_append.mp member with inside | last
    · exact .inr (grouped.covered t inside)
    · rw [List.mem_singleton.mp last]
      exact .inl key

/-- A group that grows as the power of the variable in its key. -/
def Group.dominant (x : String) (g : Group) : Dominant :=
  ⟨g.key, g.coefficient, .power (g.degree x)⟩

end Limit

end Discharge
