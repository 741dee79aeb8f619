import Discharge.Proofs.Rational.Infinity
import Discharge.Proofs.Rational.Verification
import Discharge.Proofs.Text.Names
import Discharge.Proofs.Text.Rereading

/-! Rational expressions that are written and read again. An expression that denotes
a rational function is read back as one that denotes the same, since a divisor is
only written for a base that is not zero. The test for a contradiction decides by
the difference of the sides, so it answers alike before and after. -/

namespace Discharge

namespace Expr

variable {a b e : Expr} {f g : RationalFunction}

/-! ## Arithmetic of trees -/

theorem denote_neg (denotes : e.denote = some f) : (-e).denote = some (-f) := by
  have product : (int (-1) * e).denote = some (-f) := by
    have opposite := denote_mul (denote_number (-1 : ℤ)) denotes
    simpa [int] using opposite
  cases e with
  | number q =>
    cases (denote_number q).symm.trans denotes
    rw [← map_neg]
    exact denote_number (-q)
  | _ => exact product

theorem denote_times (left : a.denote = some f) (right : b.denote = some g) :
    (Parser.times a b).denote = some (f * g) := by
  unfold Parser.times
  split
  · cases (denote_number _).symm.trans left
    cases (denote_number _).symm.trans right
    rw [denote_number, map_mul]
  · exact denote_mul left right

theorem denote_over (left : a.denote = some f) (right : b.denote = some g) (nonzero : g ≠ 0) :
    ∃ e, Parser.over? a b = some e ∧ e.denote = some (f / g) := by
  have proper : b.isLiteralZero = false := by
    rw [← Bool.not_eq_true, isLiteralZero_iff]
    rintro rfl
    cases (denote_number 0).symm.trans right
    exact nonzero (map_zero _)
  unfold Parser.over?
  rw [proper]
  split
  · contradiction
  split
  · cases (denote_number _).symm.trans left
    cases (denote_number _).symm.trans right
    exact ⟨_, rfl, by rw [denote_number, map_div₀]⟩
  · refine ⟨_, rfl, ?_⟩
    have inverse := denote_power_of_ne_zero right nonzero (-1)
    rw [div_eq_mul_inv, ← zpow_neg_one]
    exact denote_mul left inverse

end Expr

namespace RationalFunction

open Discharge.Parser (Named named_closed named_power named_iff)

variable {p p' : Phrase} {ps : List Phrase} {s : Summand} {ss : List Summand} {parts : List Part}
  {f g : RationalFunction} {fs : List RationalFunction} {e : Expr}

/-! ## Phrases -/

/-- The phrase builds an expression that denotes `f`. -/
def Shows (p : Phrase) (f : RationalFunction) : Prop := ∃ e, p.expr? = some e ∧ e.denote = some f

/-- The phrase shows `f`, and behind a minus sign the opposite. -/
structure ShowsSigned (p : Phrase) (f : RationalFunction) : Prop where
  plain : Shows p f
  signed : Shows p.signed (-f)

/-- The term shows `f`, at the start of a sum and behind other terms. -/
def ShowsTerm (s : Summand) (f : RationalFunction) : Prop :=
  ∃ g, ShowsSigned s.body g ∧ f = if s.negative then -g else g

/-- The part of a product shows `f`. -/
inductive ShowsPart : Part → RationalFunction → Prop
  | literal (q : ℚ) : ShowsPart (.literal q) (algebraMap ℚ RationalFunction q)
  | above {p : Phrase} {f : RationalFunction} : ShowsSigned p f → ShowsPart (.above p) f
  | below {p : Phrase} {f : RationalFunction} : ShowsSigned p f → f ≠ 0 → ShowsPart (.below p) f⁻¹

theorem Shows.negative (shows' : Shows p f) : Shows (.negative p) (-f) := by
  obtain ⟨e, built, denotes⟩ := shows'
  exact ⟨-e, by rw [Phrase.expr?, built, Option.map_some], Expr.denote_neg denotes⟩

theorem Shows.signed (shows' : Shows p f) (operand : p.signed = .negative p) : ShowsSigned p f :=
  ⟨shows', operand ▸ shows'.negative⟩

theorem Shows.times (left : Shows p f) (right : Shows p' g) : Shows (.times p p') (f * g) := by
  obtain ⟨a, first, denotes⟩ := left
  obtain ⟨b, second, denotes'⟩ := right
  exact ⟨_, by rw [Phrase.expr?, first, second]; rfl, Expr.denote_times denotes denotes'⟩

theorem Shows.quotient (left : Shows p f) (right : Shows p' g) (nonzero : g ≠ 0) :
    Shows (.quotient p p') (f / g) := by
  obtain ⟨a, first, denotes⟩ := left
  obtain ⟨b, second, denotes'⟩ := right
  obtain ⟨e, quotient, denotes⟩ := Expr.denote_over denotes denotes' nonzero
  exact ⟨e, by rw [Phrase.expr?, first, second]; exact quotient, denotes⟩

theorem ShowsSigned.number (q : ℚ) : ShowsSigned (.number q) (algebraMap ℚ RationalFunction q) :=
  Shows.signed ⟨.number q, rfl, Expr.denote_number q⟩ rfl

theorem ShowsSigned.times (left : ShowsSigned p f) (right : Shows p' g) :
    ShowsSigned (.times p p') (f * g) :=
  ⟨left.plain.times right, neg_mul f g ▸ left.signed.times right⟩

theorem ShowsSigned.quotient (left : ShowsSigned p f) (right : Shows p' g) (nonzero : g ≠ 0) :
    ShowsSigned (.quotient p p') (f / g) :=
  ⟨left.plain.quotient right nonzero, neg_div g f ▸ left.signed.quotient right nonzero⟩

theorem ShowsSigned.group (shows' : Shows p f) : ShowsSigned (.group p) f :=
  Shows.signed shows' rfl

theorem showsTerm_literal (q : ℚ) :
    ShowsTerm ⟨decide (q < 0), .ofRat q⟩ (algebraMap ℚ RationalFunction q) := by
  have builds := Parser.builds_ofRat q
  refine ⟨algebraMap ℚ RationalFunction |q|, ⟨⟨_, builds.plain, Expr.denote_number _⟩,
    ⟨_, builds.signed, ?_⟩⟩, ?_⟩
  · rw [Expr.denote_number, map_neg]
  · by_cases negative : q < 0
    · simp [negative, abs_of_neg negative]
    · simp [negative, abs_of_nonneg (not_lt.mp negative)]

/-- A power with a natural number as exponent. -/
theorem ShowsSigned.raised (base : ShowsSigned p f) (n : ℕ) :
    ShowsSigned (p.raised n) (f ^ n) := by
  have power {w : Phrase} (exponent : w.expr? = some (.number n)) :
      ShowsSigned (.power p w) (f ^ n) := by
    obtain ⟨e, built, denotes⟩ := base.plain
    refine Shows.signed ⟨.power e (.int n), ?_, ?_⟩ rfl
    · rw [Phrase.expr?, built, exponent]
      simp [Expr.int]
    · rw [Expr.denote_power, denotes, Option.bind_some, integerPower_eq_some]
      exact ⟨fun impossible => by omega, zpow_natCast f n⟩
  unfold Phrase.raised
  split
  · rename_i one
    obtain rfl : n = 1 := by exact_mod_cast one
    rwa [pow_one]
  split
  · exact power rfl
  · exact power (Parser.built_literal _).1

/-! ## Products -/

theorem showsSigned_factors (each : List.Forall₂ ShowsSigned ps fs) :
    ShowsSigned (.factors ps) fs.prod := by
  cases each with
  | nil =>
    have one := ShowsSigned.number 1
    rwa [map_one] at one
  | @cons p f ps fs first others =>
    rw [List.prod_cons]
    change ShowsSigned (ps.foldl .times p) _
    induction others generalizing p f with
    | nil => simpa using first
    | @cons p' g ps fs next _ ih =>
      rw [List.prod_cons, ← mul_assoc]
      exact ih (first.times next.plain)

theorem showsSigned_numerals (n : ℕ) (each : List.Forall₂ ShowsSigned ps fs) :
    ShowsSigned (.numerals n ps) (n * fs.prod) := by
  unfold Phrase.numerals
  split
  · rename_i plain
    rw [plain.1, Nat.cast_one, one_mul]
    exact showsSigned_factors each
  · have number := ShowsSigned.number n
    rw [map_natCast] at number
    simpa using showsSigned_factors (.cons number each)

theorem showsSigned_divided (top : ShowsSigned p f) (each : List.Forall₂ ShowsSigned ps fs)
    (regular : ∀ g ∈ fs, g ≠ 0) : ShowsSigned (.divided p ps) (f / fs.prod) := by
  have nonzero : fs.prod ≠ 0 := fun zero => regular 0 (List.prod_eq_zero_iff.mp zero) rfl
  match each with
  | .nil => simpa [Phrase.divided] using top
  | .cons divisor .nil =>
    simpa [Phrase.divided] using top.quotient divisor.plain (by simpa using nonzero)
  | .cons first (.cons second others) =>
    have product :=
      ShowsSigned.group (showsSigned_factors (.cons first (.cons second others))).plain
    exact top.quotient product.plain nonzero

/-- The factors and the divisors of a product. -/
theorem exists_columns (each : List.Forall₂ ShowsPart parts fs) :
    ∃ tops bottoms, List.Forall₂ ShowsSigned (parts.filterMap Part.above?) tops ∧
      List.Forall₂ ShowsSigned (parts.filterMap Part.below?) bottoms ∧ (∀ g ∈ bottoms, g ≠ 0) ∧
      fs.prod = algebraMap ℚ RationalFunction (parts.map Part.factor).prod * tops.prod /
        bottoms.prod := by
  induction each with
  | nil => exact ⟨[], [], .nil, .nil, List.forall_mem_nil _, by simp⟩
  | @cons part f parts fs first _ ih =>
    obtain ⟨tops, bottoms, above, below, regular, value⟩ := ih
    rw [List.prod_cons, value, List.map_cons, List.prod_cons, map_mul]
    cases first with
    | literal q =>
      refine ⟨tops, bottoms, above, below, regular, ?_⟩
      rw [Part.factor]
      ring
    | @above p f shows' =>
      refine ⟨f :: tops, bottoms, .cons shows' above, below, regular, ?_⟩
      rw [Part.factor, List.prod_cons, map_one]
      ring
    | @below p f shows' nonzero =>
      refine ⟨tops, f :: bottoms, above, .cons shows' below,
        List.forall_mem_cons.mpr ⟨nonzero, regular⟩, ?_⟩
      rw [Part.factor, List.prod_cons, map_one]
      field_simp

/-- A rational as it is written: its sign, its numerator and its denominator. -/
theorem algebraMap_eq_div (c : ℚ) : algebraMap ℚ RationalFunction c =
    (if c < 0 then -(c.num.natAbs : RationalFunction) else c.num.natAbs) / c.den := by
  have quotient : (c : RationalFunction) = c.num / c.den := by
    rw [← Rat.cast_intCast, ← Rat.cast_natCast, ← Rat.cast_div, Rat.num_div_den]
  rw [eq_ratCast, quotient, Nat.cast_natAbs]
  split
  · rename_i negative
    rw [abs_of_neg (Rat.num_neg.mpr negative), Int.cast_neg, neg_neg]
  · rename_i nonneg
    rw [abs_of_nonneg (Rat.num_nonneg.mpr (not_lt.mp nonneg))]

theorem showsTerm_joined (each : List.Forall₂ ShowsPart parts fs) :
    ShowsTerm (Phrase.joined parts) fs.prod := by
  obtain ⟨tops, bottoms, above, below, regular, value⟩ := exists_columns each
  rw [value, Phrase.joined]
  generalize (parts.map Part.factor).prod = c
  split
  · rename_i zero
    refine ⟨0, by simpa using ShowsSigned.number 0, ?_⟩
    simp [zero]
  · have divisors : ∃ gs : List RationalFunction, List.Forall₂ ShowsSigned
        (if c.den = 1 then parts.filterMap Part.below?
          else .number c.den :: parts.filterMap Part.below?) gs ∧
        (∀ g ∈ gs, g ≠ 0) ∧ gs.prod = c.den * bottoms.prod := by
      split
      · rename_i whole
        exact ⟨bottoms, below, regular, by simp [whole]⟩
      · have number := ShowsSigned.number c.den
        rw [map_natCast] at number
        have nonzero : (c.den : RationalFunction) ≠ 0 := by exact_mod_cast c.den_nz
        exact ⟨c.den :: bottoms, .cons number below, List.forall_mem_cons.mpr ⟨nonzero, regular⟩,
          List.prod_cons⟩
    obtain ⟨gs, shown, regular, product⟩ := divisors
    refine ⟨_, showsSigned_divided (showsSigned_numerals c.num.natAbs above) shown regular, ?_⟩
    rw [algebraMap_eq_div, product]
    by_cases negative : c < 0
    · simp only [negative, decide_true, if_true]
      ring
    · simp only [negative, decide_false, if_false, Bool.false_eq_true]
      ring

/-! ## Sums and expressions -/

theorem ShowsTerm.lead (shows' : ShowsTerm s f) : Shows s.lead f := by
  obtain ⟨g, body, rfl⟩ := shows'
  unfold Summand.lead
  split
  · exact body.signed
  · exact body.plain

theorem ShowsTerm.behind (first : Shows p g) (shows' : ShowsTerm s f) :
    Shows (Summand.behind p s) (g + f) := by
  obtain ⟨h, body, rfl⟩ := shows'
  obtain ⟨a, built, denotes⟩ := first
  obtain ⟨b, built', denotes'⟩ := body.plain
  unfold Summand.behind
  split
  · exact ⟨a - b, by rw [Phrase.expr?, built, built']; rfl,
      Expr.denote_add denotes (Expr.denote_neg denotes')⟩
  · exact ⟨a + b, by rw [Phrase.expr?, built, built']; rfl, Expr.denote_add denotes denotes'⟩

theorem shows_join (each : List.Forall₂ ShowsTerm ss fs) : Shows (Summand.join ss) fs.sum := by
  cases each with
  | nil => exact ⟨.number 0, rfl, by simp⟩
  | @cons s f ss fs first others =>
    have start := first.lead
    rw [List.sum_cons]
    change Shows (ss.foldl Summand.behind s.lead) _
    generalize s.lead = p at start
    clear first
    induction others generalizing p f with
    | nil => simpa using start
    | cons next _ ih =>
      rw [List.sum_cons, ← add_assoc]
      exact ih _ (next.behind start)

/-- What is written for the expression shows `f`. -/
structure ShowsExpr (e : Expr) (f : RationalFunction) : Prop where
  terms : ∃ fs, List.Forall₂ ShowsTerm e.shown fs ∧ fs.sum = f
  part : ShowsPart e.part f

theorem shows_phrase (terms : ∃ fs, List.Forall₂ ShowsTerm e.shown fs ∧ fs.sum = f) :
    Shows e.phrase f := by
  obtain ⟨fs, each, rfl⟩ := terms
  exact shows_join each

theorem showsSigned_operand (terms : ∃ fs, List.Forall₂ ShowsTerm e.shown fs ∧ fs.sum = f) :
    ShowsSigned e.operand f := by
  refine Shows.signed ?_ (Parser.operand_signed e)
  have phrase := shows_phrase terms
  unfold Expr.operand Phrase.grouped
  split
  · exact phrase
  · exact phrase

/-- Names and compound expressions are factors as they are operands. -/
theorem showsExpr_of_terms (terms : ∃ fs, List.Forall₂ ShowsTerm e.shown fs ∧ fs.sum = f)
    (part : e.part = .above e.operand) : ShowsExpr e f :=
  ⟨terms, part ▸ .above (showsSigned_operand terms)⟩

theorem showsExpr_single (shown : e.shown = [s]) (term : ShowsTerm s f)
    (part : e.part = .above e.operand) : ShowsExpr e f :=
  showsExpr_of_terms ⟨[f], shown ▸ .cons term .nil, List.sum_singleton⟩ part

theorem showsExpr_all {xs : List Expr} (each : ∀ x ∈ xs, ∀ f, x.denote = some f → ShowsExpr x f)
    (denotes : Expr.denoteAll xs = some fs) : List.Forall₂ ShowsExpr xs fs := by
  induction xs generalizing fs with
  | nil =>
    cases Expr.denoteAll_nil.symm.trans denotes
    exact .nil
  | cons x xs ih =>
    obtain ⟨f, gs, head, tail, rfl⟩ := Expr.denoteAll_cons_eq_some.mp denotes
    obtain ⟨first, others⟩ := List.forall_mem_cons.mp each
    exact .cons (first f head) (ih others tail)

theorem exists_terms {xs : List Expr} (each : List.Forall₂ ShowsExpr xs fs) :
    ∃ gs, List.Forall₂ ShowsTerm (xs.flatMap Expr.shown) gs ∧ gs.sum = fs.sum := by
  induction each with
  | nil => exact ⟨[], .nil, rfl⟩
  | cons first _ ih =>
    obtain ⟨hs, head, rfl⟩ := first.terms
    obtain ⟨gs, tail, sum⟩ := ih
    exact ⟨hs ++ gs, List.rel_append head tail, by rw [List.sum_append, sum, List.sum_cons]⟩

theorem showsExpr_power {b : Expr} {x : RationalFunction} (base : ShowsSigned b.operand x) (n : ℤ)
    (power : integerPower x n = some f) : ShowsExpr (.power b (.int n)) f := by
  obtain ⟨regular, rfl⟩ := integerPower_eq_some.mp power
  cases n with
  | ofNat k =>
    have nonneg : ¬((Int.ofNat k : ℤ) : ℚ) < 0 := by simp
    have raised := base.raised k
    refine ⟨⟨[x ^ k], ?_, by simp⟩, ?_⟩
    · rw [Expr.int, Expr.shown, if_neg nonneg]
      exact .cons ⟨_, raised, rfl⟩ .nil
    · rw [Expr.int, Expr.part, if_neg nonneg]
      exact .above (by simpa using raised)
  | negSucc k =>
    have negative : ((Int.negSucc k : ℤ) : ℚ) < 0 := by
      exact_mod_cast Int.negSucc_lt_zero k
    have exponent : -((Int.negSucc k : ℤ) : ℚ) = (k + 1 : ℕ) := by simp
    have raised := base.raised (k + 1)
    have nonzero : x ^ (k + 1) ≠ 0 :=
      pow_ne_zero _ fun zero => regular ⟨Int.negSucc_lt_zero k, zero⟩
    have one := ShowsSigned.number 1
    rw [map_one] at one
    refine ⟨⟨[1 / x ^ (k + 1)], ?_, by simp [zpow_negSucc]⟩, ?_⟩
    · rw [Expr.int, Expr.shown, if_pos negative, exponent]
      exact .cons ⟨_, one.quotient raised.plain nonzero, rfl⟩ .nil
    · rw [Expr.int, Expr.part, if_pos negative, exponent, zpow_negSucc]
      exact .below raised nonzero

theorem showsExpr_of_denote (named : Named e) (denotes : e.denote = some f) : ShowsExpr e f := by
  have rational := Expr.isRational_of_denote denotes
  induction rational generalizing f with
  | number q =>
    cases (Expr.denote_number q).symm.trans denotes
    refine ⟨⟨[_], ?_, List.sum_singleton⟩, .literal q⟩
    rw [Expr.shown]
    exact .cons (showsTerm_literal q) .nil
  | symbol s =>
    cases (Expr.denote_symbol s).symm.trans denotes
    have valid : Parser.isName s = true := by simpa [named_iff, Expr.occurrences] using named
    refine showsExpr_single (s := ⟨false, .name s⟩) (by rw [Expr.shown])
      ⟨_, Shows.signed ?_ rfl, rfl⟩ rfl
    exact ⟨.symbol s, Parser.operand?_of_isName valid, Expr.denote_symbol s⟩
  | @sum xs _ ih =>
    obtain ⟨fs, all, rfl⟩ := Expr.denote_sum_eq_some.mp denotes
    have each := showsExpr_all
      (fun x member f => ih x member ((named_closed.sum xs).mp named x member)) all
    refine showsExpr_of_terms ?_ rfl
    cases each with
    | nil =>
      have zero := ShowsSigned.number 0
      rw [map_zero] at zero
      refine ⟨[0], ?_, by simp⟩
      rw [Expr.shown]
      exact .cons ⟨0, zero, by simp⟩ .nil
    | cons first others =>
      rw [Expr.shown, Expr.shownAll_eq]
      · exact exists_terms (.cons first others)
      · exact List.cons_ne_nil _ _
  | @product xs _ ih =>
    obtain ⟨fs, all, rfl⟩ := Expr.denote_product_eq_some.mp denotes
    have each := showsExpr_all
      (fun x member f => ih x member ((named_closed.product xs).mp named x member)) all
    refine showsExpr_single (by rw [Expr.shown]) (showsTerm_joined ?_) rfl
    rw [Expr.parts_eq]
    exact List.forall₂_map_left_iff.mpr (each.imp fun _ _ shows' => shows'.part)
  | @power b n _ ih =>
    rw [Expr.denote_power] at denotes
    obtain ⟨x, base, power⟩ := Option.bind_eq_some_iff.mp denotes
    exact showsExpr_power (showsSigned_operand (ih (named_power.mp named).1 base).terms) n power

/-- An expression that denotes a rational function is read back as one that denotes
the same. -/
theorem built_of_denote (named : Named e) (denotes : e.denote = some f) : Shows e.phrase f :=
  shows_phrase (showsExpr_of_denote named denotes).terms

/-! ## Contradictions -/

/-- The functions differ by a rational number other than zero. -/
def Apart (f g : RationalFunction) : Prop :=
  f ≠ g ∧ ∃ q : ℚ, f - g = algebraMap ℚ RationalFunction q

/-- The oracle stopped at a size guard, or an exponent left the machine integers. -/
def Oversized : Stop → Prop
  | .fault (.oracle e) => (Failure.error e).IsRefusal
  | .fault _ => False
  | .crash message => (Failure.crash message).IsRefusal

theorem question_ensures {α : Type} {x : Outcome α} {good : α → Prop}
    (ensured : Ensures x good Failure.IsRefusal) : Ensures (Trail.answer x) good Oversized := by
  cases x with
  | ok a => exact ensured
  | error f =>
    cases f with
    | error e => exact ensured
    | crash message => exact ensured

/-- An equation of sides that denote rational functions counts as contradictory
exactly if its sides differ by a number, unless a size guard is exceeded. -/
theorem residualContradiction_ensures {l r : Expr} (guards : Guards) (left : l.denote = some f)
    (right : r.denote = some g) :
    Ensures (Strategy.residualContradiction (Oracle.exact guards) (.equation l r))
      (fun answer => answer = true ↔ Apart f g) Oversized := by
  have normalises {e : Expr} {d : RationalFunction} (denotes : e.denote = some d) :=
    normalises_of_denote guards.maxPower denotes
  have difference : (l - r).denote = some (f - g) := by
    rw [sub_eq_add_neg]
    exact Expr.denote_add left (Expr.denote_neg right)
  have simplified : Ensures (Trail.answer ((Oracle.exact guards).simplify (l - r)))
      (fun tree => tree.denote = some (f - g)) Oversized := by
    refine question_ensures ?_
    change Ensures ((Fraction.ofExpr guards.maxPower (l - r)).map Fraction.toExpr) _ _
    have ensured := normalises difference
    cases ran : Fraction.ofExpr guards.maxPower (l - r) with
    | error e => exact ensured.of_error ran
    | ok n => exact denote_toExpr (ensured.of_ok ran).denotes
  refine simplified.bind fun tree denotes => ?_
  -- The tree of the difference is normalised once more by both tests.
  have again := normalises denotes
  have constant : Ensures (Trail.answer ((Oracle.exact guards).isConstant tree))
      (fun free => free = true ↔ ∃ q : ℚ, f - g = algebraMap ℚ RationalFunction q) Oversized := by
    refine question_ensures ?_
    change Ensures ((Fraction.ofExpr guards.maxPower tree).map fun r => !r.hasSymbols) _ _
    cases ran : Fraction.ofExpr guards.maxPower tree with
    | error e => exact again.of_error ran
    | ok n =>
      have number := (again.of_ok ran).hasSymbols_iff
      rw [← number]
      exact Bool.not_eq_true' _ ▸ Iff.rfl
  have zero : Ensures (Trail.answer ((Oracle.exact guards).isZero tree))
      (fun zero => zero = true ↔ f = g) Oversized := by
    refine question_ensures ?_
    change Ensures ((Fraction.ofExpr guards.maxPower tree).map Fraction.isZero) _ _
    cases ran : Fraction.ofExpr guards.maxPower tree with
    | error e => exact again.of_error ran
    | ok n =>
      have tested := (again.of_ok ran).isZero_iff
      rwa [sub_eq_zero] at tested
  refine constant.bind fun free number => ?_
  split
  · rename_i holds
    refine zero.bind fun zero equal => ?_
    change (!zero) = true ↔ _
    rw [Apart, Bool.not_eq_true', ← Bool.not_eq_true, equal]
    exact (and_iff_left (number.mp holds)).symm
  · rename_i symbols
    exact iff_of_false nofun fun apart => symbols (number.mpr apart.2)

end RationalFunction

end Discharge
