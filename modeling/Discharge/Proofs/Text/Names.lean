import Discharge.Proofs.Text.Phrasing

/-! The symbols of an expression that was read. The parser puts trees together by the
arithmetic operators, by folding literals, and by powers and calls, none of which
brings in a symbol; and the names that are read are identifiers. So every symbol of
a tree that was read can be written and read again. -/

namespace Discharge

namespace Expr.Closed

variable {P : Expr → Prop} {a b e : Expr}

theorem times (closed : Closed P) (left : P a) (right : P b) : P (Parser.times a b) := by
  unfold Parser.times
  split
  · exact closed.number _
  · exact closed.mul left right

theorem over? (closed : Closed P) (inverse : ∀ x, P x → P (.power x (.int (-1)))) (left : P a)
    (right : P b) (quotient : Parser.over? a b = some e) : P e := by
  unfold Parser.over? at quotient
  split at quotient
  · cases quotient
  split at quotient
  · cases quotient
    exact closed.number _
  · cases quotient
    exact closed.mul left (inverse b right)

end Expr.Closed

namespace Parser

variable {text n : String} {c : Category} {cs : List Char} {ts : List Token} {p : Phrase}
  {e b w x : Expr} {f : Function}

/-! ## Names -/

/-- Every symbol can be written. -/
def Named (e : Expr) : Prop := ∀ s ∈ e.symbols, isName s = true

theorem named_iff : Named e ↔ ∀ s ∈ e.occurrences, isName s = true := by
  simp only [Named, Expr.mem_symbols]

theorem named_all {xs : List Expr} : (∀ s ∈ Expr.occurrencesAll xs, isName s = true) ↔
    ∀ x ∈ xs, Named x := by
  induction xs with
  | nil => simp [Expr.occurrencesAll]
  | cons x xs ih => rw [Expr.occurrencesAll, List.forall_mem_append, ih, List.forall_mem_cons,
      named_iff]

theorem named_closed : Expr.Closed Named where
  number q := by simp [named_iff, Expr.occurrences]
  sum xs := by rw [named_iff, Expr.occurrences, named_all]
  product xs := by rw [named_iff, Expr.occurrences, named_all]

theorem named_power : Named (.power b w) ↔ Named b ∧ Named w := by
  rw [named_iff, Expr.occurrences, List.forall_mem_append, ← named_iff, ← named_iff]

theorem named_apply : Named (.apply f x) ↔ Named x := by
  rw [named_iff, Expr.occurrences, ← named_iff]

theorem named_operand (identifier : isIdentifier n = true) (known : operand? n = some e) :
    Named e := by
  unfold operand? at known
  split at known
  case h_8 =>
    -- No other name is a constant or infinity.
    have valid : isName n = true := by simp_all [isName]
    cases known
    rw [named_iff, Expr.occurrences]
    simpa using valid
  all_goals
    cases known
    try simp [named_iff, Expr.occurrences]

theorem identifier_of_splits (splits : Token.Splits cs ts) (word : .word n ∈ ts) :
    isIdentifier n = true := by
  induction splits with
  | nil => cases word
  | blank _ _ ih => exact ih word
  | number _ _ _ _ ih => exact ih (by simpa using word)
  | word start others _ _ ih =>
    rcases List.mem_cons.mp word with same | later
    · cases same
      rw [isIdentifier, String.toList_ofList]
      exact Bool.and_eq_true_iff.mpr ⟨start, List.all_eq_true.mpr others⟩
    · exact ih later
  | stars _ ih => exact ih (by simpa using word)
  | single found _ _ ih =>
    rcases List.mem_cons.mp word with rfl | later
    · unfold Token.ofChar? at found
      split at found
      all_goals cases found
    · exact ih later

theorem Derives.named (derives : Derives c ts p)
    (identifiers : ∀ n, .word n ∈ ts → isIdentifier n = true) (built : p.expr? = some e) :
    Named e := by
  have inverse (x : Expr) (named : Named x) : Named (.power x (.int (-1))) :=
    named_power.mpr ⟨named, named_closed.number _⟩
  induction derives generalizing e with
  | number q =>
    cases built
    exact named_closed.number q
  | name => exact named_operand (identifiers _ (List.mem_singleton.mpr rfl)) built
  | group _ ih => exact ih (fun n word => identifiers n (by simp [word])) built
  | positive _ ih => exact ih (fun n word => identifiers n (by simp [word])) built
  | base _ ih | unsigned _ ih | factor _ ih | term _ ih => exact ih identifiers built
  | call _ _ ih =>
    obtain ⟨x, argument, rfl⟩ := Option.map_eq_some_iff.mp built
    exact named_apply.mpr (ih (fun n word => identifiers n (by simp [word])) argument)
  | negative _ ih =>
    obtain ⟨a, operand, rfl⟩ := Option.map_eq_some_iff.mp built
    exact named_closed.neg (ih (fun n word => identifiers n (by simp [word])) operand)
  | power _ _ ih ih' =>
    obtain ⟨b, base, rest⟩ := Option.bind_eq_some_iff.mp built
    obtain ⟨w, exponent, rfl⟩ := Option.map_eq_some_iff.mp rest
    exact named_power.mpr ⟨ih (fun n word => identifiers n (by simp [word])) base,
      ih' (fun n word => identifiers n (by simp [word])) exponent⟩
  | times _ _ ih ih' =>
    obtain ⟨a, left, rest⟩ := Option.bind_eq_some_iff.mp built
    obtain ⟨b, right, rfl⟩ := Option.map_eq_some_iff.mp rest
    exact named_closed.times (ih (fun n word => identifiers n (by simp [word])) left)
      (ih' (fun n word => identifiers n (by simp [word])) right)
  | quotient _ _ ih ih' =>
    obtain ⟨a, left, rest⟩ := Option.bind_eq_some_iff.mp built
    obtain ⟨b, right, quotient⟩ := Option.bind_eq_some_iff.mp rest
    exact named_closed.over? inverse (ih (fun n word => identifiers n (by simp [word])) left)
      (ih' (fun n word => identifiers n (by simp [word])) right) quotient
  | plus _ _ ih ih' =>
    obtain ⟨a, left, rest⟩ := Option.bind_eq_some_iff.mp built
    obtain ⟨b, right, rfl⟩ := Option.map_eq_some_iff.mp rest
    exact named_closed.add (ih (fun n word => identifiers n (by simp [word])) left)
      (ih' (fun n word => identifiers n (by simp [word])) right)
  | minus _ _ ih ih' =>
    obtain ⟨a, left, rest⟩ := Option.bind_eq_some_iff.mp built
    obtain ⟨b, right, rfl⟩ := Option.map_eq_some_iff.mp rest
    exact named_closed.sub (ih (fun n word => identifiers n (by simp [word])) left)
      (ih' (fun n word => identifiers n (by simp [word])) right)

/-- The symbols of an expression that was read can be written. -/
theorem named_of_parse (parsed : Expr.parse text = .ok e) : Named e := by
  have read := Expr.parse_eq_ok.mp parsed
  obtain ⟨ts, p, splits, derives⟩ := exists_derivation read
  have parses := derives.parses splits
  cases built : p.expr? with
  | none =>
    rw [built] at parses
    obtain ⟨offset, refused⟩ := parses
    cases read.symm.trans refused
  | some e' =>
    rw [built] at parses
    cases read.symm.trans parses
    exact derives.named (fun n => identifier_of_splits splits) built

end Parser

end Discharge
