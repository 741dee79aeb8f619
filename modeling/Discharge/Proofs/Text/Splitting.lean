import Mathlib.Algebra.Order.Field.Basic
import Mathlib.Tactic.Ring
import Discharge.Proofs.Ensures
import Discharge.Proofs.Text.Lexing

/-! Which tokens a text splits into, said without a scanner. The longest run of
digits and dots has to be a decimal, the longest run of word characters is a
word, two stars are a caret, and blanks are dropped. The scanner finds these
tokens where there are any, and fails where there are none. -/

namespace Discharge.Token

/-! ## Decimals -/

/-- At most one dot, and at least one digit; the value is exact. -/
inductive Decimal : List Char → ℚ → Prop
  | whole {ds : List Char} (digits : ∀ c ∈ ds, c.isDigit = true) (some : ds ≠ []) :
    Decimal ds (digitsValue ds)
  | pointed {ds fs : List Char} (digits : ∀ c ∈ ds, c.isDigit = true)
    (fraction : ∀ c ∈ fs, c.isDigit = true) (some : ds ++ fs ≠ []) :
    Decimal (ds ++ '.' :: fs) (digitsValue ds + digitsValue fs / 10 ^ fs.length)

variable {c : Char} {cs ds fs : List Char} {ts us : List Token} {q : ℚ}

/-- Digits behind others count from where those end. -/
theorem digitsValue_append (ds fs : List Char) :
    digitsValue (ds ++ fs) = digitsValue ds * 10 ^ fs.length + digitsValue fs := by
  have shifted : ∀ start, fs.foldl (fun n c => 10 * n + (c.toNat - '0'.toNat)) start =
      start * 10 ^ fs.length + digitsValue fs := by
    induction fs with
    | nil => simp [digitsValue]
    | cons c fs ih =>
      intro start
      simp only [digitsValue, List.foldl_cons, List.length_cons] at ih ⊢
      rw [ih, ih (10 * 0 + _)]
      ring
  unfold digitsValue at shifted ⊢
  rw [List.foldl_append, shifted]

theorem decimal?_whole (digits : ∀ c ∈ ds, c.isDigit = true) (some : ds ≠ []) :
    decimal? ds = .some (digitsValue ds : ℚ) := by
  obtain ⟨taken, dropped⟩ : (ds ++ []).takeWhile Char.isDigit = ds ∧
      (ds ++ []).dropWhile Char.isDigit = [] :=
    takeWhile_run (List.all_eq_true.mpr digits) (by simp)
  rw [List.append_nil] at taken dropped
  have proper : ds.isEmpty = false := List.isEmpty_eq_false_iff.mpr some
  simp [decimal?, taken, dropped, proper, Rat.mkRat_one]

theorem decimal?_pointed (digits : ∀ c ∈ ds, c.isDigit = true)
    (fraction : ∀ c ∈ fs, c.isDigit = true) (some : ds ++ fs ≠ []) :
    decimal? (ds ++ '.' :: fs) =
      .some (digitsValue ds + digitsValue fs / 10 ^ fs.length : ℚ) := by
  obtain ⟨taken, dropped⟩ : (ds ++ '.' :: fs).takeWhile Char.isDigit = ds ∧
      (ds ++ '.' :: fs).dropWhile Char.isDigit = '.' :: fs :=
    takeWhile_run (List.all_eq_true.mpr digits) (by simp)
  have dotless : fs.contains '.' = false := by
    rw [← Bool.not_eq_true, List.contains_iff_mem]
    exact fun member => absurd (fraction _ member) (by decide)
  have proper : (ds.isEmpty && fs.isEmpty) = false := by
    rw [← Bool.not_eq_true, Bool.and_eq_true, List.isEmpty_iff, List.isEmpty_iff]
    rintro ⟨rfl, rfl⟩
    exact some rfl
  have power : (10 : ℚ) ^ fs.length ≠ 0 := pow_ne_zero _ (by norm_num)
  simp only [decimal?, taken, dropped, List.drop_succ_cons, List.drop_zero, proper, dotless,
    Bool.or_self, Bool.false_eq_true, if_false, digitsValue_append, Rat.mkRat_eq_div, Nat.pow_eq]
  push_cast
  rw [add_div, mul_div_cancel_right₀ _ power]

/-- A run of one kind is as long as it can be where it is taken from. -/
theorem run_longest (p : Char → Bool) (cs : List Char) :
    (∀ c ∈ cs.takeWhile p, p c = true) ∧ (∀ c ∈ (cs.dropWhile p).head?, p c = false) ∧
      cs.takeWhile p ++ cs.dropWhile p = cs := by
  refine ⟨fun c member => List.all_eq_true.mp List.all_takeWhile c member, fun c member => ?_,
    List.takeWhile_append_dropWhile⟩
  have stops := List.head?_dropWhile_not p cs
  rw [member] at stops
  simpa using stops

theorem Decimal.ne_nil (decimal : Decimal cs q) : cs ≠ [] := by
  cases decimal with
  | whole _ some => exact some
  | pointed => exact List.append_ne_nil_of_right_ne_nil _ (List.cons_ne_nil _ _)

theorem eq_dot (literal : isLiteralChar c = true) (other : c.isDigit = false) : c = '.' := by
  unfold isLiteralChar at literal
  rw [other, Bool.false_or] at literal
  exact beq_iff_eq.mp literal

theorem isDigit_of_ne_dot (literal : isLiteralChar c = true) (other : c ≠ '.') :
    c.isDigit = true := by
  rw [← Bool.not_eq_false]
  exact fun no => other (eq_dot literal no)

/-- What the test for a decimal asks of the characters behind the first dot. -/
theorem fraction_of_decimal? (found : decimal? cs = some q)
    (after : cs.dropWhile Char.isDigit = c :: fs) :
    '.' ∉ fs ∧ cs.takeWhile Char.isDigit ++ fs ≠ [] := by
  unfold decimal? at found
  rw [after, List.drop_succ_cons, List.drop_zero] at found
  dsimp only at found
  split at found
  · cases found
  · rename_i passed
    rw [Bool.not_eq_true, Bool.or_eq_false_iff, Bool.and_eq_false_iff] at passed
    refine ⟨fun member => ?_, fun empty => ?_⟩
    · rw [List.contains_iff_mem.mpr member] at passed
      cases passed.1
    · obtain ⟨left, right⟩ := List.append_eq_nil_iff.mp empty
      rw [left, right] at passed
      rcases passed.2 with impossible | impossible <;> cases impossible

/-- A run of digits and dots is read as a number exactly if it is a decimal. -/
theorem decimal?_eq_some (literal : ∀ c ∈ cs, isLiteralChar c = true) :
    decimal? cs = some q ↔ Decimal cs q := by
  constructor
  · intro found
    obtain ⟨digits, stops, whole⟩ := run_longest Char.isDigit cs
    cases after : cs.dropWhile Char.isDigit with
    | nil =>
      rw [after, List.append_nil] at whole
      rw [whole] at digits
      have proper : cs ≠ [] := by
        rintro rfl
        cases found
      cases (decimal?_whole digits proper).symm.trans found
      exact .whole digits proper
    | cons d fs =>
      rw [after] at whole stops
      obtain rfl : d = '.' := eq_dot (literal d (by rw [← whole]; simp)) (stops d rfl)
      obtain ⟨dotless, proper⟩ := fraction_of_decimal? found after
      have fraction : ∀ c ∈ fs, c.isDigit = true := fun c member =>
        isDigit_of_ne_dot (literal c (by rw [← whole]; simp [member]))
          fun dot => dotless (dot ▸ member)
      rw [← whole] at found ⊢
      cases (decimal?_pointed digits fraction proper).symm.trans found
      exact .pointed digits fraction proper
  · intro decimal
    cases decimal with
    | whole digits some => exact decimal?_whole digits some
    | pointed digits fraction some => exact decimal?_pointed digits fraction some

/-! ## Tokens -/

/-- The characters split into the tokens: runs are as long as they can be, and
blanks count for nothing. -/
inductive Splits : List Char → List Token → Prop
  | nil : Splits [] []
  | blank {c : Char} {cs : List Char} {ts : List Token} (blank : isBlank c = true)
    (rest : Splits cs ts) : Splits (c :: cs) ts
  | number {run cs : List Char} {ts : List Token} {q : ℚ}
    (literal : ∀ c ∈ run, isLiteralChar c = true)
    (longest : ∀ c ∈ cs.head?, isLiteralChar c = false)
    (decimal : Decimal run q) (rest : Splits cs ts) : Splits (run ++ cs) (.number q :: ts)
  | word {c : Char} {run cs : List Char} {ts : List Token} (start : isWordStart c = true)
    (others : ∀ c ∈ run, isWordChar c = true)
    (longest : ∀ c ∈ cs.head?, isWordChar c = false)
    (rest : Splits cs ts) : Splits (c :: run ++ cs) (.word (String.ofList (c :: run)) :: ts)
  | stars {cs : List Char} {ts : List Token} (rest : Splits cs ts) :
    Splits ('*' :: '*' :: cs) (.caret :: ts)
  | single {c : Char} {cs : List Char} {ts : List Token} {t : Token} (found : ofChar? c = some t)
    (lone : c = '*' → cs.head? ≠ some '*') (rest : Splits cs ts) : Splits (c :: cs) (t :: ts)

theorem scanned_stars (cs : List Char) : Scanned ('*' :: '*' :: cs) [.caret] cs := by
  intro offset
  refine ⟨[⟨offset, .caret⟩], offset + 2, rfl, ?_⟩
  have plain : isBlank '*' = false ∧ isLiteralChar '*' = false ∧ isWordStart '*' = false := by
    decide
  rw [scan]
  simp only [plain, Bool.false_eq_true, if_false, List.head?_cons, beq_self_eq_true, Bool.and_self,
    if_true, List.drop_succ_cons, List.drop_zero]
  cases scan (offset + 2) cs <;> rfl

theorem Splits.scanned (splits : Splits cs ts) : Scanned cs ts [] := by
  induction splits with
  | nil => exact fun offset => ⟨[], offset, rfl, by simp [scan, Except.map]⟩
  | blank blank _ ih => exact (scanned_blank blank _).trans ih
  | @number run cs ts q literal longest decimal _ ih =>
    cases run with
    | nil => exact absurd rfl decimal.ne_nil
    | cons c run =>
      exact (scanned_number (List.all_eq_true.mpr literal) ((decimal?_eq_some literal).mpr decimal)
        longest).trans ih
  | word start others longest _ ih =>
    exact (scanned_word start (List.all_eq_true.mpr others) longest).trans ih
  | stars _ ih => exact (scanned_stars _).trans ih
  | single found lone _ ih => exact (scanned_ofChar found lone).trans ih

/-- What is scanned is a way to split the characters. -/
theorem scan_splits (offset : Nat) (cs : List Char) :
    Yields (scan offset cs) fun ls => Splits cs (ls.map Lexeme.token) := by
  fun_induction scan offset cs with
  | case1 offset => exact .nil
  | case2 offset c cs blank ih => exact ih.mono fun _ rest => .blank blank rest
  | case3 => trivial
  | case4 offset c cs visible literal run q decimal ih =>
    obtain ⟨taken, longest, whole⟩ := run_longest isLiteralChar cs
    have all : ∀ d ∈ run, isLiteralChar d = true := List.forall_mem_cons.mpr ⟨literal, taken⟩
    refine ih.bind fun rest splits => ?_
    have split := Splits.number all longest ((decimal?_eq_some all).mp decimal) splits
    rwa [List.cons_append, whole] at split
  | case5 offset c cs visible literal start run ih =>
    obtain ⟨taken, longest, whole⟩ := run_longest isWordChar cs
    refine ih.bind fun rest splits => ?_
    have split := Splits.word start taken longest splits
    rwa [List.cons_append, whole] at split
  | case6 offset c cs visible literal start double ih =>
    refine ih.bind fun rest splits => ?_
    rw [Bool.and_eq_true, beq_iff_eq, beq_iff_eq] at double
    obtain ⟨rfl, next⟩ := double
    obtain ⟨cs, rfl⟩ := List.head?_eq_some_iff.mp next
    exact .stars splits
  | case7 => trivial
  | case8 offset c cs visible literal start double t found ih =>
    refine ih.bind fun rest splits => .single found ?_ splits
    rintro rfl next
    simp [next] at double

/-- The scanner finds the tokens of a text, and nothing else. -/
theorem scanText_iff {text : String} :
    (∃ ls, scanText text = .ok ls ∧ ls.map Lexeme.token = ts) ↔ Splits text.toList ts := by
  constructor
  · rintro ⟨ls, scanned, rfl⟩
    exact (scan_splits 0 text.toList).of_ok scanned
  · intro splits
    obtain ⟨ls, offset, tokens, scanned⟩ := splits.scanned 0
    refine ⟨ls, ?_, tokens⟩
    rw [scanText, scanned, scan]
    simp [Except.map]

theorem Splits.unique (first : Splits cs ts) (second : Splits cs us) : ts = us := by
  obtain ⟨ls, offset, rfl, scanned⟩ := first.scanned 0
  obtain ⟨ls', offset', rfl, scanned'⟩ := second.scanned 0
  rw [scanned, scan, scan] at scanned'
  have same : ls = ls' := by simpa [Except.map] using scanned'
  rw [same]

end Discharge.Token
