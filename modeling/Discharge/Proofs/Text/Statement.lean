import Mathlib.Data.List.TakeWhile
import Discharge.Claim
import Discharge.Proofs.Text.Names

/-! Statements that are written and read again. No text that can be split into tokens
has an equals sign, so an equation is split where it was joined, and each side is read
as it would be by itself. -/

namespace Discharge

namespace Parser

variable {cs : List Char} {ts : List Token} {text : String} {e : Expr}

/-! ## Blanks and equals signs -/

theorem equals_not_mem (splits : Token.Splits cs ts) : '=' ∉ cs := by
  induction splits with
  | nil => exact List.not_mem_nil
  | blank blank _ ih =>
    rw [List.mem_cons, not_or]
    refine ⟨?_, ih⟩
    rintro rfl
    cases blank
  | number literal _ _ _ ih =>
    refine List.not_mem_append (fun inside => ?_) ih
    cases literal _ inside
  | word start others _ _ ih =>
    refine List.not_mem_append ?_ ih
    rw [List.mem_cons, not_or]
    refine ⟨?_, fun inside => ?_⟩
    · rintro rfl
      cases start
    · cases others _ inside
  | stars _ ih => simpa using ih
  | single found _ _ ih =>
    rw [List.mem_cons, not_or]
    refine ⟨?_, ih⟩
    rintro rfl
    cases found

/-- A blank behind a text belongs to no token. -/
theorem splits_append_blank (splits : Token.Splits cs ts) : Token.Splits (cs ++ [' ']) ts := by
  have boundary {cs : List Char} {ends : Char → Bool} (space : ends ' ' = false)
      (longest : ∀ c ∈ cs.head?, ends c = false) : ∀ c ∈ (cs ++ [' ']).head?, ends c = false := by
    cases cs with
    | nil => simpa using space
    | cons c cs => exact longest
  induction splits with
  | nil => exact .blank rfl .nil
  | blank blank _ ih => exact .blank blank ih
  | number literal longest decimal _ ih =>
    rw [List.append_assoc]
    exact .number literal (boundary rfl longest) decimal ih
  | word start others longest _ ih =>
    rw [List.append_assoc]
    exact .word start others (boundary rfl longest) ih
  | stars _ ih => exact .stars ih
  | @single c cs ts t found lone _ ih =>
    refine .single found (fun star => ?_) ih
    cases cs with
    | nil => simp
    | cons => exact lone star

/-- The two sides of a written equation, with the blanks around the sign. -/
theorem parses_sides (named : Named e) :
    Parses (String.ofList (e.render.toList ++ [' '])) e.phrase.expr? ∧
      Parses (String.ofList (' ' :: e.render.toList)) e.phrase.expr? := by
  obtain ⟨ts, splits, derives⟩ := exists_splits e named
  have before : Token.Splits (String.ofList (e.render.toList ++ [' '])).toList ts := by
    rw [String.toList_ofList]
    exact splits_append_blank splits
  have behind : Token.Splits (String.ofList (' ' :: e.render.toList)).toList ts := by
    rw [String.toList_ofList]
    exact .blank rfl splits
  exact ⟨derives.parses before, derives.parses behind⟩

theorem toOption_of_parses {r : Option Expr} (parses : Parses text r) :
    (Expr.parse text).toOption = r := by
  cases r with
  | some e =>
    rw [Expr.parse_eq_ok.mpr parses]
    rfl
  | none =>
    obtain ⟨offset, refused⟩ := parses
    rw [Expr.parse, refused]
    rfl

/-- A text that is read as an expression has no equals sign. -/
theorem equals_not_mem_of_parse (parsed : Expr.parse text = .ok e) : '=' ∉ text.toList := by
  obtain ⟨ts, p, splits, -⟩ := exists_derivation (Expr.parse_eq_ok.mp parsed)
  exact equals_not_mem splits

end Parser

namespace Claim

variable {text : String} {l r e : Expr} {c : Claim}

theorem splitEquation?_eq_none (plain : '=' ∉ text.toList) : splitEquation? text = none := by
  have all : text.toList.dropWhile (· ≠ '=') = [] := by
    rw [List.dropWhile_eq_nil_iff]
    intro c member
    rw [decide_eq_true_iff]
    rintro rfl
    exact plain member
  unfold splitEquation?
  simp only [all]

/-- The sides of a written equation. -/
theorem splitEquation?_render (named : Parser.Named l) (r : Expr) :
    splitEquation? (Claim.equation l r).render =
      some (String.ofList (l.render.toList ++ [' ']), String.ofList (' ' :: r.render.toList)) := by
  obtain ⟨ts, splits, -⟩ := Parser.exists_splits l named
  have before : ∀ c ∈ l.render.toList ++ [' '], decide (c ≠ '=') = true := by
    intro c member
    rw [decide_eq_true_iff]
    rintro rfl
    exact Parser.equals_not_mem (Parser.splits_append_blank splits) member
  have list : (Claim.equation l r).render.toList =
      (l.render.toList ++ [' ']) ++ '=' :: ' ' :: r.render.toList := by
    simp [render]
  unfold splitEquation?
  simp only [list, List.takeWhile_append_of_pos before, List.dropWhile_append_of_pos before]
  simp

/-- Reading a statement yields an equation of expressions that can be written, an
expression, or the text itself. -/
theorem parse_cases (text : String) :
    (∃ l r, parse text = .equation l r ∧ Parser.Named l ∧ Parser.Named r) ∨
      (∃ e, parse text = .expr e ∧ Parser.Named e) ∨ parse text = .text text := by
  have plain : (∃ e, parsePlain text = .expr e ∧ Parser.Named e) ∨
      parsePlain text = .text text := by
    unfold parsePlain
    cases parsed : Expr.parse text with
    | ok e => exact .inl ⟨e, rfl, Parser.named_of_parse parsed⟩
    | error => exact .inr rfl
  unfold parse
  split
  · exact .inr plain
  · split
    · rename_i lhs rhs left right
      exact .inl ⟨lhs, rhs, rfl, Parser.named_of_parse left, Parser.named_of_parse right⟩
    · exact .inr plain

/-- A written equation is read as the equation of what its sides are read as, and
otherwise stays text. -/
theorem parse_equation (left : Parser.Named l) (right : Parser.Named r) :
    parse (Claim.equation l r).render =
      match l.phrase.expr?, r.phrase.expr? with
      | some l', some r' => .equation l' r'
      | _, _ => .text (Claim.equation l r).render := by
  have lhs := Parser.toOption_of_parses (Parser.parses_sides left).1
  have rhs := Parser.toOption_of_parses (Parser.parses_sides right).2
  have split := splitEquation?_render left r
  have plain : parsePlain (Claim.equation l r).render = .text (Claim.equation l r).render := by
    unfold parsePlain
    cases parsed : Expr.parse (Claim.equation l r).render with
    | error => rfl
    | ok e =>
      have none := splitEquation?_eq_none (Parser.equals_not_mem_of_parse parsed)
      cases split.symm.trans none
  rw [parse, split, plain, ← lhs, ← rhs]
  dsimp only
  cases Expr.parse (String.ofList (l.render.toList ++ [' '])) with
  | error => rfl
  | ok l' => cases Expr.parse (String.ofList (' ' :: r.render.toList)) <;> rfl

/-- Only an equation is written as a text that is read as one. -/
theorem parse_render_of_no_equation (other : ∀ l r, parse text ≠ .equation l r) :
    ∀ l r, parse (parse text).render ≠ .equation l r := by
  rcases parse_cases text with ⟨l, r, equation, -⟩ | ⟨e, expr, named⟩ | verbatim
  · exact absurd equation (other l r)
  · obtain ⟨ts, splits, -⟩ := Parser.exists_splits e named
    intro l r
    rw [expr, render, parse, splitEquation?_eq_none (Parser.equals_not_mem splits)]
    dsimp only [parsePlain]
    cases Expr.parse e.render <;> exact nofun
  · intro l r
    rw [verbatim]
    exact other l r

end Claim

end Discharge
