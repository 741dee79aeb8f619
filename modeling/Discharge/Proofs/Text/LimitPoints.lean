import Discharge.Decode
import Discharge.Proofs.Document.Quoting
import Discharge.Proofs.Text.Trimming

/-! Points that are displayed and read again. The spellings of infinity are looked up
before an expression is read, and the reader of expressions keeps only two of them for
itself. So a point may change its kind where the name `infinity` is read as a symbol
and displayed alone; every other point keeps it. -/

namespace Discharge.LimitPoint

variable {e : Expr} {p : LimitPoint} {text : String}

/-- The point as a document, written without blanks. -/
def saved (p : LimitPoint) : String := (Json.text p.render).canonicalText

/-- The point that a document is read as. -/
def loaded? (document : String) : Option LimitPoint :=
  (JsonReader.read? document).bind ofDatum?

/-- Loading a saved point is reading its display. -/
theorem loaded?_saved (p : LimitPoint) : loaded? p.saved = (parse p.render).toOption := by
  have quoted : p.saved = Json.quote p.render := rfl
  rw [loaded?, quoted, JsonReader.read?_quote]
  rfl

/-! ## Displays that spell infinity -/

/-- The infinite point whose spelling the reader of expressions takes for the name
`infinity`, or for its negation. -/
def named? : String → Option LimitPoint
  | "infinity" => some .posInfinity
  | "-infinity" => some .negInfinity
  | _ => none

theorem named?_eq_none {text : String} :
    named? text = none ↔ text ≠ "infinity" ∧ text ≠ "-infinity" := by
  unfold named?
  split <;> simp_all

/-- A text that the reader of expressions refuses as an infinity is no display. -/
theorem render_ne_of_refused {offset : Nat} (named : Parser.Named e)
    (refused : Parser.parse text = .error ⟨offset, .infinityOperand⟩) : e.render ≠ text := by
  rintro rfl
  have parses := Parser.parses_render e named
  cases built : e.phrase.expr? with
  | some e' =>
    rw [built] at parses
    cases refused.symm.trans parses
  | none =>
    rw [built] at parses
    obtain ⟨offset', zero⟩ := parses
    cases refused.symm.trans zero

/-- The other spellings are refused, so none of them is displayed. -/
theorem infinity?_render (named : Parser.Named e) : infinity? e.render = named? e.render := by
  have unsigned : ∀ text ∈ ["oo", "inf"],
      Parser.parse text = .error ⟨0, .infinityOperand⟩ := by decide +kernel
  have signed : ∀ text ∈ ["+oo", "+inf", "-oo", "-inf"],
      Parser.parse text = .error ⟨1, .infinityOperand⟩ := by decide +kernel
  have other : ∀ text ∈ ["oo", "inf"] ++ ["+oo", "+inf", "-oo", "-inf"], e.render ≠ text := by
    rw [List.forall_mem_append]
    exact ⟨fun text member => render_ne_of_refused named (unsigned text member),
      fun text member => render_ne_of_refused named (signed text member)⟩
  unfold infinity? named?
  split <;> simp_all

/-- The expression of a finite point that was read. -/
theorem named_of_parse (read : parse text = .ok (.finite e)) : Parser.Named e := by
  unfold parse at read
  dsimp only at read
  split at read
  · rename_i p spelled
    unfold infinity? at spelled
    split at spelled <;> cases spelled <;> cases read
  · cases parsed : Expr.parse (Text.trim text) with
    | error => rw [parsed] at read; cases read
    | ok e' =>
      rw [parsed] at read
      cases read
      exact Parser.named_of_parse parsed

/-- A finite point is read from its display as the expression is, unless that spells
infinity. -/
theorem parse_render (named : Parser.Named e) :
    parse e.render = (named? e.render).elim ((Expr.parse e.render).map .finite) .ok := by
  simp only [parse, Parser.trim_render named, infinity?_render named]
  cases named? e.render <;> rfl

/-- What is read from the display of an expression has its value. -/
theorem sameValue_of_parse_render.{u} {e' : Expr} (named : Parser.Named e)
    (read : Expr.parse e.render = .ok e') : e'.SameValue.{u} e := by
  intro K _ _ I laws
  rcases Parser.parse_render laws e named with ⟨e'', read', value⟩ | ⟨-, offset, refused⟩
  · cases read.symm.trans read'
    exact value
  · cases read.symm.trans refused

/-- An expression that is displayed like one that is read has its value. -/
theorem sameValue_of_render.{u} {e' : Expr} (named : Parser.Named e) (display : e.render = text)
    (read : Expr.parse text = .ok e') : e.SameValue.{u} e' := by
  subst display
  exact fun K _ _ I laws => (sameValue_of_parse_render named read K I laws).symm

/-! ## The kind of a point -/

/-- The points are finite with the same value, or infinite with the same sign. -/
def SameKind.{u} : LimitPoint → LimitPoint → Prop
  | .finite a, .finite b => a.SameValue.{u} b
  | .posInfinity, .posInfinity | .negInfinity, .negInfinity => True
  | _, _ => False

/-- A finite point becomes infinite: it has the value of the symbol `infinity` and is
displayed as that, or it has the value of its negation and is displayed as that. -/
inductive Escapes.{u} : LimitPoint → LimitPoint → Prop
  | pos {e : Expr} (display : e.render = "infinity")
    (value : e.SameValue.{u} (.symbol "infinity")) : Escapes (.finite e) .posInfinity
  | neg {e : Expr} (display : e.render = "-infinity")
    (value : e.SameValue.{u} (-.symbol "infinity")) : Escapes (.finite e) .negInfinity

/-- What becomes of a finite point. -/
theorem reread_finite.{u} {p' : LimitPoint} (named : Parser.Named e)
    (reread : parse e.render = .ok p') :
    ((e.render ≠ "infinity" ∧ e.render ≠ "-infinity") ∧ p'.SameKind.{u} (.finite e)) ∨
      Escapes.{u} (.finite e) p' := by
  rw [parse_render named] at reread
  by_cases pos : e.render = "infinity"
  · rw [pos] at reread
    cases reread
    exact .inr (.pos pos (sameValue_of_render named pos (by decide +kernel)))
  by_cases neg : e.render = "-infinity"
  · rw [neg] at reread
    cases reread
    exact .inr (.neg neg (sameValue_of_render named neg (by decide +kernel)))
  · rw [named?_eq_none.mpr ⟨pos, neg⟩] at reread
    cases again : Expr.parse e.render with
    | error => rw [again] at reread; cases reread
    | ok e' =>
      rw [again] at reread
      cases reread
      exact .inl ⟨⟨pos, neg⟩, sameValue_of_parse_render named again⟩

theorem Escapes.display.{u} {p' : LimitPoint} (escapes : Escapes.{u} p p') :
    ¬(p.render ≠ "infinity" ∧ p.render ≠ "-infinity") ∧ ¬p'.SameKind.{u} p := by
  cases escapes with
  | pos display => exact ⟨fun other => other.1 display, id⟩
  | neg display => exact ⟨fun other => other.2 display, id⟩

/-- A point that was read is displayed and read again, or saved and loaded, which is the
same. An infinite point is found again. Of a finite point the kind and the value are
kept exactly if it is not displayed as `infinity` or `-infinity`; a point with these
displays becomes infinite, and is the symbol `infinity` or its negation. -/
theorem kind_kept.{u} {p' : LimitPoint} (read : parse text = .ok p)
    (reread : parse p.render = .ok p' ∨ loaded? p.saved = some p') :
    (parse p.render = .ok p' ∧ loaded? p.saved = some p') ∧
    (p.isInfinite = true → p' = p) ∧
    (p'.SameKind.{u} p ↔ p.render ≠ "infinity" ∧ p.render ≠ "-infinity") ∧
    (¬p'.SameKind.{u} p → Escapes.{u} p p') := by
  have shown : parse p.render = .ok p' ∧ loaded? p.saved = some p' := by
    rw [loaded?_saved] at reread ⊢
    generalize parse p.render = outcome at reread ⊢
    cases outcome with
    | ok => simpa [Except.toOption] using reread
    | error => simp [Except.toOption] at reread
  refine ⟨shown, ?_⟩
  cases p with
  | posInfinity =>
    have same : parse "oo" = .ok .posInfinity := by decide +kernel
    cases shown.1.symm.trans same
    exact ⟨fun _ => rfl, by simp [SameKind, render], fun lost => absurd trivial lost⟩
  | negInfinity =>
    have same : parse "-oo" = .ok .negInfinity := by decide +kernel
    cases shown.1.symm.trans same
    exact ⟨fun _ => rfl, by simp [SameKind, render], fun lost => absurd trivial lost⟩
  | finite e =>
    refine ⟨nofun, ?_⟩
    rcases reread_finite (named_of_parse read) shown.1 with ⟨other, kept⟩ | escapes
    · exact ⟨⟨fun _ => other, fun _ => kept⟩, fun lost => absurd kept lost⟩
    · exact ⟨⟨fun kept => absurd kept escapes.display.2, fun other =>
        absurd other escapes.display.1⟩, fun _ => escapes⟩

/-- `-x/2`. -/
def halfPoint : LimitPoint := .finite (-.symbol "x" / .number 2)

theorem kind_kept_halfPoint :
    parse " -x/2 " = .ok halfPoint ∧ parse halfPoint.render = .ok halfPoint ∧
      halfPoint.SameKind.{0} halfPoint := by
  have read : parse " -x/2 " = .ok halfPoint := by decide +kernel
  have reread : parse halfPoint.render = .ok halfPoint := by decide +kernel
  refine ⟨read, reread, (kind_kept read (.inl reread)).2.2.1.mpr ?_⟩
  decide +kernel

/-- The list of spellings misses a sign before `infinity`, so that the reader of
expressions reads a symbol. This is displayed without the sign, which is on the list. -/
theorem infinity_not_kept :
    parse "+infinity" = .ok (.finite (.symbol "infinity")) ∧
      parse (LimitPoint.finite (.symbol "infinity")).render = .ok .posInfinity ∧
      ¬SameKind.{0} .posInfinity (.finite (.symbol "infinity")) :=
  ⟨by decide +kernel, by decide +kernel, id⟩

end Discharge.LimitPoint
