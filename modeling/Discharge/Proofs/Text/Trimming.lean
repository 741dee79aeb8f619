import Discharge.Proofs.Text.Names
import Discharge.Text.Blank

/-! No blank stands at an end of the text of an expression, so that the text is not
changed where the white space around it is dropped. A minus sign may start a text but
never ends one; so something visible is left of a term when its sign is split off. -/

namespace Discharge.Parser

variable {a b text : String} {texts : List String} {e : Expr}

/-- The text starts with a visible character, and ends with one that is no minus sign. -/
structure Framed (text : String) : Prop where
  first : ∃ c, text.toList.head? = some c ∧ Text.isBlank c = false
  last : ∃ c, text.toList.getLast? = some c ∧ Text.isBlank c = false ∧ c ≠ '-'

/-- White space is dropped from the ends only. -/
theorem Framed.trim (framed : Framed text) : Text.trim text = text := by
  obtain ⟨c, head, visible⟩ := framed.first
  obtain ⟨d, last, visible', -⟩ := framed.last
  obtain ⟨cs, list⟩ := List.head?_eq_some_iff.mp head
  have reversed : text.toList.reverse.head? = some d := by rw [List.head?_reverse, last]
  obtain ⟨ds, backwards⟩ := List.head?_eq_some_iff.mp reversed
  have start : text.toList.dropWhile Text.isBlank = text.toList := by
    rw [list, List.dropWhile_cons_of_neg (by simp [visible])]
  rw [Text.trim, start, backwards, List.dropWhile_cons_of_neg (by simp [visible']), ← backwards,
    List.reverse_reverse, String.ofList_toList]

/-! ## Texts put together -/

theorem Framed.around (left : Framed a) (middle : String) (right : Framed b) :
    Framed (a ++ middle ++ b) := by
  obtain ⟨c, head, visible⟩ := left.first
  obtain ⟨d, last, visible'⟩ := right.last
  exact ⟨⟨c, by simp [head], visible⟩, ⟨d, by simp [List.getLast?_append, last], visible'⟩⟩

theorem Framed.append (left : Framed a) (right : Framed b) : Framed (a ++ b) := by
  simpa using left.around "" right

theorem Framed.negative (framed : Framed a) : Framed ("-" ++ a) := by
  obtain ⟨c, last, visible⟩ := framed.last
  exact ⟨⟨'-', by simp, by decide⟩, ⟨c, by simp [List.getLast?_cons, last], visible⟩⟩

theorem framed_group (a : String) : Framed ("(" ++ a ++ ")") :=
  Framed.around ⟨⟨'(', rfl, by decide⟩, ⟨'(', rfl, by decide⟩⟩ a
    ⟨⟨')', rfl, by decide⟩, ⟨')', rfl, by decide⟩⟩

/-- A term keeps its end when its sign is written with blanks around it. -/
theorem Framed.addTerm (left : Framed a) (right : Framed b) : Framed (addTerm a b) := by
  by_cases sign : b.toList.head? = some '-'
  · obtain ⟨cs, list⟩ := List.head?_eq_some_iff.mp sign
    obtain ⟨c, head, visible⟩ := left.first
    obtain ⟨d, last, visible', other⟩ := right.last
    have rest : cs.getLast? = some d := by
      cases cs with
      | nil =>
        rw [list] at last
        exact absurd (Option.some.inj last).symm other
      | cons => rwa [list, List.getLast?_cons_cons] at last
    refine ⟨⟨c, by simp [Parser.addTerm, list, head], visible⟩, d, ?_, visible', other⟩
    simp [Parser.addTerm, list, List.getLast?_append, List.getLast?_cons, rest]
  · rw [addTerm_unsigned sign]
    exact left.around " + " right

theorem framed_intercalate (framed : ∀ t ∈ texts, Framed t) (some : texts ≠ []) :
    Framed ("*".intercalate texts) := by
  induction texts with
  | nil => exact absurd rfl some
  | cons t texts ih =>
    obtain ⟨head, tail⟩ := List.forall_mem_cons.mp framed
    cases texts with
    | nil => simpa using head
    | cons u texts =>
      rw [String.intercalate_cons_cons]
      exact head.around "*" (ih tail (List.cons_ne_nil _ _))

theorem framed_foldl (framed : ∀ t ∈ texts, Framed t) (first : Framed a) :
    Framed (texts.foldl addTerm a) := by
  induction texts generalizing a with
  | nil => exact first
  | cons t texts ih =>
    obtain ⟨head, tail⟩ := List.forall_mem_cons.mp framed
    exact ih tail (first.addTerm head)

theorem framed_quotientText (numerator : Framed a) (framed : ∀ t ∈ texts, Framed t) :
    Framed (quotientText a texts) := by
  unfold quotientText
  split
  · exact numerator
  · exact numerator.around "/" (framed _ (List.mem_singleton.mpr rfl))
  · rename_i several
    have opening : "/(" = "/" ++ "(" := by decide
    rw [opening]
    simpa only [String.append_assoc] using numerator.around "/" (framed_group _)

/-! ## Names and numbers -/

theorem visible_of_wordChar {c : Char} (word : Token.isWordChar c = true) :
    Text.isBlank c = false ∧ c ≠ '-' := by
  have code := Token.toNat_of_isWordChar word
  constructor
  · rw [← Bool.not_eq_true]
    intro blank
    simp only [Text.isBlank, Bool.or_eq_true, Bool.and_eq_true, decide_eq_true_eq,
      beq_iff_eq] at blank
    omega
  · rintro rfl
    cases word

theorem framed_of_wordChars (some : text ≠ "")
    (words : ∀ c ∈ text.toList, Token.isWordChar c = true) : Framed text := by
  have proper : text.toList ≠ [] := by simpa using some
  refine ⟨⟨_, List.head?_eq_some_head proper, ?_⟩, ⟨_, List.getLast?_eq_some_getLast proper, ?_⟩⟩
  · exact (visible_of_wordChar (words _ (List.head_mem proper))).1
  · exact visible_of_wordChar (words _ (List.getLast_mem proper))

theorem framed_identifier (identifier : isIdentifier text = true) : Framed text := by
  unfold isIdentifier at identifier
  split at identifier
  · cases identifier
  · rename_i c cs list
    obtain ⟨start, others⟩ := Bool.and_eq_true_iff.mp identifier
    refine framed_of_wordChars ?_ ?_
    · rintro rfl
      cases list
    · rw [list]
      exact List.forall_mem_cons.mpr ⟨Token.isWordChar_of_start start, List.all_eq_true.mp others⟩

theorem framed_nat (n : Nat) : Framed (toString n) := by
  have list : (toString n).toList = Nat.toDigits 10 n := Nat.toList_repr
  refine framed_of_wordChars (fun empty => ?_) fun c member => ?_
  · rw [empty] at list
    exact Nat.toDigits_ne_nil list.symm
  · exact Token.isWordChar_of_isDigit
      (Nat.isDigit_of_mem_toDigits (by omega) (by omega) (list ▸ member))

theorem framed_int (n : Int) : Framed (toString n) := by
  rw [int_text]
  split
  · exact (framed_nat _).negative
  · exact framed_nat _

theorem framed_ratText (q : ℚ) : Framed (ratText q) := by
  unfold ratText
  split
  · exact framed_int _
  · exact (framed_int _).around "/" (framed_nat _)

theorem Framed.powerText (base : Framed a) (q : ℚ) : Framed (Expr.powerText a q) := by
  unfold Expr.powerText
  split
  · exact base
  split
  · exact base.around "^" (framed_ratText q)
  · have opening : "^(" = "^" ++ "(" := by decide
    rw [opening]
    simpa only [String.append_assoc] using base.around "^" (framed_group (ratText q))

/-! ## Expressions -/

theorem Framed.grouped (framed : Framed e.render) : Framed (e.grouped e.render) := by
  unfold Expr.grouped
  split
  · exact framed
  · exact framed_group _

/-- The text that an operand contributes to a product is framed. -/
def FramedPiece : Expr.Piece → Prop
  | .literal _ => True
  | .above text | .below text => Framed text

theorem framed_piece (self : Framed e.render) (operands : ∀ x ∈ e.operands, Framed x.render) :
    FramedPiece (piece e) := by
  cases e with
  | number => trivial
  | power b w =>
    have base : Framed (b.grouped b.render) := (operands b (by simp [Expr.operands])).grouped
    have exponent : Framed (w.grouped w.render) := (operands w (by simp [Expr.operands])).grouped
    cases w with
    | number q =>
      rw [piece]
      split
      · exact base.powerText (-q)
      · exact base.powerText q
    | _ => exact base.around "^" exponent
  | _ => exact self.grouped

theorem framed_joinFactors {pieces : List Expr.Piece} (framed : ∀ p ∈ pieces, FramedPiece p) :
    Framed (Expr.joinFactors pieces) := by
  have above : ∀ t ∈ pieces.filterMap above?, Framed t := by
    intro t member
    obtain ⟨p, inside, found⟩ := List.mem_filterMap.mp member
    cases p with
    | above => cases found; exact framed _ inside
    | literal | below => cases found
  have below : ∀ t ∈ pieces.filterMap below?, Framed t := by
    intro t member
    obtain ⟨p, inside, found⟩ := List.mem_filterMap.mp member
    cases p with
    | below => cases found; exact framed _ inside
    | literal | above => cases found
  rw [joinFactors_eq]
  dsimp only
  generalize Expr.coefficient pieces = c
  split
  · exact framed_nat 0
  · have numerator : Framed ("*".intercalate (if c.num.natAbs = 1 ∧ pieces.filterMap above? ≠ []
        then pieces.filterMap above? else toString c.num.natAbs :: pieces.filterMap above?)) := by
      split
      · rename_i plain
        exact framed_intercalate above plain.2
      · exact framed_intercalate (List.forall_mem_cons.mpr ⟨framed_nat _, above⟩)
          (List.cons_ne_nil _ _)
    refine framed_quotientText ?_ ?_
    · split
      · exact numerator.negative
      · simpa using numerator
    · split
      · exact below
      · exact List.forall_mem_cons.mpr ⟨framed_nat _, below⟩

/-- Every expression whose symbols have proper names. -/
theorem framed_render (e : Expr) (names : ∀ s, Expr.Subterm (.symbol s) e → isName s = true) :
    Framed e.render := by
  induction e using Expr.subterm_induction with
  | step e ih =>
    have below : ∀ x ∈ e.operands, ∀ y, Expr.Subterm y x → Framed y.render :=
      fun x member y inside => ih x member y inside fun s symbol =>
        names s (.operand member (symbol.trans inside))
    have each : ∀ x ∈ e.operands, Framed x.render := fun x member => below x member x (.refl x)
    cases e with
    | number q =>
      rw [Expr.render]
      exact framed_ratText q
    | symbol s =>
      rw [Expr.render]
      exact framed_identifier (Bool.and_eq_true_iff.mp (names s (.refl _))).1
    | constant c =>
      rw [Expr.render]
      exact framed_identifier (by cases c <;> decide)
    | sum xs =>
      rw [Expr.render, renderAll_eq]
      cases xs with
      | nil => exact framed_nat 0
      | cons x xs =>
        obtain ⟨head, tail⟩ := List.forall_mem_cons.mp each
        exact framed_foldl (List.forall_mem_map.mpr tail) head
    | product xs =>
      rw [render_product, pieces_eq]
      refine framed_joinFactors (List.forall_mem_map.mpr fun x member => ?_)
      exact framed_piece (each x member) fun y inside =>
        below x member y (.operand inside (.refl y))
    | power b w =>
      have base : Framed (b.grouped b.render) := (each b (by simp [Expr.operands])).grouped
      have exponent : Framed (w.grouped w.render) := (each w (by simp [Expr.operands])).grouped
      by_cases proper : ∀ q, w ≠ .number q
      · rw [render_power proper]
        exact base.around "^" exponent
      · push Not at proper
        obtain ⟨q, rfl⟩ := proper
        rw [Expr.render]
        split
        · have start : "1/" = toString 1 ++ "/" := by decide
          rw [start]
          exact (framed_nat 1).around "/" (base.powerText (-q))
        · exact base.powerText q
    | apply f x =>
      have name : Framed f.name := framed_identifier (by cases f <;> decide)
      rw [Expr.render]
      simpa only [String.append_assoc] using name.append (framed_group x.render)

/-- Nothing is dropped from the text of an expression. -/
theorem trim_render (named : Named e) : Text.trim e.render = e.render :=
  (framed_render e fun s inside => named s (Expr.mem_symbols_of_subterm inside)).trim

end Discharge.Parser
