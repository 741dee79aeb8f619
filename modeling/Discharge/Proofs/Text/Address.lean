import Discharge.Decode
import Discharge.Proofs.Document.Quoting
import Discharge.Proofs.Text.Names
import Discharge.Proofs.Text.Settled

/-! Content addresses of expressions that are saved and loaded again. An expression
is saved as its text, and so its address survives exactly if its text is read as a
tree that is written in the same way. -/

namespace Discharge

namespace Expr

/-- The expression as a document, written without blanks. -/
def saved (e : Expr) : String := (Json.text e.render).canonicalText

/-- The content address of the document. -/
def address (e : Expr) : String := (Json.text e.render).address

/-- The expression that a document is read as. -/
def loaded? (document : String) : Option Expr := (JsonReader.read? document).bind ofDatum?

variable {e e' : Expr} {text : String}

theorem saved_eq (e : Expr) : e.saved = Json.quote e.render := rfl

/-- Documents are equal exactly if the texts are. -/
theorem saved_inj : e'.saved = e.saved ↔ e'.render = e.render := by
  refine ⟨fun same => ?_, fun same => by rw [saved_eq, saved_eq, same]⟩
  have read : JsonReader.read? e'.saved = JsonReader.read? e.saved := congrArg _ same
  rw [saved_eq, saved_eq, JsonReader.read?_quote, JsonReader.read?_quote] at read
  exact Datum.text.inj (Option.some.inj read)

/-- The address is taken over the text only. -/
theorem address_congr (same : e'.render = e.render) : e'.address = e.address := by
  rw [address, address, same]

/-- Loading a saved expression is reading its text. -/
theorem loaded?_saved (e : Expr) : loaded? e.saved = (parse e.render).toOption := by
  rw [loaded?, saved_eq, JsonReader.read?_quote]
  rfl

theorem loaded?_eq_some : loaded? e.saved = some e' ↔ parse e.render = .ok e' := by
  rw [loaded?_saved]
  cases parse e.render <;> simp [Except.toOption]

/-- What is loaded is what the phrase of the expression builds. -/
theorem loaded?_eq_built (names : Parser.Named e) : loaded? e.saved = e.phrase.expr? := by
  have parses := Parser.parses_render e names
  cases built : e.phrase.expr? with
  | some e' =>
    rw [built] at parses
    exact loaded?_eq_some.mpr (parse_eq_ok.mpr parses)
  | none =>
    rw [built] at parses
    obtain ⟨offset, refused⟩ := parses
    rw [loaded?_saved, parse, refused]
    rfl

theorem named_of_settled {s : Expr} (settled : Settled s) : Parser.Named s := by
  induction settled with
  | number q => exact Parser.named_closed.number q
  | symbol valid => simpa [Parser.named_iff, occurrences] using valid
  | constant c => simp [Parser.named_iff, occurrences]
  | apply f _ ih => exact Parser.named_apply.mpr ih
  | sum _ _ _ ih => exact (Parser.named_closed.sum _).mpr ih
  | raised _ _ _ ih | inverse _ _ ih =>
    exact Parser.named_power.mpr ⟨ih, Parser.named_closed.number _⟩
  | power _ _ _ ih ih' => exact Parser.named_power.mpr ⟨ih, ih'⟩
  | @product xs _ _ _ _ _ ih ih' =>
    refine (Parser.named_closed.product xs).mpr fun x member => ?_
    -- An operand is a literal, a factor, or a divisor.
    by_cases divisor : ∃ b q, x = .power b (.number q) ∧ q < 0
    · obtain ⟨b, q, rfl, negative⟩ := divisor
      have below : (b, -q) ∈ xs.filterMap bottom? :=
        List.mem_filterMap.mpr ⟨_, member, by simp [bottom?, negative]⟩
      exact Parser.named_power.mpr ⟨ih' _ below, Parser.named_closed.number q⟩
    by_cases literal : ∃ q, x = .number q
    · obtain ⟨q, rfl⟩ := literal
      exact Parser.named_closed.number q
    have above : x.top? = some x := by
      cases x with
      | number q => exact absurd ⟨q, rfl⟩ literal
      | power b w =>
        cases w with
        | number q => exact if_neg fun negative => divisor ⟨b, q, rfl, negative⟩
        | symbol | constant | sum | product | power | apply => rfl
      | symbol | constant | sum | product | apply => rfl
    exact ih x (List.mem_filterMap.mpr ⟨x, member, above⟩)

/-- A saved expression that is displayed like a settled one is loaded with the same
document. -/
theorem exists_loaded {s : Expr} (settled : Settled s) (display : s.render = e.render) :
    ∃ e', loaded? e.saved = some e' ∧ e'.render = e.render := by
  obtain ⟨e', rereads⟩ := Parser.exists_rereads settled
  refine ⟨e', ?_, rereads.render.trans display⟩
  rw [saved_inj.mpr display.symm, loaded?_eq_built (named_of_settled settled)]
  exact rereads.built

/-- What becomes of an expression that was read, saved and loaded. What is loaded is
built from the phrase that the expression is displayed by, and has its value; it is
missing only if a base of a negative literal power is displayed as a literal zero.
The document is kept exactly if the display is, and then the address is. It is
kept by every expression that is displayed like a settled one: one without nested
sums and products, in which a negative exponent is only written for an inverse and
the factors and divisors of a product stay apart. -/
theorem save_load.{u} (parsed : parse text = .ok e) :
    loaded? e.saved = e.phrase.expr? ∧
    (∀ e', loaded? e.saved = some e' → e'.SameValue.{u} e ∧
      (e'.saved = e.saved ↔ e'.render = e.render) ∧
      (e'.render = e.render → e'.address = e.address)) ∧
    ((¬∃ b q, Subterm (.power b (.number q)) e ∧ q < 0 ∧ parse b.render = .ok (.number 0)) →
      ∃ e', loaded? e.saved = some e') ∧
    ∀ s, Settled s → s.render = e.render →
      ∃ e', loaded? e.saved = some e' ∧ e'.saved = e.saved ∧ e'.address = e.address := by
  have names := Parser.named_of_parse parsed
  refine ⟨loaded?_eq_built names, fun e' loaded => ?_, fun safe => ?_, fun s settled display => ?_⟩
  · refine ⟨fun K _ _ I laws => ?_, saved_inj, address_congr⟩
    have read := loaded?_eq_some.mp loaded
    rcases Parser.parse_render laws e names with ⟨e'', read', value⟩ | ⟨-, offset, refused⟩
    · cases read.symm.trans read'
      exact value
    · cases read.symm.trans refused
  · rcases Parser.parse_render Interpretation.signed_reciprocal e names with
      ⟨e', read, -⟩ | ⟨⟨b, q, inside, negative, zero⟩, -⟩
    · exact ⟨e', loaded?_eq_some.mpr read⟩
    · exact absurd ⟨b, q, inside, negative, parse_eq_ok.mpr zero⟩ safe
  · obtain ⟨e', loaded, same⟩ := exists_loaded settled display
    exact ⟨e', loaded, saved_inj.mpr same, address_congr same⟩

/-- `x/(2*y^2*z) - sqrt(y)^n`. -/
def settledQuotient : Expr :=
  .sum [.product [.symbol "x", .power (.product [.number 2, .power (.symbol "y") (.number 2),
      .symbol "z"]) (.number (-1))],
    .product [.number (-1), .power (.apply .sqrt (.symbol "y")) (.symbol "n")]]

theorem settled_of_columns {xs : List Expr} (c : Rat) (tops : List Expr)
    (bottoms : List (Expr × Rat)) (columns : coefficient (pieces xs) = c ∧
      xs.filterMap top? = tops ∧ xs.filterMap bottom? = bottoms)
    (flat : ∀ x ∈ xs, x.isProduct = false) (above : ∀ x ∈ tops, Settled x)
    (below : ∀ p ∈ bottoms, Settled p.1) (nonzero : c ≠ 0) (balanced : Balanced c tops bottoms) :
    Settled (.product xs) := by
  obtain ⟨rfl, rfl, rfl⟩ := columns
  exact .product flat above below nonzero balanced

theorem settledQuotient_settled : settledQuotient.Settled := by
  have name (s : String) (valid : Parser.isName s = true) : Settled (.symbol s) := .symbol valid
  have square : Settled (.power (.symbol "y") (.number 2)) :=
    .raised (name "y" (by decide)) (by norm_num) (by norm_num)
  have divisor : Settled (.product [.number 2, .power (.symbol "y") (.number 2), .symbol "z"]) :=
    settled_of_columns 2 [.power (.symbol "y") (.number 2), .symbol "z"] [] (by decide +kernel)
      (by simp [isProduct]) (by simpa using ⟨square, name "z" (by decide)⟩) (by simp)
      (by norm_num) (.undivided (by simp) (by norm_num))
  have quotient : Settled (.product [.symbol "x", .power (.product [.number 2,
      .power (.symbol "y") (.number 2), .symbol "z"]) (.number (-1))]) :=
    settled_of_columns 1 [.symbol "x"]
      [(.product [.number 2, .power (.symbol "y") (.number 2), .symbol "z"], 1)]
      (by decide +kernel) (by simp [isProduct])
      (by simpa using name "x" (by decide)) (by simpa using divisor) (by norm_num)
      (.single (by norm_num) (by simp) (by simp))
  have root : Settled (.power (.apply .sqrt (.symbol "y")) (.symbol "n")) :=
    .power (.apply .sqrt (name "y" (by decide))) (name "n" (by decide)) (by simp)
  have opposite : Settled (.product [.number (-1), .power (.apply .sqrt (.symbol "y"))
      (.symbol "n")]) :=
    settled_of_columns (-1) [.power (.apply .sqrt (.symbol "y")) (.symbol "n")] []
      (by decide +kernel) (by simp [isProduct]) (by simpa using root) (by simp) (by norm_num)
      (.undivided (by simp) (by norm_num))
  exact .sum (by simp) (by simp [isSum]) (by simpa using ⟨quotient, opposite⟩)

theorem save_load_settledQuotient :
    parse "x/(2*y^2*z) - sqrt(y)^n" = .ok settledQuotient ∧ settledQuotient.Settled ∧
      ∃ e', loaded? settledQuotient.saved = some e' ∧ e'.saved = settledQuotient.saved ∧
        e'.address = settledQuotient.address := by
  have parsed : parse "x/(2*y^2*z) - sqrt(y)^n" = .ok settledQuotient := by decide +kernel
  exact ⟨parsed, settledQuotient_settled,
    (save_load.{0} parsed).2.2.2 _ settledQuotient_settled rfl⟩

/-- Not every display is kept: a negative power is displayed as a quotient, which is
read as the inverse of a power and displayed with parentheses; and what is displayed
as a division by zero is not read. -/
theorem negativePower_not_kept :
    (∃ e e', parse "x^(-2)" = .ok e ∧ loaded? e.saved = some e' ∧ e.render = "1/x^2" ∧
      e'.render = "1/(x^2)" ∧ e'.saved ≠ e.saved ∧ e'.address ≠ e.address) ∧
    ∃ e, parse "0^(-1)" = .ok e ∧ e.render = "1/0" ∧ loaded? e.saved = none := by
  refine ⟨⟨.power (.symbol "x") (.int (-2)),
    .product [.number 1, .power (.power (.symbol "x") (.int 2)) (.int (-1))], ?_⟩,
    .power (.number 0) (.int (-1)), ?_⟩
  · decide +kernel
  · decide +kernel

end Expr

end Discharge
