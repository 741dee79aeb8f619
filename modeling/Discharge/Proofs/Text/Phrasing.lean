import Discharge.Proofs.Text.Recognition

/-! The phrase that is written for an expression. The printer is followed rule by
rule, with phrases in the place of texts; its text is derived as the phrase, so what
the phrase builds is what is read from the text. A term of a sum is kept apart from
its sign, since a minus sign is a subtraction behind other terms and belongs to the
first operand at the start. -/

namespace Discharge

/-- A minus sign in front of a phrase belongs to its first operand. -/
def Phrase.signed : Phrase → Phrase
  | .times p q => .times p.signed q
  | .quotient p q => .quotient p.signed q
  | p => .negative p

/-- A term of a sum as it is written. -/
structure Summand where
  negative : Bool
  body : Phrase

namespace Summand

/-- The term at the start of a sum. -/
def lead (s : Summand) : Phrase := if s.negative then s.body.signed else s.body

/-- The term behind other terms. -/
def behind (p : Phrase) (s : Summand) : Phrase :=
  if s.negative then .minus p s.body else .plus p s.body

/-- Terms in a row; none of them is zero. -/
def join : List Summand → Phrase
  | [] => .number 0
  | s :: ss => ss.foldl behind s.lead

end Summand

/-- What one operand contributes to a written product. -/
inductive Part where
  | literal (value : Rat)
  | above (phrase : Phrase)
  | below (phrase : Phrase)

namespace Part

/-- The literal of a part, or one. -/
def factor : Part → Rat
  | .literal q => q
  | .above _ | .below _ => 1

/-- The phrase above the slash. -/
def above? : Part → Option Phrase
  | .above p => some p
  | _ => none

/-- The phrase below the slash. -/
def below? : Part → Option Phrase
  | .below p => some p
  | _ => none

end Part

namespace Phrase

/-- A rational without its sign. -/
def ofRat (q : Rat) : Phrase :=
  if q.den = 1 then .number q.num.natAbs else .quotient (.number q.num.natAbs) (.number q.den)

/-- Parentheses unless the tree the phrase shows is atomic. -/
def grouped (e : Expr) (p : Phrase) : Phrase := if e.isAtomic then p else .group p

/-- A base with a rational exponent; the exponent one is not written. -/
def raised (base : Phrase) (q : Rat) : Phrase :=
  if q = 1 then base
  else if q.den = 1 ∧ 0 < q then .power base (.number q)
  else .power base (.group (Summand.join [⟨decide (q < 0), .ofRat q⟩]))

/-- A product of factors. -/
def factors : List Phrase → Phrase
  | [] => .number 1
  | p :: ps => ps.foldl .times p

/-- Factors in front of which a natural number stands, unless it is one. -/
def numerals (n : Nat) (ps : List Phrase) : Phrase :=
  factors (if n = 1 ∧ ps ≠ [] then ps else .number n :: ps)

/-- A numerator over a product of divisors. -/
def divided (numerator : Phrase) : List Phrase → Phrase
  | [] => numerator
  | [p] => .quotient numerator p
  | ps => .quotient numerator (.group (factors ps))

/-- The product of the parts, with its sign apart. -/
def joined (parts : List Part) : Summand :=
  let c := (parts.map Part.factor).prod
  let below := parts.filterMap Part.below?
  if c = 0 then ⟨false, .number 0⟩
  else ⟨decide (c < 0), divided (numerals c.num.natAbs (parts.filterMap Part.above?))
    (if c.den = 1 then below else .number c.den :: below)⟩

end Phrase

namespace Expr

mutual
/-- The terms that the tree contributes to the text of a sum. -/
def shown : Expr → List Summand
  | .number q => [⟨decide (q < 0), .ofRat q⟩]
  | .symbol s => [⟨false, .name s⟩]
  | .constant c => [⟨false, .name c.name⟩]
  | .sum [] => [⟨false, .number 0⟩]
  | .sum xs => shownAll xs
  | .product xs => [Phrase.joined (parts xs)]
  | .power b (.number q) =>
    let base := Phrase.grouped b (Summand.join (shown b))
    [⟨false, if q < 0 then .quotient (.number 1) (base.raised (-q)) else base.raised q⟩]
  | .power b e => [⟨false, .power (.grouped b (Summand.join (shown b)))
      (.grouped e (Summand.join (shown e)))⟩]
  | .apply f x => [⟨false, .call f (Summand.join (shown x))⟩]

/-- The terms that the trees contribute, in order. -/
def shownAll : List Expr → List Summand
  | [] => []
  | x :: xs => shown x ++ shownAll xs

/-- The parts that the operands of a product contribute, in order. -/
def parts : List Expr → List Part
  | [] => []
  | .number q :: xs => .literal q :: parts xs
  | .power b (.number q) :: xs =>
    let base := Phrase.grouped b (Summand.join (shown b))
    (if q < 0 then .below (base.raised (-q)) else .above (base.raised q)) :: parts xs
  | .power b e :: xs =>
    .above (.power (.grouped b (Summand.join (shown b))) (.grouped e (Summand.join (shown e))))
      :: parts xs
  | x :: xs => .above (.grouped x (Summand.join (shown x))) :: parts xs
end

/-- The phrase that is written. -/
def phrase (e : Expr) : Phrase := Summand.join e.shown

/-- The phrase of the expression as an operand. -/
def operand (e : Expr) : Phrase := .grouped e e.phrase

/-- What the expression contributes to a product. -/
def part : Expr → Part
  | .number q => .literal q
  | .power b (.number q) =>
    if q < 0 then .below (b.operand.raised (-q)) else .above (b.operand.raised q)
  | .power b e => .above (.power b.operand e.operand)
  | x => .above x.operand

theorem parts_eq (xs : List Expr) : parts xs = xs.map part := by
  induction xs with
  | nil => rw [parts, List.map_nil]
  | cons x xs ih =>
    rw [List.map_cons, ← ih]
    cases x with
    | power b e => cases e <;> rw [parts, part] <;> simp [operand, phrase]
    | _ => rw [parts, part] <;> simp [operand, phrase]

theorem shownAll_eq (xs : List Expr) : shownAll xs = xs.flatMap shown := by
  induction xs with
  | nil => rw [shownAll, List.flatMap_nil]
  | cons x xs ih => rw [shownAll, List.flatMap_cons, ih]

end Expr

namespace Parser

open Token (Scans)

variable {c : Category} {text a b : String} {p p' : Phrase} {ts : List Token}
  {ss us : List Summand} {q : ℚ} {e : Expr} {n : Nat}

/-! ## Texts of phrases -/

/-- The text is derived as the phrase, and starts with an operand. -/
inductive Writes (c : Category) : String → Phrase → Prop
  | intro {text : String} {ts : List Token} {p : Phrase} (scans : Scans text ts) (opens : Opens ts)
      (derives : Derives c ts p) : Writes c text p

/-- The text is derived as a sum. -/
def WritesSum (text : String) (p : Phrase) : Prop := ∃ ts, Scans text ts ∧ Derives .sum ts p

theorem Writes.unary (writes : Writes .primary text p) : Writes .unary text p := by
  obtain ⟨scans, opens, derives⟩ := writes
  exact .intro scans opens (.unsigned (.base derives))

theorem Writes.product (writes : Writes .unary text p) : Writes .product text p := by
  obtain ⟨scans, opens, derives⟩ := writes
  exact .intro scans opens (.factor derives)

theorem Writes.sum (writes : Writes .product text p) : WritesSum text p := by
  obtain ⟨scans, -, derives⟩ := writes
  exact ⟨_, scans, .term derives⟩

theorem writes_nat (n : Nat) : Writes .primary (toString n) (.number n) :=
  .intro (.number n) ⟨_, _, rfl, rfl⟩ (.number n)

theorem writes_name (identifier : isIdentifier text = true) (finite : text ≠ "oo" ∧ text ≠ "inf") :
    Writes .primary text (.name text) :=
  .intro (.word identifier) ⟨_, _, rfl, rfl⟩ (.name finite)

theorem WritesSum.group (writes : WritesSum text p) :
    Writes .primary ("(" ++ text ++ ")") (.group p) := by
  obtain ⟨ts, scans, derives⟩ := writes
  exact .intro scans.group ⟨_, _, rfl, rfl⟩ (.group derives)

theorem WritesSum.call (writes : WritesSum text p) (f : Function) :
    Writes .primary (f.name ++ "(" ++ text ++ ")") (.call f p) := by
  obtain ⟨ts, scans, derives⟩ := writes
  have identifier : isIdentifier f.name = true := by cases f <;> decide
  have boundary : Token.Boundary ("(" ++ text ++ ")").toList := by
    have list : ("(" ++ text ++ ")").toList = '(' :: (text.toList ++ [')']) := by simp
    rw [list]
    exact Scans.boundary_of_char (t := .openParen) rfl _
  have call := (Scans.word identifier).append scans.group boundary
  refine .intro ?_ ⟨_, _, rfl, rfl⟩ (.call (Function.ofName?_name f) derives)
  simpa only [String.append_assoc, List.cons_append, List.nil_append] using call

theorem Writes.power (base : Writes .primary a p) (exponent : Writes .primary b p') :
    Writes .unary (a ++ "^" ++ b) (.power p p') := by
  obtain ⟨scans, opens, derives⟩ := base
  obtain ⟨scans', -, derives'⟩ := exponent
  exact .intro (scans.infixed (c := '^') rfl rfl scans') (opens.append _)
    (.unsigned (.power derives (.unsigned (.base derives'))))

theorem Writes.times (left : Writes .product a p) (right : Writes .unary b p') :
    Writes .product (a ++ "*" ++ b) (.times p p') := by
  obtain ⟨scans, opens, derives⟩ := left
  obtain ⟨scans', -, derives'⟩ := right
  exact .intro (scans.infixed (c := '*') rfl rfl scans') (opens.append _) (.times derives derives')

theorem Writes.quotient (left : Writes .product a p) (right : Writes .unary b p') :
    Writes .product (a ++ "/" ++ b) (.quotient p p') := by
  obtain ⟨scans, opens, derives⟩ := left
  obtain ⟨scans', -, derives'⟩ := right
  exact .intro (scans.infixed (c := '/') rfl rfl scans') (opens.append _)
    (.quotient derives derives')

/-! ## Terms -/

/-- An operand of a product takes a minus sign as a whole. -/
theorem Derives.signed_eq (derives : Derives c ts p) (tight : c ≠ .sum ∧ c ≠ .product) :
    p.signed = .negative p := by
  induction derives with
  | number | name | group | call | power | negative | positive => rfl
  | base _ ih => exact ih ⟨nofun, nofun⟩
  | unsigned _ ih => exact ih ⟨nofun, nofun⟩
  | factor | times | quotient => exact absurd rfl tight.2
  | term | plus | minus => exact absurd rfl tight.1

theorem Derives.signed (derives : Derives c ts p) (product : c = .product) :
    Derives .product (.minus :: ts) p.signed := by
  induction derives with
  | factor only =>
    rw [only.signed_eq ⟨nofun, nofun⟩]
    exact .factor (.negative only)
  | times _ right ih => exact .times (ih rfl) right
  | quotient _ right ih => exact .quotient (ih rfl) right
  | _ => cases product

/-- The text shows the terms, by itself and behind another text. -/
structure Spells (text : String) (ss : List Summand) : Prop where
  visible : text ≠ ""
  some : ss ≠ []
  alone : WritesSum text (Summand.join ss)
  behind : ∀ a p, WritesSum a p → WritesSum (addTerm a text) (ss.foldl Summand.behind p)

theorem visible_of_scans (scans : Scans text ts) : text ≠ "" := by
  obtain ⟨c, cs, list, -⟩ := scans.start
  rintro rfl
  cases list

theorem Writes.spells (writes : Writes .product text p) : Spells text [⟨false, p⟩] := by
  refine ⟨?_, List.cons_ne_nil _ _, writes.sum, ?_⟩
  · obtain ⟨scans, -, -⟩ := writes
    exact visible_of_scans scans
  · rintro a p' ⟨ts, scans', derives'⟩
    obtain ⟨scans, opens, derives⟩ := writes
    have unsigned : text.toList.head? ≠ some '-' := by
      refine scans.head_ne_minus ?_
      obtain ⟨t, us, rfl, operand⟩ := opens
      rintro sign
      cases sign
      cases operand
    rw [addTerm_unsigned unsigned]
    exact ⟨_, scans'.spaced (c := '+') rfl rfl (by decide) scans, .plus derives' derives⟩

theorem Writes.spells_negative (writes : Writes .product text p) :
    Spells ("-" ++ text) [⟨true, p⟩] := by
  obtain ⟨scans, -, derives⟩ := writes
  refine ⟨visible_of_scans (scans_minus scans), List.cons_ne_nil _ _,
    ⟨_, scans_minus scans, .term (derives.signed rfl)⟩, ?_⟩
  rintro a p' ⟨ts, scans', derives'⟩
  rw [addTerm_negative]
  exact ⟨_, scans'.spaced (c := '-') rfl rfl (by decide) scans, .minus derives' derives⟩

/-- A product with its sign. -/
theorem Writes.spells_signed (writes : Writes .product text p) (negative : Prop)
    [Decidable negative] :
    Spells ((if negative then "-" else "") ++ text) [⟨decide negative, p⟩] := by
  by_cases sign : negative
  · simpa [sign] using writes.spells_negative
  · simpa [sign] using writes.spells

theorem addTerm_append (visible : a ≠ "") (left rest : String) :
    addTerm left (a ++ rest) = addTerm left a ++ rest := by
  obtain ⟨c, cs, list⟩ := List.exists_cons_of_ne_nil (l := a.toList) (by simpa using visible)
  by_cases sign : c = '-'
  · subst sign
    have text : a = "-" ++ String.ofList cs := by
      apply String.toList_injective
      simp [list]
    rw [text, String.append_assoc, addTerm_negative, addTerm_negative, String.append_assoc,
      String.append_assoc, String.append_assoc]
  · have unsigned : a.toList.head? ≠ some '-' := by simpa [list] using sign
    have unsigned' : (a ++ rest).toList.head? ≠ some '-' := by simpa [list] using sign
    rw [addTerm_unsigned unsigned, addTerm_unsigned unsigned', String.append_assoc,
      String.append_assoc, String.append_assoc]

/-- What a term adds to a text does not depend on the text. -/
theorem exists_addTerm (b : String) : ∃ rest, ∀ a, addTerm a b = a ++ rest := by
  by_cases sign : ∃ cs, b.toList = '-' :: cs
  · obtain ⟨cs, list⟩ := sign
    exact ⟨" - " ++ String.ofList cs, fun a => by simp only [addTerm, list, String.append_assoc]⟩
  · refine ⟨" + " ++ b, fun a => ?_⟩
    rw [addTerm_unsigned, String.append_assoc]
    intro head
    obtain ⟨cs, list⟩ := List.head?_eq_some_iff.mp head
    exact sign ⟨cs, list⟩

theorem addTerm_addTerm (visible : a ≠ "") (left : String) :
    addTerm left (addTerm a b) = addTerm (addTerm left a) b := by
  obtain ⟨rest, adds⟩ := exists_addTerm b
  rw [adds, adds, addTerm_append visible]

theorem join_append (some : ss ≠ []) (us : List Summand) :
    Summand.join (ss ++ us) = us.foldl Summand.behind (Summand.join ss) := by
  obtain ⟨s, ss, rfl⟩ := List.exists_cons_of_ne_nil some
  exact List.foldl_append

/-- Two sums side by side are one. -/
theorem Spells.append (first : Spells a ss) (second : Spells b us) :
    Spells (addTerm a b) (ss ++ us) := by
  refine ⟨?_, List.append_ne_nil_of_left_ne_nil first.some us, ?_, fun left p writes => ?_⟩
  · obtain ⟨rest, adds⟩ := exists_addTerm b
    rw [adds]
    intro empty
    exact first.visible (String.append_eq_empty_iff.mp empty).1
  · rw [join_append first.some]
    exact second.behind a _ first.alone
  · rw [addTerm_addTerm first.visible, List.foldl_append]
    exact second.behind _ _ (first.behind left p writes)

theorem spells_foldl {xs : List Expr} (spelled : ∀ x ∈ xs, Spells x.render x.shown)
    (first : Spells a ss) :
    Spells ((xs.map Expr.render).foldl addTerm a) (ss ++ xs.flatMap Expr.shown) := by
  induction xs generalizing a ss with
  | nil => simpa using first
  | cons x xs ih =>
    obtain ⟨head, tail⟩ := List.forall_mem_cons.mp spelled
    simpa using ih tail (first.append head)

/-! ## Literals and powers -/

theorem writes_ofRat (nonneg : 0 ≤ q) : Writes .product (ratText q) (.ofRat q) := by
  have top : ¬ q.num < 0 := by
    have := Rat.num_nonneg.mpr nonneg
    omega
  unfold ratText Phrase.ofRat
  rw [int_text q.num, if_neg top]
  split
  · exact (writes_nat _).unary.product
  · exact (writes_nat _).unary.product.quotient (writes_nat q.den).unary

theorem spells_ratText (q : ℚ) : Spells (ratText q) [⟨decide (q < 0), .ofRat q⟩] := by
  by_cases negative : q < 0
  · have positive : Writes .product (ratText (-q)) (.ofRat (-q)) :=
      writes_ofRat (neg_nonneg.mpr negative.le)
    have same : Phrase.ofRat (-q) = .ofRat q := by simp [Phrase.ofRat]
    rw [same] at positive
    rw [ratText_neg negative]
    simpa [negative] using positive.spells_negative
  · simpa [negative] using (writes_ofRat (not_lt.mp negative)).spells

theorem Writes.raised (base : Writes .primary text p) (nonneg : 0 ≤ q) :
    Writes .unary (Expr.powerText text q) (p.raised q) := by
  unfold Expr.powerText Phrase.raised
  split
  · exact base.unary
  split
  · rename_i whole
    have top : ¬ q.num < 0 := by
      have := Rat.num_nonneg.mpr nonneg
      omega
    have literal : ((q.num.natAbs : ℕ) : ℚ) = q := by
      rw [Nat.cast_natAbs, abs_of_nonneg (Rat.num_nonneg.mpr nonneg)]
      exact Rat.coe_int_num_of_den_eq_one whole.1
    have exponent := writes_nat q.num.natAbs
    rw [literal] at exponent
    rw [ratText, if_pos whole.1, int_text, if_neg top]
    exact base.power exponent
  · have power := base.power (spells_ratText q).alone.group
    have opening : "^(" = "^" ++ "(" := by decide
    rw [opening]
    simpa only [String.append_assoc] using power

/-! ## Products -/

section Product

variable {texts : List String} {ps : List Phrase} {pieces : List Expr.Piece} {parts : List Part}

theorem Writes.intercalate (written : List.Forall₂ (Writes .unary) texts ps)
    (first : Writes .product a p) :
    Writes .product ("*".intercalate (a :: texts)) (ps.foldl .times p) := by
  induction written generalizing a p with
  | nil => simpa using first
  | cons next _ ih =>
    have joined := ih (first.times next)
    rw [String.intercalate_cons_append] at joined
    rw [String.intercalate_cons_cons]
    exact joined

theorem writes_factors (written : List.Forall₂ (Writes .unary) texts ps) (some : texts ≠ []) :
    Writes .product ("*".intercalate texts) (.factors ps) := by
  cases written with
  | nil => exact absurd rfl some
  | cons first others => exact first.product.intercalate others

theorem empty_iff (written : List.Forall₂ (Writes .unary) texts ps) : texts = [] ↔ ps = [] := by
  cases written <;> simp

theorem writes_numerals (n : Nat) (written : List.Forall₂ (Writes .unary) texts ps) :
    Writes .product ("*".intercalate (if n = 1 ∧ texts ≠ [] then texts else toString n :: texts))
      (.numerals n ps) := by
  have same : (n = 1 ∧ texts ≠ []) ↔ (n = 1 ∧ ps ≠ []) := by
    rw [ne_eq, ne_eq, empty_iff written]
  unfold Phrase.numerals
  by_cases plain : n = 1 ∧ texts ≠ []
  · rw [if_pos plain, if_pos (same.mp plain)]
    exact writes_factors written plain.2
  · rw [if_neg plain, if_neg (mt same.mpr plain)]
    exact writes_factors (.cons (writes_nat n).unary written) (List.cons_ne_nil _ _)

theorem writes_divided (numerator : Writes .product a p)
    (written : List.Forall₂ (Writes .unary) texts ps) :
    Writes .product (quotientText a texts) (.divided p ps) := by
  match written with
  | .nil => exact numerator
  | .cons divisor .nil => exact numerator.quotient divisor
  | .cons first (.cons second others) =>
    have several := writes_factors (.cons first (.cons second others)) (List.cons_ne_nil _ _)
    have whole := numerator.quotient several.sum.group.unary
    have opening : "/(" = "/" ++ "(" := by decide
    simpa only [quotientText, Phrase.divided, opening, String.append_assoc] using whole

/-- A piece of a product with its phrase. -/
inductive Matches : Expr.Piece → Part → Prop
  | literal (q : ℚ) : Matches (.literal q) (.literal q)
  | above {text : String} {p : Phrase} : Writes .unary text p → Matches (.above text) (.above p)
  | below {text : String} {p : Phrase} : Writes .unary text p → Matches (.below text) (.below p)

theorem matches_columns (matched : List.Forall₂ Matches pieces parts) :
    Expr.coefficient pieces = (parts.map Part.factor).prod ∧
      List.Forall₂ (Writes .unary) (pieces.filterMap above?) (parts.filterMap Part.above?) ∧
      List.Forall₂ (Writes .unary) (pieces.filterMap below?) (parts.filterMap Part.below?) := by
  induction matched with
  | nil => exact ⟨by simp [coefficient_eq], .nil, .nil⟩
  | @cons piece part pieces parts matched _ ih =>
    obtain ⟨coefficient, above, below⟩ := ih
    rw [coefficient_eq] at coefficient ⊢
    rw [List.map_cons, List.prod_cons, coefficient, List.map_cons, List.prod_cons]
    cases matched with
    | literal q => exact ⟨rfl, above, below⟩
    | above writes => exact ⟨rfl, .cons writes above, below⟩
    | below writes => exact ⟨rfl, above, .cons writes below⟩

theorem spells_joinFactors (matched : List.Forall₂ Matches pieces parts) :
    Spells (Expr.joinFactors pieces) [Phrase.joined parts] := by
  obtain ⟨coefficient, above, below⟩ := matches_columns matched
  rw [joinFactors_eq, Phrase.joined, coefficient]
  dsimp only
  generalize (parts.map Part.factor).prod = c
  split
  · exact (writes_nat 0).unary.product.spells
  · have divisors : List.Forall₂ (Writes .unary)
        (if c.den = 1 then pieces.filterMap below? else toString c.den :: pieces.filterMap below?)
        (if c.den = 1 then parts.filterMap Part.below?
          else .number c.den :: parts.filterMap Part.below?) := by
      split
      · exact below
      · exact .cons (writes_nat c.den).unary below
    have quotient := writes_divided (writes_numerals c.num.natAbs above) divisors
    have signed := quotient.spells_signed (c < 0)
    by_cases negative : c < 0
    · simpa [negative, quotientText_minus] using signed
    · simpa [negative] using signed

end Product

/-! ## Expressions -/

/-- The text of the expression is derived as its phrase, by itself, as an operand and
in a product. -/
structure Phrased (e : Expr) : Prop where
  spells : Spells e.render e.shown
  operand : Writes .primary (e.grouped e.render) e.operand
  part : Matches (piece e) e.part

theorem operand_of_compound (compound : e.isAtomic = false) (spells : Spells e.render e.shown) :
    Writes .primary (e.grouped e.render) e.operand := by
  rw [Expr.grouped, Expr.operand, Phrase.grouped, Expr.phrase]
  simpa [compound] using spells.alone.group

/-- Names, calls and natural numbers. -/
theorem phrased_of_primary (atomic : e.isAtomic = true) (shown : e.shown = [⟨false, p⟩])
    (writes : Writes .primary e.render p)
    (part : Writes .primary (e.grouped e.render) e.operand → Matches (piece e) e.part) :
    Phrased e := by
  have operand : Writes .primary (e.grouped e.render) e.operand := by
    rw [Expr.grouped, Expr.operand, Phrase.grouped, if_pos atomic, if_pos atomic, Expr.phrase,
      shown]
    exact writes
  refine ⟨?_, operand, part operand⟩
  rw [shown]
  exact writes.unary.product.spells

theorem phrased_power {b w : Expr} (base : Phrased b) (exponent : Phrased w) :
    Phrased (.power b w) := by
  by_cases proper : ∀ q, w ≠ .number q
  · have writes := base.operand.power exponent.operand
    have shown : (Expr.power b w).shown = [⟨false, .power b.operand w.operand⟩] := by
      rw [Expr.shown]
      · rfl
      · intro q impossible
        exact proper q impossible
    have spells : Spells (Expr.power b w).render (Expr.power b w).shown := by
      rw [render_power proper, shown]
      exact writes.product.spells
    refine ⟨spells, operand_of_compound rfl spells, ?_⟩
    rw [piece, Expr.part]
    · exact .above writes
    · intro q impossible
      exact proper q impossible
    · intro q impossible
      exact proper q impossible
  · push Not at proper
    obtain ⟨q, rfl⟩ := proper
    by_cases negative : q < 0
    · have divisor := base.operand.raised (neg_nonneg.mpr negative.le)
      have spells : Spells (Expr.power b (.number q)).render (Expr.power b (.number q)).shown := by
        have start : "1/" = toString 1 ++ "/" := by decide
        rw [Expr.render, Expr.shown, if_pos negative, if_pos negative, start]
        exact ((writes_nat 1).unary.product.quotient divisor).spells
      refine ⟨spells, operand_of_compound rfl spells, ?_⟩
      rw [piece, Expr.part, if_pos negative, if_pos negative]
      exact .below divisor
    · have factor := base.operand.raised (not_lt.mp negative)
      have spells : Spells (Expr.power b (.number q)).render (Expr.power b (.number q)).shown := by
        rw [Expr.render, Expr.shown, if_neg negative, if_neg negative]
        exact factor.product.spells
      refine ⟨spells, operand_of_compound rfl spells, ?_⟩
      rw [piece, Expr.part, if_neg negative, if_neg negative]
      exact .above factor

/-- A literal that is atomic is written as a natural number. -/
theorem phrase_of_natural (atomic : (Expr.number q).isAtomic = true) :
    (q.den = 1 ∧ 0 ≤ q) ∧ (Expr.number q).phrase = .number q.num.natAbs := by
  obtain ⟨whole, nonneg⟩ : q.den = 1 ∧ 0 ≤ q := by simpa [Expr.isAtomic] using atomic
  refine ⟨⟨whole, nonneg⟩, ?_⟩
  simp [Expr.phrase, Expr.shown, Summand.join, Summand.lead, nonneg.not_gt, Phrase.ofRat, whole]

/-- Every expression whose symbols have proper names. -/
theorem phrased (e : Expr) (names : ∀ s, Expr.Subterm (.symbol s) e → isName s = true) :
    Phrased e := by
  induction e using Expr.subterm_induction with
  | step e ih =>
    have each : ∀ x ∈ e.operands, Phrased x := fun x member =>
      ih x member x (.refl x) fun s symbol => names s (.operand member symbol)
    cases e with
    | number q =>
      have spells : Spells (Expr.number q).render (Expr.number q).shown := by
        rw [Expr.render, Expr.shown]
        exact spells_ratText q
      refine ⟨spells, ?_, .literal q⟩
      by_cases atomic : (Expr.number q).isAtomic = true
      · obtain ⟨⟨whole, nonneg⟩, phrase⟩ := phrase_of_natural atomic
        have top : ¬ q.num < 0 := by
          have := Rat.num_nonneg.mpr nonneg
          omega
        have text : (Expr.number q).render = toString q.num.natAbs := by
          rw [Expr.render, ratText, if_pos whole, int_text, if_neg top]
        rw [Expr.grouped, Expr.operand, Phrase.grouped, if_pos atomic, if_pos atomic, text, phrase]
        exact writes_nat _
      · exact operand_of_compound (by simpa using atomic) spells
    | symbol s =>
      have valid := names s (.refl _)
      have finite : s ≠ "oo" ∧ s ≠ "inf" := finite_of_operand? (operand?_of_isName valid)
      refine phrased_of_primary (p := .name s) rfl ?_ ?_ fun operand => .above operand.unary
      · rw [Expr.shown]
      · rw [Expr.render]
        exact writes_name (Bool.and_eq_true_iff.mp valid).1 finite
    | constant c =>
      have identifier : isIdentifier c.name = true := by cases c <;> decide
      have finite : c.name ≠ "oo" ∧ c.name ≠ "inf" := by cases c <;> decide
      refine phrased_of_primary (p := .name c.name) rfl ?_ ?_ fun operand => .above operand.unary
      · rw [Expr.shown]
      · rw [Expr.render]
        exact writes_name identifier finite
    | sum xs =>
      have spells : Spells (Expr.sum xs).render (Expr.sum xs).shown := by
        rw [Expr.render, renderAll_eq]
        cases xs with
        | nil =>
          rw [Expr.shown]
          exact (writes_nat 0).unary.product.spells
        | cons x xs =>
          obtain ⟨head, tail⟩ := List.forall_mem_cons.mp each
          rw [Expr.shown, Expr.shownAll_eq, List.flatMap_cons]
          · exact spells_foldl (fun y member => (tail y member).spells) head.spells
          · exact List.cons_ne_nil _ _
      have operand := operand_of_compound rfl spells
      exact ⟨spells, operand, .above operand.unary⟩
    | product xs =>
      have spells : Spells (Expr.product xs).render (Expr.product xs).shown := by
        rw [render_product, pieces_eq, Expr.shown, Expr.parts_eq]
        refine spells_joinFactors
          (List.forall₂_map_left_iff.mpr (List.forall₂_map_right_iff.mpr ?_))
        exact List.forall₂_same.mpr fun x member => (each x member).part
      have operand := operand_of_compound rfl spells
      exact ⟨spells, operand, .above operand.unary⟩
    | power b w =>
      exact phrased_power (each b (by simp [Expr.operands])) (each w (by simp [Expr.operands]))
    | apply f x =>
      refine phrased_of_primary (p := .call f x.phrase) rfl ?_ ?_ fun operand =>
        .above operand.unary
      · rw [Expr.shown]
        rfl
      · rw [Expr.render]
        exact (each x (by simp [Expr.operands])).spells.alone.call f

/-- The text of an expression splits into tokens that are derived as its phrase. -/
theorem exists_splits (e : Expr) (names : ∀ s ∈ e.symbols, isName s = true) :
    ∃ ts, Token.Splits e.render.toList ts ∧ Derives .sum ts e.phrase := by
  obtain ⟨ts, scans, derives⟩ := (phrased e fun s inside =>
    names s (Expr.mem_symbols_of_subterm inside)).spells.alone
  obtain ⟨ls, tokens, scanned⟩ := scans.scanText
  exact ⟨ts, Token.scanText_iff.mp ⟨ls, scanned, tokens⟩, derives⟩

/-- What is read from the text of an expression is what its phrase builds. -/
theorem parses_render (e : Expr) (names : ∀ s ∈ e.symbols, isName s = true) :
    Parses e.render e.phrase.expr? := by
  obtain ⟨ts, splits, derives⟩ := exists_splits e names
  exact derives.parses splits

end Parser

end Discharge
