import Mathlib
import Discharge.Proofs.Text.Rereading

/-! Expressions whose text is read as an expression with the same text. The printer
regroups a product, drops what is one and writes a negative exponent as a division,
so in general a second reading differs from the first; a tree is settled when
nothing of this happens anywhere in it. Every part of a settled tree keeps its text
and its kind, and that is what the induction carries. -/

namespace Discharge

namespace Expr

/-- Is the tree a sum? -/
def isSum : Expr → Bool
  | .sum _ => true
  | _ => false

/-- Is the tree a product? -/
def isProduct : Expr → Bool
  | .product _ => true
  | _ => false

/-- A tree that is written as an operand like it is written by itself, up to
parentheses. -/
def isPlain : Expr → Bool
  | .symbol _ | .constant _ | .apply .. | .sum _ => true
  | _ => false

/-- The operand as a factor above the slash. -/
def top? : Expr → Option Expr
  | .number _ => none
  | .power b (.number q) => if q < 0 then none else some (.power b (.number q))
  | e => some e

/-- The base and the exponent of the operand as a factor below the slash. -/
def bottom? : Expr → Option (Expr × Rat)
  | .power b (.number q) => if q < 0 then some (b, -q) else none
  | _ => none

/-- Coefficient, factors and divisors of a product that is read as such a product
again: it is not written as a literal or as a single factor, and what is below the
slash is read as one divisor that is written there in the same way. -/
inductive Balanced : Rat → List Expr → List (Expr × Rat) → Prop
  /-- Without symbolic divisors. -/
  | undivided {c : Rat} {tops : List Expr} (some : tops ≠ []) (several : c = 1 → 2 ≤ tops.length) :
    Balanced c tops []
  /-- With one divisor. -/
  | single {c : Rat} {tops : List Expr} {b : Expr} (whole : c.den = 1) (nonzero : b ≠ .number 0)
      (proper : tops = [] → ∀ q, b ≠ .number q) : Balanced c tops [(b, 1)]
  /-- With divisors that are written in parentheses. -/
  | grouped {c : Rat} {tops : List Expr} {bottoms : List (Expr × Rat)} (some : bottoms ≠ [])
      (several : c.den = 1 → 2 ≤ bottoms.length)
      (plain : ∀ p ∈ bottoms, p.2 = 1 → p.1.isPlain = true) : Balanced c tops bottoms

/-- The expression is written as it would be written after a second reading. -/
inductive Settled : Expr → Prop
  | number (q : Rat) : Settled (.number q)
  | symbol {name : String} (valid : Parser.isName name = true) : Settled (.symbol name)
  | constant (c : Constant) : Settled (.constant c)
  | apply (f : Function) {x : Expr} (argument : Settled x) : Settled (.apply f x)
  | sum {xs : List Expr} (many : 2 ≤ xs.length) (flat : ∀ x ∈ xs, x.isSum = false)
      (terms : ∀ x ∈ xs, Settled x) : Settled (.sum xs)
  | raised {b : Expr} {q : Rat} (base : Settled b) (nonneg : 0 ≤ q) (proper : q ≠ 1) :
    Settled (.power b (.number q))
  | inverse {b : Expr} (base : Settled b) (proper : ∀ q, b ≠ .number q) :
    Settled (.power b (.number (-1)))
  | power {b e : Expr} (base : Settled b) (exponent : Settled e) (proper : ∀ q, e ≠ .number q) :
    Settled (.power b e)
  | product {xs : List Expr} (flat : ∀ x ∈ xs, x.isProduct = false)
      (tops : ∀ x ∈ xs.filterMap top?, Settled x)
      (bottoms : ∀ p ∈ xs.filterMap bottom?, Settled p.1)
      (nonzero : coefficient (pieces xs) ≠ 0)
      (balanced : Balanced (coefficient (pieces xs)) (xs.filterMap top?) (xs.filterMap bottom?)) :
    Settled (.product xs)

end Expr

namespace Parser

open Discharge.Expr (Settled Balanced)

variable {e e' x b : Expr} {p : Phrase} {s : Summand} {q : ℚ} {xs : List Expr}

/-! ## What a settled part keeps -/

/-- The phrase of the tree builds a tree of the same kind that has the same text. -/
structure Rereads (e e' : Expr) : Prop where
  built : e.phrase.expr? = some e'
  render : e'.render = e.render
  atomic : e'.isAtomic = e.isAtomic
  plain : e'.isPlain = e.isPlain
  number : ∀ q, e' = .number q ↔ e = .number q

/-- A settled tree is read back as a whole, as a term of a sum, and as a factor. -/
structure Kept (e : Expr) : Prop where
  whole : ∃ e', Rereads e e'
  term : e.isSum = false → ∃ s lead later, e.shown = [s] ∧ lead.isSum = false ∧
    later.isSum = false ∧ Redisplays e.render s lead later
  factor : ∀ text, piece e = .above text → e.isProduct = false →
    ∃ p u, e.part = .above p ∧ Shows ⟨text, p⟩ u

theorem phrase_of_shown (shown : e.shown = [s]) : e.phrase = s.lead := by
  rw [Expr.phrase, shown]
  rfl

theorem Rereads.grouped (rereads : Rereads e e') : e'.grouped e'.render = e.grouped e.render := by
  rw [Expr.grouped, Expr.grouped, rereads.render, rereads.atomic]

theorem Rereads.stands (rereads : Rereads e e') : Stands e.operand e' := by
  refine ⟨?_, operand_signed e⟩
  rw [Expr.operand, Phrase.grouped]
  split
  · exact rereads.built
  · exact rereads.built

theorem plain_piece (plain : e.isPlain = true) :
    piece e = .above (e.grouped e.render) ∧ e.part = .above e.operand ∧ Flat e := by
  cases e with
  | number | product | power => cases plain
  | symbol | constant | sum | apply => exact ⟨rfl, rfl, rfl⟩

/-- Names, calls and sums are factors as they are operands. -/
theorem Rereads.shows (rereads : Rereads e e') (plain : e.isPlain = true) :
    Shows ⟨e.grouped e.render, e.operand⟩ e' := by
  obtain ⟨piece, -, flat⟩ := plain_piece (rereads.plain.trans plain)
  exact ⟨rereads.stands, by rw [piece, rereads.grouped], flat⟩

theorem Rereads.factor (rereads : Rereads e e') (plain : e.isPlain = true) {text : String}
    (above : piece e = .above text) : ∃ p u, e.part = .above p ∧ Shows ⟨text, p⟩ u := by
  obtain ⟨piece, part, -⟩ := plain_piece plain
  cases piece.symm.trans above
  exact ⟨_, e', part, rereads.shows plain⟩

/-- A name or a call. -/
theorem kept_of_primary (plain : e.isPlain = true) (plain' : e'.isPlain = true)
    (sum : e'.isSum = false) (atomic : e'.isAtomic = e.isAtomic) (shown : e.shown = [⟨false, p⟩])
    (built : p.expr? = some e') (render : e'.render = e.render) : Kept e := by
  have number (q : ℚ) : e' = .number q ↔ e = .number q := by
    constructor
    · rintro rfl
      cases plain'
    · rintro rfl
      cases plain
  have rereads : Rereads e e' :=
    ⟨by rw [phrase_of_shown shown]; exact built, render, atomic, plain'.trans plain.symm, number⟩
  exact ⟨⟨e', rereads⟩, fun _ => ⟨_, e', e', shown, sum, sum, built, built, render, render⟩,
    fun _ above _ => rereads.factor plain above⟩

theorem kept_symbol {name : String} (valid : isName name = true) : Kept (.symbol name) := by
  refine kept_of_primary (p := .name name) rfl rfl rfl rfl ?_ (operand?_of_isName valid) rfl
  rw [Expr.shown]

theorem kept_constant (c : Constant) : Kept (.constant c) := by
  have known : operand? c.name = some (.constant c) := by cases c <;> rfl
  refine kept_of_primary (p := .name c.name) rfl rfl rfl rfl ?_ known rfl
  rw [Expr.shown]

theorem kept_apply (f : Function) (argument : Kept x) : Kept (.apply f x) := by
  obtain ⟨x', rereads⟩ := argument.whole
  have built : (Phrase.call f x.phrase).expr? = some (.apply f x') := by
    rw [Phrase.expr?, rereads.built, Option.map_some]
  have render : (Expr.apply f x').render = (Expr.apply f x).render := by
    rw [Expr.render, Expr.render, rereads.render]
  refine kept_of_primary (p := .call f x.phrase) rfl ?_ ?_ ?_ ?_ built render
  · rfl
  · rfl
  · rfl
  · rw [Expr.shown]
    rfl

theorem kept_number (q : ℚ) : Kept (.number q) := by
  obtain ⟨leads, follows⟩ := built_literal q
  have shown : (Expr.number q).shown = [⟨decide (q < 0), .ofRat q⟩] := by rw [Expr.shown]
  refine ⟨⟨.number q, ?_, rfl, rfl, rfl, fun _ => Iff.rfl⟩,
    fun _ => ⟨_, .number q, .number q, shown, rfl, rfl, leads, follows, rfl, rfl⟩,
    fun _ above => by cases above⟩
  rw [phrase_of_shown shown]
  exact leads

/-! ## Sums -/

theorem foldl_behind {terms : List Expr} (kept : ∀ x ∈ terms, Kept x)
    (flat : ∀ x ∈ terms, x.isSum = false) (first : p.expr? = some e) :
    ∃ laters : List Expr, ((terms.flatMap Expr.shown).foldl Summand.behind p).expr? =
        some (laters.foldl (· + ·) e) ∧
      laters.map Expr.render = terms.map Expr.render ∧ ∀ y ∈ laters, y.isSum = false := by
  induction terms generalizing p e with
  | nil => exact ⟨[], first, rfl, nofun⟩
  | cons x terms ih =>
    obtain ⟨keptHead, keptTail⟩ := List.forall_mem_cons.mp kept
    obtain ⟨flatHead, flatTail⟩ := List.forall_mem_cons.mp flat
    obtain ⟨s, lead, later, shown, -, proper, redisplays⟩ := keptHead.term flatHead
    have next : (Summand.behind p s).expr? = some (e + later) := by
      rw [Summand.expr?_behind, first, Option.bind_some, redisplays.follows, Option.map_some]
    obtain ⟨laters, built, texts, sums⟩ := ih keptTail flatTail next
    refine ⟨later :: laters, ?_, ?_, List.forall_mem_cons.mpr ⟨proper, sums⟩⟩
    · rw [List.flatMap_cons, shown]
      exact built
    · rw [List.map_cons, List.map_cons, redisplays.later_render, texts]

theorem foldl_add {terms : List Expr} (flat : ∀ y ∈ terms, y.isSum = false) (first : List Expr) :
    terms.foldl (· + ·) (.sum first) = .sum (first ++ terms) := by
  induction terms generalizing first with
  | nil => simp
  | cons y terms ih =>
    obtain ⟨head, tail⟩ := List.forall_mem_cons.mp flat
    have step : Expr.sum first + y = .sum (first ++ [y]) := by
      cases y with
      | sum => cases head
      | number | symbol | constant | product | power | apply => rfl
    rw [List.foldl_cons, step, ih tail]
    simp

theorem add_eq_sum {y : Expr} (first : e.isSum = false) (second : y.isSum = false) :
    e + y = .sum [e, y] := by
  have summands (z : Expr) (flat : z.isSum = false) : z.summands = [z] := by
    cases z with
    | sum => cases flat
    | number | symbol | constant | product | power | apply => rfl
  change Expr.sum (e.summands ++ y.summands) = _
  rw [summands e first, summands y second]
  rfl

theorem kept_sum (many : 2 ≤ xs.length) (flat : ∀ x ∈ xs, x.isSum = false)
    (kept : ∀ x ∈ xs, Kept x) : Kept (.sum xs) := by
  obtain ⟨first, second, rest, rfl⟩ : ∃ first second rest, xs = first :: second :: rest := by
    match xs, many with
    | first :: second :: rest, _ => exact ⟨first, second, rest, rfl⟩
  obtain ⟨keptHead, keptTail⟩ := List.forall_mem_cons.mp kept
  obtain ⟨flatHead, flatTail⟩ := List.forall_mem_cons.mp flat
  obtain ⟨s, lead, later, shown, leadFlat, -, redisplays⟩ := keptHead.term flatHead
  obtain ⟨laters, built, texts, latersFlat⟩ := foldl_behind keptTail flatTail redisplays.leads
  obtain ⟨second', rest', rfl⟩ : ∃ second' rest', laters = second' :: rest' := by
    cases laters with
    | nil => cases texts
    | cons second' rest' => exact ⟨second', rest', rfl⟩
  obtain ⟨flat', flatRest⟩ := List.forall_mem_cons.mp latersFlat
  rw [List.foldl_cons, add_eq_sum leadFlat flat', foldl_add flatRest] at built
  have render : (Expr.sum (lead :: second' :: rest')).render =
      (Expr.sum (first :: second :: rest)).render := by
    rw [Expr.render, Expr.render, renderAll_eq, renderAll_eq, List.map_cons,
      List.map_cons (l := second :: rest), redisplays.lead_render, texts]
  have rereads : Rereads (.sum (first :: second :: rest)) (.sum (lead :: second' :: rest')) := by
    refine ⟨?_, render, rfl, rfl, fun q => ⟨(fun same => by cases same), (fun same => by cases same)⟩⟩
    rw [Expr.phrase, Expr.shown, Expr.shownAll_eq, List.flatMap_cons, shown]
    · exact built
    · exact List.cons_ne_nil _ _
  exact ⟨⟨_, rereads⟩, (fun flat => by cases flat), fun _ above _ => rereads.factor rfl above⟩

/-! ## Powers -/

/-- A power that is a factor is a term and an operand as well. -/
theorem kept_of_shows {w b' w' : Expr} (shown : (Expr.power b w).shown = [⟨false, p⟩])
    (piece : piece (.power b w) = .above (Expr.power b w).render)
    (part : (Expr.power b w).part = .above p)
    (shows' : Shows ⟨(Expr.power b w).render, p⟩ (.power b' w'))
    (render : (Expr.power b' w').render = (Expr.power b w).render) : Kept (.power b w) := by
  refine ⟨⟨.power b' w', ?_, render, rfl, rfl, fun q => ⟨nofun, nofun⟩⟩,
    fun _ => ⟨_, _, _, shown, rfl, rfl, shows'.stands.built, shows'.stands.built, render, render⟩,
    fun text above _ => ?_⟩
  · rw [phrase_of_shown shown]
    exact shows'.stands.built
  · cases piece.symm.trans above
    exact ⟨p, _, part, shows'⟩

theorem kept_power {w : Expr} (base : Kept b) (exponent : Kept w) (proper : ∀ q, w ≠ .number q) :
    Kept (.power b w) := by
  obtain ⟨b', rereads⟩ := base.whole
  obtain ⟨w', rereads'⟩ := exponent.whole
  have proper' (q : ℚ) : w' ≠ .number q := fun number => proper q ((rereads'.number q).mp number)
  have written {v u : Expr} (literal : ∀ q, u ≠ .number q) :
      piece (.power v u) = .above (Expr.power v u).render := by
    rw [render_power literal, piece]
    exact literal
  have render : (Expr.power b' w').render = (Expr.power b w).render := by
    rw [render_power proper, render_power proper', rereads.grouped, rereads'.grouped]
  refine kept_of_shows (p := .power b.operand w.operand) ?_ (written proper) ?_
    ⟨⟨?_, rfl⟩, ?_, rfl⟩ render
  · rw [Expr.shown]
    · rfl
    · exact proper
  · rw [Expr.part]
    exact proper
  · rw [Phrase.expr?, rereads.stands.built, rereads'.stands.built]
    rfl
  · rw [written proper', render]

/-- A factor with a literal exponent. -/
theorem Rereads.raised (rereads : Rereads b e') (nonneg : 0 ≤ q) (proper : q ≠ 1) :
    Shows ⟨Expr.powerText (b.grouped b.render) q, b.operand.raised q⟩ (.power e' (.number q)) := by
  refine ⟨stands_raised rereads.stands proper, ?_, rfl⟩
  rw [piece, if_neg nonneg.not_gt, rereads.grouped]

theorem kept_raised (base : Kept b) (nonneg : 0 ≤ q) (proper : q ≠ 1) :
    Kept (.power b (.number q)) := by
  obtain ⟨b', rereads⟩ := base.whole
  have text (v : Expr) : (Expr.power v (.number q)).render =
      Expr.powerText (v.grouped v.render) q := by
    rw [Expr.render, if_neg nonneg.not_gt]
  have shows' : Shows ⟨(Expr.power b (.number q)).render, b.operand.raised q⟩
      (.power b' (.number q)) := by
    rw [text]
    exact rereads.raised nonneg proper
  refine kept_of_shows ?_ ?_ ?_ shows' ?_
  · rw [Expr.shown, if_neg nonneg.not_gt]
    rfl
  · rw [text, piece, if_neg nonneg.not_gt]
  · rw [Expr.part, if_neg nonneg.not_gt]
  · rw [text, text, rereads.grouped]

/-- A tree that is written as a quotient is read as a product. -/
theorem kept_of_redisplays {lead later : Expr} (plain : e.isPlain = false)
    (compound : e.isAtomic = false) (number : ∀ q, e ≠ .number q) (shown : e.shown = [s])
    (product : IsProduct lead) (product' : IsProduct later)
    (redisplays : Redisplays e.render s lead later)
    (divisor : ∀ text, piece e = .above text → e.isProduct = true) : Kept e := by
  obtain ⟨xs, rfl⟩ := product
  obtain ⟨ys, rfl⟩ := product'
  refine ⟨⟨.product xs, ?_, redisplays.lead_render, compound.symm, plain.symm,
    fun q => ⟨nofun, fun equal => absurd equal (number q)⟩⟩,
    fun _ => ⟨s, _, _, shown, rfl, rfl, redisplays⟩, fun text written flat => ?_⟩
  · rw [phrase_of_shown shown]
    exact redisplays.leads
  · cases (divisor text written).symm.trans flat

/-- The divisor that a base under a literal exponent is. -/
def bottomFactor (p : Expr × ℚ) : Factor :=
  ⟨Expr.powerText (p.1.grouped p.1.render) p.2, p.1.operand.raised p.2⟩

theorem bottomFactor_one (b : Expr) : bottomFactor (b, 1) = ⟨b.grouped b.render, b.operand⟩ := by
  simp [bottomFactor, Expr.powerText, Phrase.raised]

theorem Rereads.divides (rereads : Rereads b e') (nonzero : b ≠ .number 0) :
    Divides [bottomFactor (b, 1)] e' := by
  rw [bottomFactor_one]
  exact ⟨rereads.stands.built, rereads.grouped, fun zero => nonzero ((rereads.number 0).mp zero)⟩

theorem kept_inverse (base : Kept b) (proper : ∀ q, b ≠ .number q) :
    Kept (.power b (.number (-1))) := by
  obtain ⟨b', rereads⟩ := base.whole
  have negative : (-1 : ℚ) < 0 := by norm_num
  have divided : divisors 1 [bottomFactor (b, 1)] ≠ [] →
      ∃ v, Divides (divisors 1 [bottomFactor (b, 1)]) v ∧
        (([] : List Factor) = [] → ∀ q, v ≠ .number q) :=
    fun _ => ⟨b', rereads.divides (proper 0), fun _ q number =>
      proper q ((rereads.number q).mp number)⟩
  obtain ⟨lead, later, product, product', redisplays⟩ :=
    productText_redisplays one_ne_zero .nil (fun impossible => by cases impossible) divided
  have text : (Expr.power b (.number (-1))).render =
      productText 1 ([].map Factor.text) ([bottomFactor (b, 1)].map Factor.text) := by
    have quotient := (productText_nat one_ne_zero [] [b.grouped b.render]).1
    have start : "1/" = numeralsText 1 [] ++ "/" := by decide
    rw [Nat.cast_one] at quotient
    rw [bottomFactor_one, Expr.render, if_pos negative, neg_neg, Expr.powerText, if_pos rfl]
    exact (congrArg (· ++ _) start).trans quotient.symm
  rw [← text] at redisplays
  refine kept_of_redisplays rfl rfl (fun q same => by cases same) ?_ product product' redisplays fun t written => ?_
  · rw [Expr.shown, if_pos negative, neg_neg]
    rfl
  · rw [piece, if_pos negative] at written
    cases written

/-! ## Products -/

theorem top?_cases (x : Expr) : (x.top? = none ∧ above? (piece x) = none ∧ x.part.above? = none) ∨
    x.top? = some x ∧ ∃ text p, piece x = .above text ∧ x.part = .above p := by
  cases x with
  | number q => exact .inl ⟨rfl, rfl, rfl⟩
  | power b w =>
    cases w with
    | number q =>
      rw [Expr.top?, piece, Expr.part]
      split
      · exact .inl ⟨rfl, rfl, rfl⟩
      · exact .inr ⟨rfl, _, _, rfl, rfl⟩
    | symbol | constant | sum | product | power | apply => exact .inr ⟨rfl, _, _, rfl, rfl⟩
  | symbol | constant | sum | product | apply => exact .inr ⟨rfl, _, _, rfl, rfl⟩

theorem below?_piece (x : Expr) :
    below? (piece x) = (x.bottom?.map bottomFactor).map Factor.text ∧
      x.part.below? = (x.bottom?.map bottomFactor).map Factor.phrase := by
  cases x with
  | power b w =>
    cases w with
    | number q =>
      rw [piece, Expr.bottom?, Expr.part]
      split
      · exact ⟨rfl, rfl⟩
      · exact ⟨rfl, rfl⟩
    | symbol | constant | sum | product | power | apply => exact ⟨rfl, rfl⟩
  | number | symbol | constant | sum | product | apply => exact ⟨rfl, rfl⟩

theorem bottom?_pos {p : Expr × ℚ} (found : x.bottom? = some p) : 0 < p.2 := by
  cases x with
  | power b w =>
    cases w with
    | number q =>
      rw [Expr.bottom?] at found
      split at found
      · rename_i negative
        cases found
        exact neg_pos.mpr negative
      · cases found
    | symbol | constant | sum | product | power | apply => cases found
  | number | symbol | constant | sum | product | apply => cases found

theorem factor_part (x : Expr) : x.part.factor = literal (piece x) := by
  cases x with
  | power b w =>
    cases w with
    | number q =>
      rw [piece, Expr.part]
      split
      · rfl
      · rfl
    | symbol | constant | sum | product | power | apply => rfl
  | number | symbol | constant | sum | product | apply => rfl

theorem filterMap_below (xs : List Expr) :
    (xs.map piece).filterMap below? =
        ((xs.filterMap Expr.bottom?).map bottomFactor).map Factor.text ∧
      (xs.map Expr.part).filterMap Part.below? =
        ((xs.filterMap Expr.bottom?).map bottomFactor).map Factor.phrase := by
  rw [List.filterMap_map, List.filterMap_map, List.map_filterMap, List.map_filterMap,
    List.map_filterMap]
  exact ⟨List.filterMap_congr fun x _ => (below?_piece x).1,
    List.filterMap_congr fun x _ => (below?_piece x).2⟩

/-- The factors of a product. -/
theorem tops_shown (kept : ∀ x ∈ xs.filterMap Expr.top?, Kept x)
    (flat : ∀ x ∈ xs, x.isProduct = false) :
    ∃ fs us, List.Forall₂ Shows fs us ∧ (xs.map piece).filterMap above? = fs.map Factor.text ∧
      (xs.map Expr.part).filterMap Part.above? = fs.map Factor.phrase ∧
      fs.length = (xs.filterMap Expr.top?).length := by
  induction xs with
  | nil => exact ⟨[], [], .nil, rfl, rfl, rfl⟩
  | cons x xs ih =>
    obtain ⟨flatHead, flatTail⟩ := List.forall_mem_cons.mp flat
    rw [List.map_cons, List.map_cons, List.filterMap_cons, List.filterMap_cons,
      List.filterMap_cons]
    rw [List.filterMap_cons] at kept
    obtain ⟨none, above, above'⟩ | ⟨some, text, p, above, above'⟩ := top?_cases x
    · rw [none] at kept ⊢
      rw [above, above']
      exact ih kept flatTail
    · rw [some] at kept ⊢
      obtain ⟨keptHead, keptTail⟩ := List.forall_mem_cons.mp kept
      obtain ⟨fs, us, shown, texts, phrases, length⟩ := ih keptTail flatTail
      obtain ⟨p', u, part, shows'⟩ := keptHead.factor text above flatHead
      cases above'.symm.trans part
      rw [above, above', texts, phrases]
      exact ⟨⟨text, p⟩ :: fs, u :: us, .cons shows' shown, rfl, rfl, congrArg (· + 1) length⟩

theorem bottoms_shown {bottoms : List (Expr × ℚ)} (kept : ∀ p ∈ bottoms, Kept p.1)
    (positive : ∀ p ∈ bottoms, 0 < p.2)
    (plain : ∀ p ∈ bottoms, p.2 = 1 → p.1.isPlain = true) :
    ∃ vs, List.Forall₂ Shows (bottoms.map bottomFactor) vs := by
  induction bottoms with
  | nil => exact ⟨[], .nil⟩
  | cons p bottoms ih =>
    obtain ⟨b, q⟩ := p
    obtain ⟨keptHead, keptTail⟩ := List.forall_mem_cons.mp kept
    obtain ⟨positiveHead, positiveTail⟩ := List.forall_mem_cons.mp positive
    obtain ⟨plainHead, plainTail⟩ := List.forall_mem_cons.mp plain
    obtain ⟨vs, shown⟩ := ih keptTail positiveTail plainTail
    obtain ⟨b', rereads⟩ := keptHead.whole
    obtain ⟨v, shows'⟩ : ∃ v, Shows (bottomFactor (b, q)) v := by
      by_cases one : q = 1
      · subst one
        rw [bottomFactor_one]
        exact ⟨b', rereads.shows (plainHead rfl)⟩
      · exact ⟨_, rereads.raised positiveHead.le one⟩
    exact ⟨v :: vs, .cons shows' shown⟩

theorem divides_nat {n : Nat} (nonzero : n ≠ 0) :
    Divides [⟨toString n, .number n⟩] (.number n) where
  built := rfl
  grouped := by
    have atomic : (Expr.number (n : ℚ)).isAtomic = true := by simp [Expr.isAtomic]
    rw [Expr.grouped, if_pos atomic, Expr.render, ratText, if_pos (Rat.den_natCast n)]
    rfl
  nonzero := by simpa using nonzero

theorem kept_product (flat : ∀ x ∈ xs, x.isProduct = false)
    (tops : ∀ x ∈ xs.filterMap Expr.top?, Kept x)
    (bottoms : ∀ p ∈ xs.filterMap Expr.bottom?, Kept p.1)
    (nonzero : Expr.coefficient (Expr.pieces xs) ≠ 0)
    (balanced : Balanced (Expr.coefficient (Expr.pieces xs)) (xs.filterMap Expr.top?)
      (xs.filterMap Expr.bottom?)) : Kept (.product xs) := by
  rw [pieces_eq] at nonzero balanced
  obtain ⟨fs, us, shown, texts, phrases, length⟩ := tops_shown tops flat
  obtain ⟨texts', phrases'⟩ := filterMap_below xs
  have spread : Spread (.product xs) (Expr.coefficient (xs.map piece)) (fs.map Factor.text)
      (((xs.filterMap Expr.bottom?).map bottomFactor).map Factor.text) := ⟨rfl, texts, texts'⟩
  have text := spread.render ⟨xs, rfl⟩ nonzero
  have factors : ((Expr.parts xs).map Part.factor).prod = Expr.coefficient (xs.map piece) := by
    rw [Expr.parts_eq, coefficient_eq, List.map_map, List.map_map]
    exact congrArg _ (List.map_congr_left fun x _ => factor_part x)
  have positive : ∀ p ∈ xs.filterMap Expr.bottom?, 0 < p.2 := by
    intro p member
    obtain ⟨x, -, found⟩ := List.mem_filterMap.mp member
    exact bottom?_pos found
  have shown' : (Expr.product xs).shown = [⟨decide (Expr.coefficient (xs.map piece) < 0),
      .divided (.numerals (Expr.coefficient (xs.map piece)).num.natAbs (fs.map Factor.phrase))
        ((divisors (Expr.coefficient (xs.map piece))
          ((xs.filterMap Expr.bottom?).map bottomFactor)).map Factor.phrase)⟩] := by
    rw [Expr.shown, Phrase.joined, factors, if_neg nonzero, Expr.parts_eq, phrases, phrases',
      divisors_phrase]
  generalize Expr.coefficient (xs.map piece) = c at nonzero balanced text shown'
  generalize xs.filterMap Expr.bottom? = below at bottoms balanced text positive shown'
  suffices redisplays : ∃ lead later, IsProduct lead ∧ IsProduct later ∧
      Redisplays (productText c (fs.map Factor.text) ((below.map bottomFactor).map Factor.text))
        ⟨decide (c < 0), .divided (.numerals c.num.natAbs (fs.map Factor.phrase))
          ((divisors c (below.map bottomFactor)).map Factor.phrase)⟩ lead later by
    obtain ⟨lead, later, product, product', redisplays⟩ := redisplays
    rw [← text] at redisplays
    exact kept_of_redisplays rfl rfl (fun q same => by cases same) shown' product product' redisplays fun _ _ => rfl
  have empty : fs = [] ↔ xs.filterMap Expr.top? = [] := by
    rw [← List.length_eq_zero_iff, ← List.length_eq_zero_iff, length]
  cases balanced with
  | undivided some several =>
    have some' : fs ≠ [] := fun none => some (empty.mp none)
    refine productText_redisplays nonzero shown (fun _ => ⟨some', fun one => ?_⟩) fun fraction => ?_
    · rw [length]
      exact several one
    · have proper : c.den ≠ 1 := fun whole => fraction (if_pos whole)
      rw [divisors, if_neg proper]
      exact ⟨_, divides_nat c.den_nz, fun none => absurd none some'⟩
  | @single b whole divisor proper =>
    obtain ⟨b', rereads⟩ := (bottoms (b, 1) List.mem_cons_self).whole
    have single : divisors c ([(b, (1 : ℚ))].map bottomFactor) = [bottomFactor (b, 1)] :=
      if_pos whole
    refine productText_redisplays nonzero shown (fun none => ?_) fun _ => ?_
    · rw [single] at none
      cases none
    · rw [single]
      exact ⟨b', rereads.divides divisor, fun none q number =>
        proper (empty.mp none) q ((rereads.number q).mp number)⟩
  | grouped some several plain =>
    obtain ⟨vs, shown'⟩ := bottoms_shown bottoms positive plain
    obtain ⟨v, divides, ys, rfl⟩ := divides_numerals (c := c) shown' (by simpa using some)
      (by simpa using several)
    refine productText_redisplays nonzero shown (fun none => ?_) fun _ =>
      ⟨_, divides, fun _ q same => by cases same⟩
    obtain ⟨p, rest, rfl⟩ := List.exists_cons_of_ne_nil some
    unfold divisors at none
    split at none
    · cases none
    · cases none

/-! ## Settled trees -/

theorem kept_of_settled (settled : Settled e) : Kept e := by
  induction settled with
  | number q => exact kept_number q
  | symbol valid => exact kept_symbol valid
  | constant c => exact kept_constant c
  | apply f _ ih => exact kept_apply f ih
  | sum many flat _ ih => exact kept_sum many flat ih
  | raised _ nonneg proper ih => exact kept_raised ih nonneg proper
  | inverse _ proper ih => exact kept_inverse ih proper
  | power _ _ proper ih ih' => exact kept_power ih ih' proper
  | product flat _ _ nonzero balanced ih ih' => exact kept_product flat ih ih' nonzero balanced

/-- The phrase of a settled tree builds a tree with the same text. -/
theorem exists_rereads (settled : Settled e) : ∃ e', Rereads e e' :=
  (kept_of_settled settled).whole

end Parser

end Discharge
