import Discharge.Proofs.Text.Phrasing

/-! What the phrases of an expression build. A product is built behind a minus sign
as well, where the sign goes to its first operand; a term is built at the start of a
sum and behind other terms. With every tree that is built goes what it is written
with in a product: a coefficient and the texts above and below the slash. A product
whose factors and divisors are written as before is written as before itself. -/

namespace Discharge

namespace Summand

/-- What the term adds to the terms before it. -/
def later? (s : Summand) : Option Expr :=
  if s.negative then s.body.expr?.map (-·) else s.body.expr?

theorem expr?_behind (p : Phrase) (s : Summand) :
    (behind p s).expr? = p.expr?.bind fun a => s.later?.map (a + ·) := by
  unfold behind later?
  cases s.negative
  · rfl
  · cases body : s.body.expr? with
    | none => simp [Phrase.expr?, body]
    | some e =>
      simp [Phrase.expr?, body]
      rfl

end Summand

namespace Parser

variable {text : String} {p : Phrase} {s : Summand} {f g u v w e e' : Expr} {q c c' : ℚ}
  {above below : List String}

/-! ## Products and their signs -/

/-- The phrase builds `f`, and behind a minus sign `g`. -/
structure Builds (p : Phrase) (f g : Expr) : Prop where
  plain : p.expr? = some f
  signed : p.signed.expr? = some g

/-- The phrase builds an operand of a product. -/
structure Stands (p : Phrase) (u : Expr) : Prop where
  built : p.expr? = some u
  signed : p.signed = .negative p

/-- An operand takes a minus sign as a whole. -/
theorem operand_signed (e : Expr) : e.operand.signed = .negative e.operand := by
  rw [Expr.operand, Phrase.grouped]
  split
  · rename_i atomic
    cases e with
    | number q =>
      rw [(phrase_of_natural atomic).2]
      rfl
    | symbol | constant | apply =>
      rw [Expr.phrase, Expr.shown]
      rfl
    | sum | product | power => cases atomic
  · rfl

theorem Stands.builds (stands : Stands p u) : Builds p u (-u) :=
  ⟨stands.built, by rw [stands.signed, Phrase.expr?, stands.built, Option.map_some]⟩

/-- Only literals are folded. -/
theorem times_eq_mul (proper : ∀ q, u ≠ .number q) : times f u = f * u := by
  unfold times
  split
  · exact absurd rfl (proper _)
  · rfl

theorem over?_eq_div (divisor : u ≠ .number 0) (proper : ∀ p q, f = .number p → u ≠ .number q) :
    over? f u = some (f / u) := by
  have nonzero : u.isLiteralZero = false := by
    rw [← Bool.not_eq_true, Expr.isLiteralZero_iff]
    exact divisor
  unfold over?
  rw [nonzero]
  split
  · rename_i contradictory
    cases contradictory
  · split
    · exact absurd rfl (proper _ _ rfl)
    · rfl

theorem Builds.times {p' : Phrase} (builds : Builds p f g) (built : p'.expr? = some u)
    (proper : ∀ q, u ≠ .number q) : Builds (.times p p') (f * u) (g * u) := by
  constructor
  · simp [Phrase.expr?, builds.plain, built, times_eq_mul proper]
  · simp [Phrase.signed, Phrase.expr?, builds.signed, built, times_eq_mul proper]

theorem Builds.quotient {p' : Phrase} (builds : Builds p f g) (built : p'.expr? = some u)
    (plain : over? f u = some v) (signed : over? g u = some w) : Builds (.quotient p p') v w := by
  constructor
  · simp [Phrase.expr?, builds.plain, built, plain]
  · simp [Phrase.signed, Phrase.expr?, builds.signed, built, signed]

theorem builds_ofRat (q : ℚ) : Builds (.ofRat q) (.number |q|) (.number (-|q|)) := by
  have numerator : ((q.num.natAbs : ℕ) : ℚ) = |(q.num : ℚ)| := by
    rw [Nat.cast_natAbs, Int.cast_abs]
  have first : Builds (.number (q.num.natAbs : ℚ)) (.number q.num.natAbs)
      (.number (-(q.num.natAbs : ℚ))) := ⟨rfl, rfl⟩
  unfold Phrase.ofRat
  split
  · rename_i whole
    have literal : |q| = q.num.natAbs := by
      rw [numerator, Rat.coe_int_num_of_den_eq_one whole]
    rw [literal]
    exact first
  · have divisor : (Expr.number (q.den : ℚ)).isLiteralZero = false := by simp [Expr.isLiteralZero]
    have quotient (r : ℚ) :
        over? (.number r) (.number (q.den : ℚ)) = some (.number (r / q.den)) := by
      unfold over?
      rw [divisor]
      rfl
    have literal : |q| = q.num.natAbs / q.den := by
      rw [numerator, ← Rat.num_div_den q, abs_div, Nat.abs_cast, Rat.num_div_den]
    have whole := first.quotient (Phrase.expr?.eq_1 (q.den : ℚ)) (quotient _) (quotient _)
    rwa [neg_div, ← literal] at whole

/-- What a literal is built from is the literal. -/
theorem built_literal (q : ℚ) : (Summand.join [⟨decide (q < 0), .ofRat q⟩]).expr? =
      some (.number q) ∧ Summand.later? ⟨decide (q < 0), .ofRat q⟩ = some (.number q) := by
  have builds := builds_ofRat q
  by_cases negative : q < 0
  · have absolute : -|q| = q := by rw [abs_of_neg negative, neg_neg]
    rw [absolute] at builds
    constructor
    · simpa [Summand.join, Summand.lead, negative] using builds.signed
    · have opposite : -Expr.number |q| = .number (-|q|) := rfl
      simp [Summand.later?, negative, builds.plain, opposite, absolute]
  · have absolute : |q| = q := abs_of_nonneg (not_lt.mp negative)
    rw [absolute] at builds
    constructor
    · simpa [Summand.join, Summand.lead, negative] using builds.plain
    · simpa [Summand.later?, negative] using builds.plain

theorem stands_raised (stands : Stands p v) (proper : q ≠ 1) :
    Stands (p.raised q) (.power v (.number q)) := by
  unfold Phrase.raised
  rw [if_neg proper]
  split
  · exact ⟨by simp [Phrase.expr?, stands.built], rfl⟩
  · exact ⟨by simp [Phrase.expr?, stands.built, (built_literal q).1], rfl⟩

/-! ## Pieces -/

/-- The tree is no product by itself. -/
def Flat (e : Expr) : Prop := e.multiplicands = [e]

/-- The tree is written as a product. -/
def IsProduct (e : Expr) : Prop := ∃ xs, e = .product xs

/-- As an operand of a product, the tree contributes the coefficient and the texts
above and below the slash. -/
structure Spread (e : Expr) (c : ℚ) (above below : List String) : Prop where
  coefficient : Expr.coefficient (e.multiplicands.map piece) = c
  above : (e.multiplicands.map piece).filterMap above? = above
  below : (e.multiplicands.map piece).filterMap below? = below

theorem isProduct_mul (f u : Expr) : IsProduct (f * u) := ⟨_, rfl⟩

theorem isProduct_div (f u : Expr) : IsProduct (f / u) := ⟨_, rfl⟩

theorem IsProduct.proper (product : IsProduct f) (q : ℚ) : f ≠ .number q := by
  obtain ⟨xs, rfl⟩ := product
  rintro ⟨⟩

theorem neg_eq_mul (proper : ∀ q, f ≠ .number q) : -f = Expr.int (-1) * f := by
  cases f with
  | number q => exact absurd rfl (proper q)
  | symbol | constant | sum | product | power | apply => rfl

theorem multiplicands_mul (f u : Expr) :
    (f * u).multiplicands = f.multiplicands ++ u.multiplicands := rfl

theorem Spread.mul {above' below' : List String} (first : Spread f c above below)
    (second : Spread u c' above' below') :
    Spread (f * u) (c * c') (above ++ above') (below ++ below') where
  coefficient := by
    rw [multiplicands_mul, List.map_append, coefficient_eq, List.map_append, List.prod_append,
      ← coefficient_eq, ← coefficient_eq, first.coefficient, second.coefficient]
  above := by
    rw [multiplicands_mul, List.map_append, List.filterMap_append, first.above, second.above]
  below := by
    rw [multiplicands_mul, List.map_append, List.filterMap_append, first.below, second.below]

theorem spread_number (q : ℚ) : Spread (.number q) q [] [] :=
  ⟨by simp [coefficient_eq, Expr.multiplicands, piece, literal], rfl, rfl⟩

theorem Spread.neg (spread : Spread f c above below) : Spread (-f) (-c) above below := by
  cases f with
  | number q =>
    obtain ⟨rfl, rfl, rfl⟩ : q = c ∧ [] = above ∧ [] = below := by
      have known := spread_number q
      exact ⟨known.coefficient.symm.trans spread.coefficient,
        known.above.symm.trans spread.above, known.below.symm.trans spread.below⟩
    exact spread_number (-q)
  | symbol | constant | sum | product | power | apply =>
    rw [neg_eq_mul (by rintro q ⟨⟩)]
    simpa [Expr.int] using (spread_number (-1)).mul spread

theorem Spread.div (spread : Spread f c above below) (u : Expr) :
    Spread (f / u) c above (below ++ [u.grouped u.render]) := by
  have inverse : Spread (.power u (.int (-1))) 1 [] [u.grouped u.render] := by
    have written : piece (.power u (.int (-1))) = .below (u.grouped u.render) := by
      simp [Expr.int, piece, Expr.powerText]
    constructor
    · simp [coefficient_eq, Expr.multiplicands, written, literal]
    · simp [Expr.multiplicands, written, above?]
    · simp [Expr.multiplicands, written, below?]
  have whole := spread.mul inverse
  rwa [mul_one, List.append_nil] at whole

/-- A product of texts in front of which a natural number stands, unless it is one. -/
def numeralsText (n : Nat) (texts : List String) : String :=
  "*".intercalate (if n = 1 ∧ texts ≠ [] then texts else toString n :: texts)

/-- A coefficient with texts above and below the slash. -/
def productText (c : ℚ) (above below : List String) : String :=
  quotientText ((if c < 0 then "-" else "") ++ numeralsText c.num.natAbs above)
    (if c.den = 1 then below else toString c.den :: below)

theorem Spread.render (spread : Spread e c above below) (product : IsProduct e) (nonzero : c ≠ 0) :
    e.render = productText c above below := by
  obtain ⟨xs, rfl⟩ := product
  obtain ⟨coefficient, above', below'⟩ := spread
  change Expr.coefficient (xs.map piece) = c at coefficient
  change (xs.map piece).filterMap above? = above at above'
  change (xs.map piece).filterMap below? = below at below'
  rw [render_product, pieces_eq, joinFactors_eq]
  dsimp only
  rw [coefficient, above', below', if_neg nonzero]
  rfl

theorem productText_nat {n : Nat} (nonzero : n ≠ 0) (above below : List String) :
    productText n above below = quotientText (numeralsText n above) below ∧
      productText (-n : ℚ) above below = "-" ++ quotientText (numeralsText n above) below := by
  have positive : (0 : ℚ) < n := by exact_mod_cast Nat.pos_of_ne_zero nonzero
  constructor
  · simp [productText, positive.not_gt]
  · simp [productText, positive, ← quotientText_minus]

/-! ## Numerators -/

/-- An operand of a product as it is written. -/
structure Factor where
  text : String
  phrase : Phrase

/-- What is built for the operand is written in a product as the operand is. -/
structure Shows (x : Factor) (u : Expr) : Prop where
  stands : Stands x.phrase u
  piece : piece u = .above x.text
  flat : Flat u

variable {x : Factor} {xs : List Factor} {us : List Expr}

theorem Shows.proper (shows' : Shows x u) (q : ℚ) : u ≠ .number q := by
  rintro rfl
  cases shows'.piece

theorem Shows.spread (shows' : Shows x u) : Spread u 1 [x.text] [] := by
  have single : u.multiplicands = [u] := shows'.flat
  constructor
  · simp [coefficient_eq, single, shows'.piece, literal]
  · simp [single, shows'.piece, above?]
  · simp [single, shows'.piece, below?]

theorem Builds.foldl (shown : List.Forall₂ Shows xs us) (first : Builds p f g) :
    Builds ((xs.map Factor.phrase).foldl .times p) (us.foldl (· * ·) f) (us.foldl (· * ·) g) := by
  induction shown generalizing p f g with
  | nil => exact first
  | cons shows' _ ih => exact ih (first.times shows'.stands.built shows'.proper)

theorem Spread.foldl (shown : List.Forall₂ Shows xs us) (first : Spread f c above []) :
    Spread (us.foldl (· * ·) f) c (above ++ xs.map Factor.text) [] := by
  induction shown generalizing f above with
  | nil => simpa using first
  | cons shows' _ ih =>
    have next := first.mul shows'.spread
    rw [mul_one, List.append_nil] at next
    simpa using ih next

theorem IsProduct.foldl (product : IsProduct f) : IsProduct (us.foldl (· * ·) f) := by
  induction us generalizing f with
  | nil => exact product
  | cons u us ih => exact ih (isProduct_mul f u)

/-- What a natural number with some factors builds, by itself and behind a minus
sign. -/
structure Numerator (n : Nat) (xs : List Factor) (f g : Expr) : Prop where
  builds : Builds (.numerals n (xs.map Factor.phrase)) f g
  plain : Spread f n (xs.map Factor.text) []
  signed : Spread g (-n) (xs.map Factor.text) []
  proper : xs ≠ [] → ∀ q, f ≠ .number q
  isProduct : xs ≠ [] → (n = 1 → 2 ≤ xs.length) → IsProduct f
  signed_isProduct : xs ≠ [] → IsProduct g

theorem exists_numerator (n : Nat) (shown : List.Forall₂ Shows xs us) :
    ∃ f g, Numerator n xs f g := by
  have number : Builds (.number (n : ℚ)) (.number n) (.number (-n : ℚ)) := ⟨rfl, rfl⟩
  cases shown with
  | nil =>
    refine ⟨.number n, .number (-n : ℚ), ?_, spread_number _, spread_number _, ?_, ?_, ?_⟩
    · simpa [Phrase.numerals, Phrase.factors] using number
    all_goals exact fun impossible => absurd rfl impossible
  | @cons x u xs us shows' others =>
    by_cases one : n = 1
    · subst one
      have spread : Spread u (1 : ℕ) [x.text] [] := by simpa using shows'.spread
      refine ⟨us.foldl (· * ·) u, us.foldl (· * ·) (-u), ?_, spread.foldl others,
        spread.neg.foldl others, fun _ => ?_, fun _ several => ?_, fun _ => ?_⟩
      · simpa [Phrase.numerals, Phrase.factors] using shows'.stands.builds.foldl others
      · cases others with
        | nil => exact shows'.proper
        | cons =>
          rw [List.foldl_cons]
          exact (isProduct_mul u _).foldl.proper
      · cases others with
        | nil => exact absurd (several rfl) (by simp)
        | cons =>
          rw [List.foldl_cons]
          exact (isProduct_mul u _).foldl
      · rw [neg_eq_mul shows'.proper]
        exact (isProduct_mul _ u).foldl
    · refine ⟨us.foldl (· * ·) (.number n * u), us.foldl (· * ·) (.number (-n : ℚ) * u), ?_,
        (spread_number n).foldl (.cons shows' others),
        (spread_number (-n)).foldl (.cons shows' others), fun _ => ?_, fun _ _ => ?_, fun _ => ?_⟩
      · simpa [Phrase.numerals, Phrase.factors, one] using number.foldl (.cons shows' others)
      · exact (isProduct_mul _ u).foldl.proper
      · exact (isProduct_mul _ u).foldl
      · exact (isProduct_mul _ u).foldl

/-! ## Quotients -/

/-- The text after the slash. -/
def divisorText : List String → String
  | [t] => t
  | ts => "(" ++ "*".intercalate ts ++ ")"

/-- The phrase after the slash. -/
def divisorPhrase : List Phrase → Phrase
  | [p] => p
  | ps => .group (.factors ps)

theorem quotientText_eq {texts : List String} (some : texts ≠ []) (a : String) :
    quotientText a texts = a ++ "/" ++ divisorText texts := by
  match texts with
  | [] => exact absurd rfl some
  | [t] => rfl
  | t :: t' :: ts =>
    have opening : "/(" = "/" ++ "(" := by decide
    simp only [quotientText, divisorText, opening, String.append_assoc]

theorem divided_eq {ps : List Phrase} (some : ps ≠ []) (p : Phrase) :
    Phrase.divided p ps = .quotient p (divisorPhrase ps) := by
  match ps with
  | [] => exact absurd rfl some
  | [p'] => rfl
  | p' :: p'' :: ps => rfl

/-- What stands after the slash builds a tree that stands there again. -/
structure Divides (ds : List Factor) (v : Expr) : Prop where
  built : (divisorPhrase (ds.map Factor.phrase)).expr? = some v
  grouped : v.grouped v.render = divisorText (ds.map Factor.text)
  nonzero : v ≠ .number 0

/-- The term builds trees that are written by the text, at the start of a sum and
behind other terms. -/
structure Redisplays (text : String) (s : Summand) (lead later : Expr) : Prop where
  leads : s.lead.expr? = some lead
  follows : s.later? = some later
  lead_render : lead.render = text
  later_render : later.render = text

/-- A quotient with a sign. -/
theorem exists_redisplays {n : Nat} (nonzero : n ≠ 0) (builds : Builds p f g)
    (plain : Spread f n above below) (signed : Spread g (-n) above below)
    (proper : ∀ q, f ≠ .number q) (product : IsProduct g) (negative : Prop) [Decidable negative]
    (unsigned : ¬negative → IsProduct f) :
    ∃ lead later, IsProduct lead ∧ IsProduct later ∧ Redisplays
      ((if negative then "-" else "") ++ quotientText (numeralsText n above) below)
      ⟨decide negative, p⟩ lead later := by
  obtain ⟨positiveText, negativeText⟩ := productText_nat nonzero above below
  have cast : (n : ℚ) ≠ 0 := by exact_mod_cast nonzero
  by_cases sign : negative
  · have opposite : IsProduct (-f) := by
      rw [neg_eq_mul proper]
      exact isProduct_mul _ f
    refine ⟨g, -f, product, opposite, ?_, ?_, ?_, ?_⟩
    · simpa [Summand.lead, sign] using builds.signed
    · simp [Summand.later?, sign, builds.plain]
    · rw [signed.render product (neg_ne_zero.mpr cast), negativeText, if_pos sign]
    · rw [plain.neg.render opposite (neg_ne_zero.mpr cast), negativeText, if_pos sign]
  · have same : f.render = "" ++ quotientText (numeralsText n above) below := by
      rw [plain.render (unsigned sign) cast, positiveText, String.empty_append]
    refine ⟨f, f, unsigned sign, unsigned sign, ?_, ?_, ?_, ?_⟩
    · simpa [Summand.lead, sign] using builds.plain
    · simpa [Summand.later?, sign] using builds.plain
    · rw [same, if_neg sign]
    · rw [same, if_neg sign]

/-- The denominator of a coefficient, if it is written, and the other divisors. -/
def divisors (c : ℚ) (ds : List Factor) : List Factor :=
  if c.den = 1 then ds else ⟨toString c.den, .number c.den⟩ :: ds

theorem divisors_text (c : ℚ) (ds : List Factor) :
    (divisors c ds).map Factor.text =
      if c.den = 1 then ds.map Factor.text else toString c.den :: ds.map Factor.text := by
  unfold divisors
  split <;> rfl

theorem divisors_phrase (c : ℚ) (ds : List Factor) :
    (divisors c ds).map Factor.phrase =
      if c.den = 1 then ds.map Factor.phrase else .number c.den :: ds.map Factor.phrase := by
  unfold divisors
  split <;> rfl

/-- A product with factors `xs` and divisors `ds`, under the conditions that keep it
from being folded into a literal or read as its single factor. -/
theorem productText_redisplays {ds : List Factor} (nonzero : c ≠ 0)
    (shown : List.Forall₂ Shows xs us)
    (undivided : divisors c ds = [] → xs ≠ [] ∧ (c = 1 → 2 ≤ xs.length))
    (divided : divisors c ds ≠ [] → ∃ v, Divides (divisors c ds) v ∧
      (xs = [] → ∀ q, v ≠ .number q)) :
    ∃ lead later, IsProduct lead ∧ IsProduct later ∧
      Redisplays (productText c (xs.map Factor.text) (ds.map Factor.text))
        ⟨decide (c < 0), .divided (.numerals c.num.natAbs (xs.map Factor.phrase))
          ((divisors c ds).map Factor.phrase)⟩ lead later := by
  obtain ⟨f, g, numerator⟩ := exists_numerator c.num.natAbs shown
  have top : c.num.natAbs ≠ 0 := Int.natAbs_ne_zero.mpr (Rat.num_ne_zero.mpr nonzero)
  have text : productText c (xs.map Factor.text) (ds.map Factor.text) =
      (if c < 0 then "-" else "") ++ quotientText (numeralsText c.num.natAbs (xs.map Factor.text))
        ((divisors c ds).map Factor.text) := by
    rw [divisors_text, productText]
    split
    · rw [quotientText_minus]
    · rw [String.empty_append, String.empty_append]
  rw [text]
  by_cases none : divisors c ds = []
  · have whole : c.den = 1 := by
      by_contra fraction
      simp [divisors, fraction] at none
    obtain ⟨some, several⟩ := undivided none
    rw [none]
    refine exists_redisplays top numerator.builds numerator.plain numerator.signed
      (numerator.proper some) (numerator.signed_isProduct some) (c < 0) fun nonneg => ?_
    refine numerator.isProduct some fun one => several ?_
    have literal : ((c.num.natAbs : ℕ) : ℚ) = c := by
      rw [Nat.cast_natAbs, abs_of_nonneg (Rat.num_nonneg.mpr (not_lt.mp nonneg))]
      exact Rat.coe_int_num_of_den_eq_one whole
    rw [← literal, one, Nat.cast_one]
  · obtain ⟨v, divides, literal⟩ := divided none
    have folded (h : Expr) (source : xs ≠ [] → ∀ q, h ≠ .number q) (r q : ℚ) :
        h = .number r → v ≠ .number q := by
      intro number
      by_cases some : xs = []
      · exact literal some q
      · exact absurd number (source some r)
    have builds := numerator.builds.quotient divides.built
      (over?_eq_div divides.nonzero (folded f numerator.proper))
      (over?_eq_div divides.nonzero (folded g fun some =>
        (numerator.signed_isProduct some).proper))
    have plain := numerator.plain.div v
    have signed := numerator.signed.div v
    rw [divides.grouped, List.nil_append] at plain signed
    have same : quotientText (numeralsText c.num.natAbs (xs.map Factor.text))
        [divisorText ((divisors c ds).map Factor.text)] =
        quotientText (numeralsText c.num.natAbs (xs.map Factor.text))
          ((divisors c ds).map Factor.text) := by
      have some : (divisors c ds).map Factor.text ≠ [] := by simp [none]
      rw [quotientText_eq some]
      rfl
    rw [divided_eq (by simpa using none), ← same]
    exact exists_redisplays top builds plain signed (isProduct_div f v).proper (isProduct_div g v)
      (c < 0) fun _ => isProduct_div f v

/-- Several divisors in parentheses. -/
theorem divides_numerals {ds : List Factor} (shown : List.Forall₂ Shows ds us) (some : ds ≠ [])
    (several : c.den = 1 → 2 ≤ ds.length) : ∃ v, Divides (divisors c ds) v ∧ IsProduct v := by
  obtain ⟨f, g, numerator⟩ := exists_numerator c.den shown
  have product := numerator.isProduct some several
  have cast : (c.den : ℚ) ≠ 0 := by exact_mod_cast c.den_nz
  have render : f.render = numeralsText c.den (ds.map Factor.text) := by
    rw [numerator.plain.render product cast, (productText_nat c.den_nz _ []).1]
    rfl
  obtain ⟨d, rest, rfl⟩ := List.exists_cons_of_ne_nil some
  have text : divisorText ((divisors c (d :: rest)).map Factor.text) =
      "(" ++ numeralsText c.den ((d :: rest).map Factor.text) ++ ")" := by
    rw [divisors_text]
    by_cases one : c.den = 1
    · obtain ⟨d', rest, rfl⟩ := List.exists_cons_of_ne_nil
        (l := rest) (by rintro rfl; simpa using several one)
      simp [one, divisorText, numeralsText]
    · simp [one, divisorText, numeralsText]
  have phrase : divisorPhrase ((divisors c (d :: rest)).map Factor.phrase) =
      .group (.numerals c.den ((d :: rest).map Factor.phrase)) := by
    rw [divisors_phrase]
    by_cases one : c.den = 1
    · obtain ⟨d', rest, rfl⟩ := List.exists_cons_of_ne_nil
        (l := rest) (by rintro rfl; simpa using several one)
      simp [one, divisorPhrase, Phrase.numerals]
    · simp [one, divisorPhrase, Phrase.numerals]
  refine ⟨f, ⟨?_, ?_, product.proper 0⟩, product⟩
  · rw [phrase, Phrase.expr?]
    exact numerator.builds.plain
  · obtain ⟨ys, rfl⟩ := product
    rw [text, ← render]
    rfl

end Parser

end Discharge
