import Discharge.Proofs.Text.Grammar
import Discharge.Proofs.Text.RoundTrip
import Discharge.Proofs.Text.Splitting

/-! The parser recognises the grammar. What it reads is derived, and what is
derived it reads, unless a divisor folds to zero; the expression it returns has
the value of the one phrase the text is derived as. -/

namespace Discharge

namespace Phrase

/-- The number that a phrase of literals, signs, products, quotients and
parentheses folds to. -/
def folded : Phrase → Option ℚ
  | .number q => some q
  | .group p => p.folded
  | .negative p => p.folded.map (-·)
  | .positive p => p.folded
  | .times p q => p.folded.bind fun a => q.folded.map (a * ·)
  | .quotient p q => p.folded.bind fun a => q.folded.map (a / ·)
  | _ => none

/-- All phrases that stand behind a slash. -/
def divisors : Phrase → List Phrase
  | .number _ | .name _ => []
  | .call _ p | .group p | .negative p | .positive p => p.divisors
  | .quotient p q => q :: (p.divisors ++ q.divisors)
  | .power p q | .times p q | .plus p q | .minus p q => p.divisors ++ q.divisors

/-- No divisor folds to zero. -/
def Admissible (p : Phrase) : Prop := ∀ d ∈ p.divisors, d.folded ≠ some 0

/-- The value of a name: five of them are constants. -/
def nameValue {K : Type*} (I : Interpretation K) : String → K
  | "pi" => I.constant .pi
  | "E" | "e" => I.constant .euler
  | "I" | "i" => I.constant .imaginary
  | n => I.symbol n

/-- The value of a phrase: arithmetic is that of the field. -/
def value {K : Type*} [Field K] (I : Interpretation K) : Phrase → K
  | .number q => q
  | .name n => nameValue I n
  | .call f p => I.apply f (p.value I)
  | .group p => p.value I
  | .power p q => I.pow (p.value I) (q.value I)
  | .negative p => -p.value I
  | .positive p => p.value I
  | .times p q => p.value I * q.value I
  | .quotient p q => p.value I / q.value I
  | .plus p q => p.value I + q.value I
  | .minus p q => p.value I - q.value I

/-- The expression that is built for a phrase; none where a division is refused. -/
def expr? : Phrase → Option Expr
  | .number q => some (.number q)
  | .name n => Parser.operand? n
  | .call f p => p.expr?.map (.apply f)
  | .group p => p.expr?
  | .power p q => p.expr?.bind fun b => q.expr?.map (.power b)
  | .negative p => p.expr?.map (-·)
  | .positive p => p.expr?
  | .times p q => p.expr?.bind fun a => q.expr?.map (Parser.times a)
  | .quotient p q => p.expr?.bind fun a => q.expr?.bind (Parser.over? a)
  | .plus p q => p.expr?.bind fun a => q.expr?.map (a + ·)
  | .minus p q => p.expr?.bind fun a => q.expr?.map (a - ·)

end Phrase

namespace Parser

variable {c : Category} {ts us : List Token} {p q : Phrase} {e : Expr}

/-! ## What a phrase is worth -/

theorem operand?_eq_some {n : String} (finite : n ≠ "oo" ∧ n ≠ "inf") :
    ∃ e, operand? n = some e ∧ e.rational? = none := by
  unfold operand?
  split
  all_goals first | exact ⟨_, rfl, rfl⟩ | exact absurd rfl finite.1 | exact absurd rfl finite.2

theorem value_operand {K : Type*} [Field K] (I : Interpretation K) {n : String}
    (known : operand? n = some e) : e.value I = Phrase.nameValue I n := by
  unfold operand? at known
  split at known
  all_goals first | cases known; simp [Phrase.nameValue] | cases known

theorem rational?_neg (e : Expr) : (-e).rational? = e.rational?.map (-·) := by
  cases e <;> rfl

theorem rational?_times (a b : Expr) :
    (times a b).rational? = a.rational?.bind fun x => b.rational?.map (x * ·) := by
  cases a with
  | number x => cases b <;> rfl
  | _ => rfl

/-- A division is refused exactly by a literal zero. -/
theorem over?_cases (a b : Expr) :
    (b.rational? = some 0 ∧ over? a b = none) ∨
      (b.rational? ≠ some 0 ∧ ∃ e, over? a b = some e ∧
        e.rational? = a.rational?.bind fun x => b.rational?.map (x / ·)) := by
  have literal : b.isLiteralZero = true ↔ b.rational? = some 0 := by
    cases b <;> simp [Expr.isLiteralZero, Expr.rational?]
  unfold over?
  by_cases zero : b.isLiteralZero = true
  · exact .inl ⟨literal.mp zero, if_pos zero⟩
  · refine .inr ⟨fun rational => zero (literal.mpr rational), ?_⟩
    rw [if_neg zero]
    cases a with
    | number x => cases b <;> exact ⟨_, rfl, rfl⟩
    | _ => exact ⟨_, rfl, rfl⟩

/-- An expression is built for the phrase exactly if the phrase is admissible, and
it is a literal exactly if the phrase folds to that. -/
inductive Built (p : Phrase) : Prop
  | built {e : Expr} (admissible : p.Admissible) (expr : p.expr? = some e)
    (folded : e.rational? = p.folded)
  | refused (inadmissible : ¬ p.Admissible) (expr : p.expr? = none)

variable {r : Phrase}

theorem Built.wrap {g : Expr → Expr} (inner : Built p) (expr : r.expr? = p.expr?.map g)
    (divisors : r.divisors = p.divisors)
    (folded : ∀ e, e.rational? = p.folded → (g e).rational? = r.folded) : Built r := by
  have same : r.Admissible ↔ p.Admissible := by rw [Phrase.Admissible, divisors, Phrase.Admissible]
  cases inner with
  | built admissible read fold =>
    exact .built (same.mpr admissible) (by rw [expr, read, Option.map_some]) (folded _ fold)
  | refused inadmissible read =>
    exact .refused (mt same.mp inadmissible) (by rw [expr, read, Option.map_none])

theorem Built.combine {g : Expr → Expr → Expr} (left : Built p) (right : Built q)
    (expr : r.expr? = p.expr?.bind fun a => q.expr?.map (g a))
    (divisors : r.divisors = p.divisors ++ q.divisors)
    (folded : ∀ a b, a.rational? = p.folded → b.rational? = q.folded →
      (g a b).rational? = r.folded) : Built r := by
  have both : r.Admissible ↔ p.Admissible ∧ q.Admissible := by
    rw [Phrase.Admissible, divisors, List.forall_mem_append, Phrase.Admissible, Phrase.Admissible]
  cases left with
  | refused inadmissible read =>
    exact .refused (fun all => inadmissible (both.mp all).1) (by rw [expr, read, Option.bind_none])
  | built admissible read fold =>
    cases right with
    | refused inadmissible read' =>
      refine .refused (fun all => inadmissible (both.mp all).2) ?_
      rw [expr, read, Option.bind_some, read', Option.map_none]
    | built admissible' read' fold' =>
      refine .built (both.mpr ⟨admissible, admissible'⟩) ?_ (folded _ _ fold fold')
      rw [expr, read, Option.bind_some, read', Option.map_some]

theorem Built.quotient (left : Built p) (right : Built q) : Built (.quotient p q) := by
  have all : (Phrase.quotient p q).Admissible ↔
      q.folded ≠ some 0 ∧ p.Admissible ∧ q.Admissible := by
    rw [Phrase.Admissible, Phrase.divisors, List.forall_mem_cons, List.forall_mem_append]
    rfl
  cases left with
  | refused inadmissible read =>
    exact .refused (fun each => inadmissible (all.mp each).2.1)
      (by rw [Phrase.expr?, read, Option.bind_none])
  | @built a admissible read fold =>
    cases right with
    | refused inadmissible read' =>
      exact .refused (fun each => inadmissible (all.mp each).2.2)
        (by rw [Phrase.expr?, read, Option.bind_some, read', Option.bind_none])
    | @built b admissible' read' fold' =>
      have expr : (Phrase.quotient p q).expr? = over? a b := by
        rw [Phrase.expr?, read, Option.bind_some, read', Option.bind_some]
      rcases over?_cases a b with ⟨zero, refused⟩ | ⟨nonzero, e, quotient, literal⟩
      · exact .refused (fun each => (all.mp each).1 (fold'.symm.trans zero)) (expr.trans refused)
      · refine .built (all.mpr ⟨fold' ▸ nonzero, admissible, admissible'⟩) (expr.trans quotient) ?_
        rw [literal, fold, fold', Phrase.folded]

theorem Derives.built (derives : Derives c ts p) : Built p := by
  have id_map : ∀ {r : Option Expr}, r = r.map id := Option.map_id'.symm ▸ rfl
  induction derives with
  | number q => exact .built (by simp [Phrase.Admissible, Phrase.divisors]) rfl rfl
  | name finite =>
    obtain ⟨e, known, literal⟩ := operand?_eq_some finite
    exact .built (by simp [Phrase.Admissible, Phrase.divisors]) known literal
  | group _ ih => exact ih.wrap id_map rfl fun _ => id
  | call known _ ih => exact ih.wrap rfl rfl fun _ _ => rfl
  | power _ _ ih ih' => exact ih.combine ih' rfl rfl fun _ _ _ _ => rfl
  | negative _ ih =>
    refine ih.wrap rfl rfl fun e fold => ?_
    rw [rational?_neg, fold, Phrase.folded]
  | positive _ ih => exact ih.wrap id_map rfl fun _ => id
  | times _ _ ih ih' =>
    refine ih.combine ih' rfl rfl fun a b fold fold' => ?_
    rw [rational?_times, fold, fold', Phrase.folded]
  | quotient _ _ ih ih' => exact ih.quotient ih'
  | plus _ _ ih ih' => exact ih.combine ih' rfl rfl fun _ _ _ _ => rfl
  | minus _ _ ih ih' => exact ih.combine ih' rfl rfl fun _ _ _ _ => rfl
  | base _ ih | unsigned _ ih | factor _ ih | term _ ih => exact ih

/-- What is built has the value of the phrase. -/
theorem value_expr? {K : Type*} [Field K] [CharZero K] {I : Interpretation K}
    (inverse : ∀ x, I.pow x (-1) = x⁻¹) (expr : p.expr? = some e) : e.value I = p.value I := by
  induction p generalizing e with
  | number q =>
    cases expr
    exact Expr.value_number I q
  | name n => exact value_operand I expr
  | group p ih => exact ih expr
  | positive p ih => exact ih expr
  | negative p ih =>
    obtain ⟨a, left, rfl⟩ := Option.map_eq_some_iff.mp expr
    rw [Expr.value_neg, ih left, Phrase.value]
  | call f p ih =>
    obtain ⟨a, left, rfl⟩ := Option.map_eq_some_iff.mp expr
    rw [Expr.value_apply, ih left, Phrase.value]
  | power p q ih ih' =>
    obtain ⟨a, left, rest⟩ := Option.bind_eq_some_iff.mp expr
    obtain ⟨b, right, rfl⟩ := Option.map_eq_some_iff.mp rest
    rw [Expr.value_power, ih left, ih' right, Phrase.value]
  | times p q ih ih' =>
    obtain ⟨a, left, rest⟩ := Option.bind_eq_some_iff.mp expr
    obtain ⟨b, right, rfl⟩ := Option.map_eq_some_iff.mp rest
    rw [value_times, ih left, ih' right, Phrase.value]
  | quotient p q ih ih' =>
    obtain ⟨a, left, rest⟩ := Option.bind_eq_some_iff.mp expr
    obtain ⟨b, right, quotient⟩ := Option.bind_eq_some_iff.mp rest
    rw [value_over inverse quotient, ih left, ih' right, Phrase.value]
  | plus p q ih ih' =>
    obtain ⟨a, left, rest⟩ := Option.bind_eq_some_iff.mp expr
    obtain ⟨b, right, rfl⟩ := Option.map_eq_some_iff.mp rest
    rw [Expr.value_add, ih left, ih' right, Phrase.value]
  | minus p q ih ih' =>
    obtain ⟨a, left, rest⟩ := Option.bind_eq_some_iff.mp expr
    obtain ⟨b, right, rfl⟩ := Option.map_eq_some_iff.mp rest
    rw [Expr.value_sub, ih left, ih' right, Phrase.value]

/-! ## What is derived is read -/

/-- The tokens of a category are read as `r`; a sum and a product as a first
operand and the ones behind it. -/
def Readable : Category → List Token → Option Expr → Prop
  | .primary, ts, r => Reads .primary ts r
  | .power, ts, r | .unary, ts, r => Reads .unary ts r
  | .product, ts, r =>
    ∃ us vs s k, ts = us ++ vs ∧ Reads .unary us s ∧ Factors vs k ∧ r = s.bind k
  | .sum, ts, r =>
    ∃ us vs s k, ts = us ++ vs ∧ Reads .product us s ∧ Summands vs k ∧ r = s.bind k

variable {x y : Option Expr} {k : Expr → Option Expr}

theorem Readable.factors (left : Readable .product ts x) (factors : Factors us k) :
    Readable .product (ts ++ us) (x.bind k) := by
  obtain ⟨first, others, s, l, rfl, head, tail, rfl⟩ := left
  exact ⟨first, others ++ us, s, _, List.append_assoc _ _ _, head, tail.append factors,
    Option.bind_assoc _ _ _⟩

theorem Readable.summands (left : Readable .sum ts x) (summands : Summands us k) :
    Readable .sum (ts ++ us) (x.bind k) := by
  obtain ⟨first, others, s, l, rfl, head, tail, rfl⟩ := left
  exact ⟨first, others ++ us, s, _, List.append_assoc _ _ _, head, tail.append summands,
    Option.bind_assoc _ _ _⟩

theorem Readable.reads_product (readable : Readable .product ts x) : Reads .product ts x := by
  obtain ⟨us, vs, s, k, rfl, first, factors, rfl⟩ := readable
  exact Parser.reads_product first factors

theorem Readable.reads_sum (readable : Readable .sum ts x) : Reads .sum ts x := by
  obtain ⟨us, vs, s, k, rfl, first, summands, rfl⟩ := readable
  exact Parser.reads_sum first summands

theorem Derives.readable (derives : Derives c ts p) : Readable c ts p.expr? := by
  induction derives with
  | number q => exact reads_number q
  | name finite =>
    obtain ⟨e, known, -⟩ := operand?_eq_some finite
    rw [Phrase.expr?, known]
    exact reads_word known
  | group _ ih => exact reads_group ih.reads_sum
  | call known _ ih => exact reads_call known ih.reads_sum
  | base base ih => exact reads_operand (base.opens (.inl rfl)) ih
  | power base _ ih ih' => exact reads_power (base.opens (.inl rfl)) ih ih'
  | negative _ ih => exact reads_negative ih
  | positive _ ih => exact reads_positive ih
  | unsigned _ ih => exact ih
  | factor _ ih =>
    exact ⟨_, [], _, some, (List.append_nil _).symm, ih, .nil, (Option.bind_fun_some _).symm⟩
  | times _ _ ih ih' =>
    have readable := ih.factors (.times ih' .nil)
    simpa only [List.append_nil, Phrase.expr?, Option.map_eq_bind, Function.comp_def] using readable
  | quotient _ _ ih ih' =>
    have readable := ih.factors (.divide ih' .nil)
    simpa only [List.append_nil, Phrase.expr?, Option.bind_fun_some] using readable
  | term _ ih =>
    exact ⟨_, [], _, some, (List.append_nil _).symm, ih.reads_product, .nil,
      (Option.bind_fun_some _).symm⟩
  | plus _ _ ih ih' =>
    have readable := ih.summands (.plus ih'.reads_product .nil)
    simpa only [List.append_nil, Phrase.expr?, Option.map_eq_bind, Function.comp_def] using readable
  | minus _ _ ih ih' =>
    have readable := ih.summands (.minus ih'.reads_product .nil)
    simpa only [List.append_nil, Phrase.expr?, Option.map_eq_bind, Function.comp_def] using readable

/-! ## What is read is derived -/

section Sound

variable {good good' : List Lexeme → Prop} {c' : Category} {ls : List Lexeme} {t : Token}
  {offset stop : Nat} {problem : Problem}
  {x : Except ParseError (Expr × { rest // good rest })}
  {f : Expr × { rest // good rest } → Except ParseError (Expr × { rest // good' rest })}

/-- If something is read, then the tokens `us` and those up to the rest make up
the category. -/
def Continues (c : Category) (us : List Token) (ls : List Lexeme)
    (outcome : Except ParseError (Expr × { rest // good rest })) : Prop :=
  Yields outcome fun r => ∃ ts p, ls.map Lexeme.token = ts ++ r.2.val.map Lexeme.token ∧
    Derives c (us ++ ts) p

/-- If something is read, then the tokens up to the rest are of the category. -/
abbrev Consumes (c : Category) (ls : List Lexeme)
    (outcome : Except ParseError (Expr × { rest // good rest })) : Prop :=
  Continues c [] ls outcome

theorem Continues.shift (read : Continues c (us ++ [t]) ls x) :
    Continues c us (⟨offset, t⟩ :: ls) x := by
  refine read.mono ?_
  rintro r ⟨ts, p, tokens, derives⟩
  refine ⟨t :: ts, p, by rw [List.map_cons, tokens, List.cons_append], ?_⟩
  rwa [List.append_assoc, List.singleton_append] at derives

/-- A part of another category, and what is read behind it. -/
theorem Continues.bind (first : Consumes c' ls x)
    (next : ∀ ts p, Derives c' ts p → ∀ r : Expr × { rest // good rest },
      Continues c (us ++ ts) r.2.val (f r)) : Continues c us ls (x >>= f) := by
  refine Ensures.bind first ?_
  rintro r ⟨ts, p, tokens, derives⟩
  refine (next ts p derives r).mono ?_
  rintro r' ⟨ts', p', tokens', derives'⟩
  refine ⟨ts ++ ts', p', by rw [tokens, tokens', List.append_assoc], ?_⟩
  rwa [← List.append_assoc]

theorem Continues.ok (derives : Derives c us p) {e : Expr} {holds : good ls} :
    Continues c us ls (.ok (e, ⟨ls, holds⟩)) :=
  ⟨[], p, rfl, by rwa [List.append_nil]⟩

/-- Another expression is made of what is read. -/
theorem Continues.map (read : Continues c us ls x)
    (made : ∀ r, ∃ e rest, f r = .ok (e, rest) ∧ rest.val = r.2.val) :
    Continues c us ls (x >>= f) := by
  refine Ensures.bind read ?_
  rintro r ⟨ts, p, tokens, derives⟩
  obtain ⟨e, rest, result, same⟩ := made r
  rw [result]
  exact ⟨ts, p, by rw [tokens, same], derives⟩

theorem Continues.weaken (read : Consumes c' ls x)
    (rule : ∀ {ts p}, Derives c' ts p → Derives c ts p) : Consumes c ls x := by
  refine read.mono ?_
  rintro r ⟨ts, p, tokens, derives⟩
  exact ⟨ts, p, tokens, rule derives⟩

theorem finite_of_operand? {n : String} (known : operand? n = some e) : n ≠ "oo" ∧ n ≠ "inf" := by
  constructor
  · rintro rfl
    cases known
  · rintro rfl
    cases known

theorem close_eq_ok {rest : Shorter ls} (closed : close stop problem ls = .ok rest) :
    ls.map Lexeme.token = .closeParen :: rest.val.map Lexeme.token := by
  unfold close at closed
  split at closed
  · cases closed
    rfl
  · cases closed

end Sound

/-- Every reader reads what is derived, by induction along the calls of the
readers. -/
theorem readers_sound (stop : Nat) :
    (∀ ls, Consumes .sum ls (sum stop ls)) ∧
    (∀ left ls us p, Derives .sum us p → Continues .sum us ls (sumTail stop left ls)) ∧
    (∀ ls, Consumes .product ls (product stop ls)) ∧
    (∀ left ls us p, Derives .product us p → Continues .product us ls (productTail stop left ls)) ∧
    (∀ ls, Consumes .unary ls (unary stop ls)) ∧
    (∀ ls, Consumes .power ls (power stop ls)) ∧
    (∀ ls, Consumes .primary ls (primary stop ls)) := by
  refine sum.mutual_induct _ _ _ _ _ _ _ ?_ ?_ ?_ ?_ ?_ ?_ ?_ ?_ ?_ ?_ ?_ ?_ ?_ ?_ ?_ ?_ ?_ ?_ ?_ ?_
  -- A sum and what goes on with it.
  · intro ls first tail
    rw [sum]
    refine .bind first fun ts p derives r => ?_
    exact (tail r.1 r.2.1 r.2.2 ts p (.term derives)).map fun r => ⟨_, _, rfl, rfl⟩
  · intro left offset ls operand tail us p derives
    rw [sumTail]
    refine .shift (.bind operand fun ts q derives' r => ?_)
    refine (tail r.1 r.2.1 r.2.2 _ (.plus p q) ?_).map fun r => ⟨_, _, rfl, rfl⟩
    rw [List.append_assoc]
    exact .plus derives derives'
  · intro left offset ls operand tail us p derives
    rw [sumTail]
    refine .shift (.bind operand fun ts q derives' r => ?_)
    refine (tail r.1 r.2.1 r.2.2 _ (.minus p q) ?_).map fun r => ⟨_, _, rfl, rfl⟩
    rw [List.append_assoc]
    exact .minus derives derives'
  · intro left ls plus minus us p derives
    rw [sumTail]
    · exact .ok derives
    · exact plus
    · exact minus
  -- A product and what goes on with it; a refused division reads nothing.
  · intro ls first tail
    rw [product]
    refine .bind first fun ts p derives r => ?_
    exact (tail r.1 r.2.1 r.2.2 ts p (.factor derives)).map fun r => ⟨_, _, rfl, rfl⟩
  · intro left offset ls operand tail us p derives
    rw [productTail]
    refine .shift (.bind operand fun ts q derives' r => ?_)
    refine (tail r.1 r.2.1 r.2.2 _ (.times p q) ?_).map fun r => ⟨_, _, rfl, rfl⟩
    rw [List.append_assoc]
    exact .times derives derives'
  · intro left offset ls operand tail us p derives
    rw [productTail]
    refine .shift (.bind operand fun ts q derives' r => ?_)
    dsimp only
    cases over? left r.1 with
    | none => trivial
    | some quotient =>
      refine (tail r.2.1 r.2.2 quotient _ (.quotient p q) ?_).map fun r => ⟨_, _, rfl, rfl⟩
      rw [List.append_assoc]
      exact .quotient derives derives'
  · intro left ls star slash us p derives
    rw [productTail]
    · exact .ok derives
    · exact star
    · exact slash
  -- Signs before an operand.
  · intro offset ls operand
    rw [unary]
    exact .shift (.bind operand fun ts p derives r => .ok (.negative derives))
  · intro offset ls operand
    rw [unary]
    exact .shift (.bind operand fun ts p derives r => .ok (.positive derives))
  · intro ls minus plus operand
    rw [unary]
    · exact operand.weaken .unsigned
    · exact minus
    · exact plus
  -- A power.
  · intro ls base exponent
    rw [power]
    refine .bind base fun ts p derives r => ?_
    obtain ⟨e, rest, shorter⟩ := r
    dsimp only
    split
    · rename_i offset rest shorter
      refine .shift (.bind (exponent rest offset rest shorter) fun us q derives' r => ?_)
      refine .ok (p := .power p q) ?_
      rw [List.append_assoc]
      exact .power derives derives'
    · exact .ok (.base derives)
  -- A primary: nothing, a number, a group, a call, a name, and any other token.
  · rw [primary]
    trivial
  · intro offset q ls
    rw [primary]
    exact .shift (.ok (.number q))
  · intro offset ls inner
    rw [primary]
    refine .shift (.bind inner fun ts p derives r => ?_)
    refine Yields.bind_ok fun rest closed => ⟨[.closeParen], .group p, close_eq_ok closed, ?_⟩
    simpa using Derives.group derives
  · intro offset name offset' ls unknown
    rw [primary]
    simp only [unknown]
    trivial
  · intro offset name offset' ls g known inner
    rw [primary]
    simp only [known]
    refine .shift (.shift (.bind inner fun ts p derives r => ?_))
    refine Yields.bind_ok fun rest closed => ⟨[.closeParen], .call g p, close_eq_ok closed, ?_⟩
    simpa using Derives.call known derives
  · intro offset name ls plain unknown
    rw [primary]
    · simp only [unknown]
      trivial
    · exact plain
  · intro offset name ls plain e known
    rw [primary]
    · simp only [known]
      exact .shift (.ok (.name (finite_of_operand? known)))
    · exact plain
  · intro offset token ls number paren call name
    rw [primary]
    · trivial
    all_goals assumption

/-! ## Whole texts -/

/-- What is read is derived from the tokens of the text. -/
theorem exists_derivation {text : String} (read : parse text = .ok e) :
    ∃ ts p, Token.Splits text.toList ts ∧ Derives .sum ts p := by
  unfold parse at read
  obtain ⟨ls, scanned, read⟩ := bind_eq_ok read
  split at read
  · cases read
  obtain ⟨⟨e', rest⟩, summed, read⟩ := bind_eq_ok read
  obtain ⟨ts, p, tokens, derives⟩ := ((readers_sound text.utf8ByteSize).1 ls).of_ok summed
  dsimp only at read
  split at read
  · rename_i nothing
    refine ⟨ts, p, Token.scanText_iff.mp ⟨ls, scanned, ?_⟩, derives⟩
    rw [tokens, nothing, List.map_nil, List.append_nil]
  · cases read

/-- What is derived is read as the expression of the phrase. -/
theorem Derives.parses {text : String} (splits : Token.Splits text.toList ts)
    (derives : Derives .sum ts p) : Parses text p.expr? := by
  obtain ⟨ls, scanned, rfl⟩ := Token.scanText_iff.mpr splits
  exact parses_of_scanText scanned derives.readable.reads_sum

/-- A text is an expression exactly if its tokens are derived as one and no
divisor folds to zero.  There is then one way to split it and one phrase, and the
expression that is read has the value of that phrase in every field. -/
theorem parse_recognises.{u} (text : String) :
    ((∃ e, Expr.parse text = .ok e) ↔
      ∃ ts p, Token.Splits text.toList ts ∧ Derives .sum ts p ∧ p.Admissible) ∧
    ∀ e, Expr.parse text = .ok e → ∃ ts p,
      (Token.Splits text.toList ts ∧ Derives .sum ts p ∧ p.Admissible) ∧
      (∀ ts' p', Token.Splits text.toList ts' → Derives .sum ts' p' → ts' = ts ∧ p' = p) ∧
      ∀ (K : Type u) [Field K] [CharZero K] (I : Interpretation K),
        (∀ x, I.pow x (-1) = x⁻¹) → e.value I = p.value I := by
  have derived : ∀ e, Expr.parse text = .ok e → ∃ ts p,
      Token.Splits text.toList ts ∧ Derives .sum ts p ∧ p.Admissible ∧ p.expr? = some e := by
    intro e read
    rw [Expr.parse_eq_ok] at read
    obtain ⟨ts, p, splits, derives⟩ := exists_derivation read
    have parses := derives.parses splits
    rcases derives.built with ⟨admissible, expr, -⟩ | ⟨-, expr⟩
    · rw [expr] at parses
      cases read.symm.trans parses
      exact ⟨ts, p, splits, derives, admissible, expr⟩
    · rw [expr] at parses
      obtain ⟨offset, failed⟩ := parses
      cases read.symm.trans failed
  refine ⟨⟨?_, ?_⟩, ?_⟩
  · rintro ⟨e, read⟩
    obtain ⟨ts, p, splits, derives, admissible, -⟩ := derived e read
    exact ⟨ts, p, splits, derives, admissible⟩
  · rintro ⟨ts, p, splits, derives, admissible⟩
    have parses := derives.parses splits
    rcases derives.built with ⟨-, expr, -⟩ | ⟨inadmissible, -⟩
    · rw [expr] at parses
      exact ⟨_, Expr.parse_eq_ok.mpr parses⟩
    · exact absurd admissible inadmissible
  · intro e read
    obtain ⟨ts, p, splits, derives, admissible, expr⟩ := derived e read
    refine ⟨ts, p, ⟨splits, derives, admissible⟩, ?_, ?_⟩
    · intro ts' p' splits' derives'
      obtain rfl := splits'.unique splits
      exact ⟨rfl, derives'.unique derives⟩
    · intro K _ _ I inverse
      exact value_expr? inverse expr

end Parser

end Discharge
