import Discharge.Expr.Parser
import Discharge.Proofs.Text.Lexing

/-! The parser reads the grammar. For every rule of the grammar, the tokens that
its parts are read from are read together, in front of anything that cannot go
on with them. The only failure on the way is a division by a literal zero. -/

namespace Discharge.Parser

/-! ## Outcomes -/

section Reaches

variable {p q : List Lexeme → Prop} {r : Option Expr} {k : Expr → Option Expr}
  {middle rest : List Token}

/-- What a reader returns: an expression with the tokens `rest` left, or a
division by a literal zero. -/
def Reaches (outcome : Except ParseError (Expr × { ls // p ls })) (r : Option Expr)
    (rest : List Token) : Prop :=
  match r with
  | some e => ∃ ls, outcome = .ok (e, ls) ∧ ls.val.map Lexeme.token = rest
  | none => ∃ offset, outcome = .error ⟨offset, .literalZeroDivisor⟩

theorem Reaches.bind {x : Except ParseError (Expr × { ls // p ls })}
    {f : Expr × { ls // p ls } → Except ParseError (Expr × { ls // q ls })}
    (first : Reaches x r middle)
    (next : ∀ e ls, ls.val.map Lexeme.token = middle → Reaches (f (e, ls)) (k e) rest) :
    Reaches (x >>= f) (r.bind k) rest := by
  cases r with
  | some e =>
    obtain ⟨ls, rfl, tokens⟩ := first
    exact next e ls tokens
  | none =>
    obtain ⟨offset, rfl⟩ := first
    exact ⟨offset, rfl⟩

/-- The expression that is read is put into another one. -/
theorem Reaches.map {x : Except ParseError (Expr × { ls // p ls })} {g : Expr → Expr}
    {h : ∀ ls, p ls → q ls} (first : Reaches x r rest) :
    Reaches (x >>= fun y => pure (g y.1, (⟨y.2.1, h y.2.1 y.2.2⟩ : { ls // q ls }))) (r.map g) rest := by
  cases r with
  | some e =>
    obtain ⟨ls, rfl, tokens⟩ := first
    exact ⟨⟨ls.1, h ls.1 ls.2⟩, rfl, tokens⟩
  | none =>
    obtain ⟨offset, rfl⟩ := first
    exact ⟨offset, rfl⟩

end Reaches

/-! ## What may follow -/

/-- How tightly a token takes hold of what is before it. -/
def hold : Token → Nat
  | .closeParen => 0
  | .plus | .minus => 1
  | .star | .slash => 2
  | .caret => 3
  | .number _ | .word _ | .openParen => 4

/-- The next token holds no tighter than `n`. -/
def Ends (n : Nat) (ts : List Token) : Prop := ∀ t ∈ ts.head?, hold t ≤ n

/-- The tokens start with an operand. -/
def Opens (ts : List Token) : Prop := ∃ t us, ts = t :: us ∧ hold t = 4

/-- The grammar from the loosest to the tightest. -/
inductive Level where
  | sum
  | product
  | unary
  | primary

namespace Level

/-- The reader of a level. -/
def read : Level → Nat → (ls : List Lexeme) → Except ParseError (Expr × Shorter ls)
  | .sum => Parser.sum
  | .product => Parser.product
  | .unary => Parser.unary
  | .primary => Parser.primary

/-- What may follow after the level. -/
def looseness : Level → Nat
  | .sum => 0
  | .product => 1
  | .unary => 2
  | .primary => 3

end Level

/-- At this level, the tokens are read as `r`. -/
def Reads (level : Level) (ts : List Token) (r : Option Expr) : Prop :=
  ∀ stop ls rest, Ends level.looseness rest → ls.map Lexeme.token = ts ++ rest →
    Reaches (level.read stop ls) r rest

variable {ts us rest : List Token} {r s : Option Expr} {k l : Expr → Option Expr} {n m : Nat}

theorem Ends.mono (ends : Ends n ts) (le : n ≤ m) : Ends m ts := fun t member =>
  Nat.le_trans (ends t member) le

theorem Ends.append (first : Ends n ts) (second : Ends n us) : Ends n (ts ++ us) := by
  cases ts with
  | nil => exact second
  | cons t ts => exact first

theorem exists_lexeme {ls : List Lexeme} {t : Token} (tokens : ls.map Lexeme.token = t :: ts) :
    ∃ offset ls', ls = ⟨offset, t⟩ :: ls' ∧ ls'.map Lexeme.token = ts := by
  obtain ⟨⟨offset, t⟩, ls', rfl, rfl, rest⟩ := List.map_eq_cons_iff.mp tokens
  exact ⟨offset, ls', rfl, rest⟩

/-! ## Operands -/

theorem reads_number (value : Rat) : Reads .primary [.number value] (some (.number value)) := by
  intro stop ls rest _ tokens
  obtain ⟨offset, ls, rfl, left⟩ := exists_lexeme tokens
  refine ⟨⟨ls, Nat.lt_succ_self _⟩, ?_, left⟩
  rw [Level.read, primary]

theorem reads_word {name : String} {e : Expr} (known : operand? name = some e) :
    Reads .primary [.word name] (some e) := by
  intro stop ls rest ends tokens
  obtain ⟨offset, ls, rfl, left⟩ := exists_lexeme tokens
  refine ⟨⟨ls, Nat.lt_succ_self _⟩, ?_, left⟩
  rw [Level.read, primary]
  · simp only [known]
  · rintro offset' ls rfl
    have next : Token.openParen ∈ rest.head? := by
      change _ = rest at left
      rw [← left]
      rfl
    have impossible := ends .openParen next
    exact absurd impossible (by decide)

theorem reads_group (inner : Reads .sum ts r) :
    Reads .primary (.openParen :: (ts ++ [.closeParen])) r := by
  intro stop ls rest _ tokens
  rw [List.cons_append, List.append_assoc] at tokens
  obtain ⟨offset, ls, rfl, left⟩ := exists_lexeme tokens
  have read := inner stop ls (.closeParen :: rest) (by simp [Ends, hold]) left
  rw [Level.read, primary, ← Option.bind_fun_some r]
  refine read.bind fun e middle left' => ?_
  obtain ⟨ls', shorter⟩ := middle
  obtain ⟨offset', ls', rfl, left''⟩ := exists_lexeme left'
  exact ⟨_, rfl, left''⟩

theorem reads_call {name : String} {f : Function} (known : Function.ofName? name = some f)
    (inner : Reads .sum ts r) :
    Reads .primary (.word name :: .openParen :: (ts ++ [.closeParen])) (r.map (.apply f)) := by
  intro stop ls rest _ tokens
  rw [List.cons_append, List.cons_append, List.append_assoc] at tokens
  obtain ⟨offset, ls, rfl, left⟩ := exists_lexeme tokens
  obtain ⟨offset', ls, rfl, left'⟩ := exists_lexeme left
  have read := inner stop ls (.closeParen :: rest) (by simp [Ends, hold]) left'
  rw [Level.read, primary, Option.map_eq_bind]
  simp only [known]
  refine read.bind fun e middle left'' => ?_
  obtain ⟨ls', shorter⟩ := middle
  obtain ⟨offset'', ls', rfl, after⟩ := exists_lexeme left''
  exact ⟨_, rfl, after⟩

/-! ## Powers and signs -/

theorem unary_of_opens {stop : Nat} {ls : List Lexeme} (opens : Opens (ls.map Lexeme.token)) :
    unary stop ls = power stop ls := by
  obtain ⟨t, us, tokens, operand⟩ := opens
  obtain ⟨offset, ls, rfl, -⟩ := exists_lexeme tokens
  rw [unary]
  · rintro offset' ls' equal
    cases equal
    cases operand
  · rintro offset' ls' equal
    cases equal
    cases operand

theorem Opens.append (opens : Opens ts) (us : List Token) : Opens (ts ++ us) := by
  obtain ⟨t, ts, rfl, operand⟩ := opens
  exact ⟨t, ts ++ us, rfl, operand⟩

theorem reads_operand (opens : Opens ts) (base : Reads .primary ts r) : Reads .unary ts r := by
  intro stop ls rest ends tokens
  have read := base stop ls rest (ends.mono (by decide)) tokens
  change Reaches (unary stop ls) r rest
  rw [unary_of_opens (tokens ▸ opens.append rest), power, ← Option.bind_fun_some r]
  refine read.bind fun e middle left => ?_
  obtain ⟨ls', shorter⟩ := middle
  dsimp only
  split
  · have impossible := ends .caret (by rw [← left]; rfl)
    exact absurd impossible (by decide)
  · exact ⟨_, rfl, left⟩

theorem reads_power (opens : Opens ts) (base : Reads .primary ts r) (exponent : Reads .unary us s) :
    Reads .unary (ts ++ .caret :: us) (r.bind fun b => s.map (.power b)) := by
  intro stop ls rest ends tokens
  rw [List.append_assoc] at tokens
  have read := base stop ls _ (by simp [Ends, hold, Level.looseness]) tokens
  change Reaches (unary stop ls) _ rest
  rw [unary_of_opens (tokens ▸ opens.append _), power]
  refine read.bind fun e middle left => ?_
  obtain ⟨ls', shorter⟩ := middle
  obtain ⟨offset, ls', rfl, left'⟩ := exists_lexeme left
  have read' := exponent stop ls' rest ends left'
  exact read'.map

theorem reads_negative (inner : Reads .unary ts r) : Reads .unary (.minus :: ts) (r.map (-·)) := by
  intro stop ls rest ends tokens
  obtain ⟨offset, ls, rfl, left⟩ := exists_lexeme tokens
  change Reaches (unary stop _) _ rest
  rw [unary]
  have read := inner stop ls rest ends left
  exact read.map

theorem reads_positive (inner : Reads .unary ts r) : Reads .unary (.plus :: ts) r := by
  intro stop ls rest ends tokens
  obtain ⟨offset, ls, rfl, left⟩ := exists_lexeme tokens
  have read : Reaches (unary stop ls) r rest := inner stop ls rest ends left
  change Reaches (unary stop _) _ rest
  rw [unary]
  simpa using read.map (g := id)

/-! ## Products and sums

What comes after the first operand is read as a function of what stands before
it. -/

/-- Further factors and divisors. -/
inductive Factors : List Token → (Expr → Option Expr) → Prop
  | nil : Factors [] some
  | times {ts us : List Token} {r : Option Expr} {k : Expr → Option Expr} :
      Reads .unary ts r → Factors us k →
      Factors (.star :: (ts ++ us)) fun left => r.bind fun x => k (times left x)
  | divide {ts us : List Token} {r : Option Expr} {k : Expr → Option Expr} :
      Reads .unary ts r → Factors us k →
      Factors (.slash :: (ts ++ us)) fun left => r.bind fun x => (over? left x).bind k

/-- Further terms. -/
inductive Summands : List Token → (Expr → Option Expr) → Prop
  | nil : Summands [] some
  | plus {ts us : List Token} {r : Option Expr} {k : Expr → Option Expr} :
      Reads .product ts r → Summands us k →
      Summands (.plus :: (ts ++ us)) fun left => r.bind fun x => k (left + x)
  | minus {ts us : List Token} {r : Option Expr} {k : Expr → Option Expr} :
      Reads .product ts r → Summands us k →
      Summands (.minus :: (ts ++ us)) fun left => r.bind fun x => k (left - x)

theorem Factors.ends (factors : Factors ts k) : Ends 2 ts := by
  cases factors with
  | nil => simp [Ends]
  | times => simp [Ends, hold]
  | divide => simp [Ends, hold]

theorem Summands.ends (summands : Summands ts k) : Ends 1 ts := by
  cases summands with
  | nil => simp [Ends]
  | plus => simp [Ends, hold]
  | minus => simp [Ends, hold]

theorem Factors.append (first : Factors ts k) (second : Factors us l) :
    Factors (ts ++ us) fun left => (k left).bind l := by
  induction first with
  | nil => exact second
  | times read _ ih =>
    have whole := Factors.times read ih
    simpa only [List.cons_append, List.append_assoc, Option.bind_assoc] using whole
  | divide read _ ih =>
    have whole := Factors.divide read ih
    simpa only [List.cons_append, List.append_assoc, Option.bind_assoc] using whole

theorem Summands.append (first : Summands ts k) (second : Summands us l) :
    Summands (ts ++ us) fun left => (k left).bind l := by
  induction first with
  | nil => exact second
  | plus read _ ih =>
    have whole := Summands.plus read ih
    simpa only [List.cons_append, List.append_assoc, Option.bind_assoc] using whole
  | minus read _ ih =>
    have whole := Summands.minus read ih
    simpa only [List.cons_append, List.append_assoc, Option.bind_assoc] using whole

/-- The tokens `ts` are read after an operand, in front of anything looser. -/
theorem Factors.reaches (factors : Factors ts k) : ∀ stop left ls rest, Ends 1 rest →
    ls.map Lexeme.token = ts ++ rest → Reaches (productTail stop left ls) (k left) rest := by
  induction factors with
  | nil =>
    intro stop left ls rest ends tokens
    refine ⟨⟨ls, Nat.le_refl _⟩, ?_, tokens⟩
    rw [List.nil_append] at tokens
    rw [productTail]
    · rintro offset ls' rfl
      exact absurd (ends .star (by rw [← tokens]; rfl)) (by decide)
    · rintro offset ls' rfl
      exact absurd (ends .slash (by rw [← tokens]; rfl)) (by decide)
  | times read following ih =>
    intro stop left ls rest ends tokens
    rw [List.cons_append, List.append_assoc] at tokens
    obtain ⟨offset, ls, rfl, after⟩ := exists_lexeme tokens
    rw [productTail]
    refine (read stop ls _ (following.ends.append (ends.mono (by decide))) after).bind ?_
    intro x middle after'
    have final := ih stop (Parser.times left x) middle.1 rest ends after'
    simpa using final.map (g := id)
  | divide read following ih =>
    intro stop left ls rest ends tokens
    rw [List.cons_append, List.append_assoc] at tokens
    obtain ⟨offset, ls, rfl, after⟩ := exists_lexeme tokens
    rw [productTail]
    refine (read stop ls _ (following.ends.append (ends.mono (by decide))) after).bind ?_
    intro x middle after'
    dsimp only
    cases over? left x with
    | none => exact ⟨offset, rfl⟩
    | some quotient =>
      have final := ih stop quotient middle.1 rest ends after'
      simpa using final.map (g := id)

theorem Summands.reaches (summands : Summands ts k) : ∀ stop left ls rest, Ends 0 rest →
    ls.map Lexeme.token = ts ++ rest → Reaches (sumTail stop left ls) (k left) rest := by
  induction summands with
  | nil =>
    intro stop left ls rest ends tokens
    refine ⟨⟨ls, Nat.le_refl _⟩, ?_, tokens⟩
    rw [List.nil_append] at tokens
    rw [sumTail]
    · rintro offset ls' rfl
      exact absurd (ends .plus (by rw [← tokens]; rfl)) (by decide)
    · rintro offset ls' rfl
      exact absurd (ends .minus (by rw [← tokens]; rfl)) (by decide)
  | plus read following ih =>
    intro stop left ls rest ends tokens
    rw [List.cons_append, List.append_assoc] at tokens
    obtain ⟨offset, ls, rfl, after⟩ := exists_lexeme tokens
    rw [sumTail]
    refine (read stop ls _ (following.ends.append (ends.mono (by decide))) after).bind ?_
    intro x middle after'
    have final := ih stop (left + x) middle.1 rest ends after'
    simpa using final.map (g := id)
  | minus read following ih =>
    intro stop left ls rest ends tokens
    rw [List.cons_append, List.append_assoc] at tokens
    obtain ⟨offset, ls, rfl, after⟩ := exists_lexeme tokens
    rw [sumTail]
    refine (read stop ls _ (following.ends.append (ends.mono (by decide))) after).bind ?_
    intro x middle after'
    have final := ih stop (left - x) middle.1 rest ends after'
    simpa using final.map (g := id)

theorem reads_product (first : Reads .unary ts r) (factors : Factors us k) :
    Reads .product (ts ++ us) (r.bind k) := by
  intro stop ls rest ends tokens
  rw [List.append_assoc] at tokens
  change Reaches (product stop ls) _ rest
  rw [product]
  refine (first stop ls _ (factors.ends.append (ends.mono (by decide))) tokens).bind ?_
  intro e middle after
  simpa using (factors.reaches stop e middle.1 rest ends after).map (g := id)

theorem reads_sum (first : Reads .product ts r) (summands : Summands us k) :
    Reads .sum (ts ++ us) (r.bind k) := by
  intro stop ls rest ends tokens
  rw [List.append_assoc] at tokens
  change Reaches (sum stop ls) _ rest
  rw [sum]
  refine (first stop ls _ (summands.ends.append (ends.mono (by decide))) tokens).bind ?_
  intro e middle after
  simpa using (summands.reaches stop e middle.1 rest ends after).map (g := id)

/-! ## Whole texts -/

theorem reads_ne_nil (reads : Reads .sum ts r) : ts ≠ [] := by
  rintro rfl
  have outcome := reads 0 [] [] (by simp [Ends]) rfl
  have failed : sum 0 [] = .error ⟨0, .unexpectedEnd⟩ := by
    rw [sum, product, unary, power, primary]
    · rfl
    · rintro offset ls impossible
      cases impossible
    · rintro offset ls impossible
      cases impossible
  change Reaches (sum 0 []) r [] at outcome
  rw [failed] at outcome
  cases r with
  | some e =>
    obtain ⟨ls, impossible, -⟩ := outcome
    cases impossible
  | none =>
    obtain ⟨offset, impossible⟩ := outcome
    cases impossible

/-- The text is read as `r`, where nothing is a division by a literal zero. -/
def Parses (text : String) : Option Expr → Prop
  | some e => parse text = .ok e
  | none => ∃ offset, parse text = .error ⟨offset, .literalZeroDivisor⟩

/-- A text whose tokens are a sum is read as that. -/
theorem parses_of_scanText {text : String} {ls : List Lexeme}
    (scanned : Token.scanText text = .ok ls) (reads : Reads .sum (ls.map Lexeme.token) r) :
    Parses text r := by
  have proper : ls.isEmpty = false := by
    cases ls with
    | nil => exact absurd rfl (reads_ne_nil reads)
    | cons l ls => rfl
  have outcome := reads text.utf8ByteSize ls [] (by simp [Ends]) (List.append_nil _).symm
  change Reaches (sum text.utf8ByteSize ls) r [] at outcome
  cases r with
  | some e =>
    obtain ⟨⟨rest, _⟩, read, left⟩ := outcome
    obtain rfl : rest = [] := List.map_eq_nil_iff.mp left
    change parse text = .ok e
    unfold parse
    simp only [scanned, proper, read, bind, Except.bind, Bool.false_eq_true, if_false]
    rfl
  | none =>
    obtain ⟨offset, read⟩ := outcome
    refine ⟨offset, ?_⟩
    unfold parse
    simp only [scanned, proper, read, bind, Except.bind, Bool.false_eq_true, if_false]

theorem parses_of_reads {text : String} (scans : Token.Scans text ts) (reads : Reads .sum ts r) :
    Parses text r := by
  obtain ⟨ls, rfl, scanned⟩ := scans.scanText
  exact parses_of_scanText scanned reads

end Discharge.Parser
