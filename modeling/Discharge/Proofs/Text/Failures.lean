import Discharge.Proofs.Text.Positions
import Discharge.Proofs.Text.Prefixes

/-! Where the parser fails. Every reader of a category keeps to what a reader that never
looks back can do: the tokens it consumes are of the category, and what it leaves cannot
go on with them. If it fails over a token, then the tokens before it can still be completed
to the category, and with it they cannot. -/

namespace Discharge

/-- The problems that tokens in the wrong place cause, whatever names and numbers stand
for. -/
def Problem.Syntactic : Problem → Prop
  | .unexpectedToken | .unexpectedEnd | .unclosedGroup | .unclosedCall | .trailingInput => True
  | _ => False

namespace Parser

variable {good good' : List Lexeme → Prop} {c c' : Category} {ls : List Lexeme} {t : Token}
  {us ts : List Token} {d d' offset stop n m : Nat} {w : Bool} {problem : Problem}
  {x : Except ParseError (Expr × { rest // good rest })}
  {f : Expr × { rest // good rest } → Except ParseError (Expr × { rest // good' rest })}

/-- The tokens do not go on with what is before them: an operator that holds tighter
does not follow, and a name is not called. -/
def Stops (n : Nat) (callable : Bool) (ts : List Token) : Prop :=
  ∀ t ∈ ts.head?, hold t ≤ n ∨ (hold t = 4 ∧ (t = .openParen → callable = false))

/-- What a reader of a category does with lexemes behind the tokens `us`, at depth `d`. -/
def Keeps (c : Category) (stop d : Nat) (us : List Token) (ls : List Lexeme)
    (outcome : Except ParseError (Expr × { rest // good rest })) : Prop :=
  Ensures outcome
    (fun r => ∃ used w, ls = used ++ r.2.val ∧ Sentence c (us ++ used.map Lexeme.token) ∧
      Place.run ⟨.operand, d⟩ (us ++ used.map Lexeme.token) = some ⟨.operator w, d⟩ ∧
      Stops c.looseness w (r.2.val.map Lexeme.token))
    (fun e => e.problem.Syntactic → ∃ before after vs s, ls = before ++ after ∧
      e.offset = offsetOf stop after ∧ Sentence c (us ++ before.map Lexeme.token ++ vs) ∧
      Place.run ⟨.operand, d⟩ (us ++ before.map Lexeme.token) = some s ∧
      s.Stuck (after.map Lexeme.token))

/-! ## Readers put together -/

theorem Keeps.shift (read : Keeps c stop d (us ++ [t]) ls x) :
    Keeps c stop d us (⟨offset, t⟩ :: ls) x := by
  refine (Ensures.mono read ?_).mono_error ?_
  · rintro r ⟨used, w, rfl, sentence, ran, stops⟩
    rw [List.append_assoc, List.singleton_append] at sentence ran
    exact ⟨⟨offset, t⟩ :: used, w, rfl, sentence, ran, stops⟩
  · intro e located syntactic
    obtain ⟨before, after, vs, s, rfl, place, sentence, ran, stuck⟩ := located syntactic
    rw [List.append_assoc us, List.singleton_append] at sentence ran
    exact ⟨⟨offset, t⟩ :: before, after, vs, s, rfl, place, sentence, ran, stuck⟩

/-- A part of another category, and what is read behind it. The part starts where an
operand is due, and the category can be completed behind every such part. -/
theorem Keeps.bind (enters : Place.run ⟨.operand, d⟩ us = some ⟨.operand, d'⟩)
    (first : Keeps c' stop d' [] ls x)
    (completes : ∀ ts, Sentence c' ts → ∃ vs, Sentence c (us ++ ts ++ vs))
    (next : ∀ ts w, Sentence c' ts → Place.run ⟨.operand, d⟩ (us ++ ts) = some ⟨.operator w, d'⟩ →
      ∀ r : Expr × { rest // good rest }, Stops c'.looseness w (r.2.val.map Lexeme.token) →
        Keeps c stop d (us ++ ts) r.2.val (f r)) : Keeps c stop d us ls (x >>= f) := by
  refine Ensures.bind (first.mono_error ?_) ?_
  · intro e located syntactic
    obtain ⟨before, after, vs, s, rfl, place, sentence, ran, stuck⟩ := located syntactic
    rw [List.nil_append] at sentence ran
    obtain ⟨vs', completed⟩ := completes _ sentence
    refine ⟨before, after, vs ++ vs', s, rfl, place, ?_, ?_, stuck⟩
    · simpa only [List.append_assoc] using completed
    · rwa [Place.run_append_eq_some enters]
  · rintro r ⟨used, w, rfl, sentence, ran, stops⟩
    rw [List.nil_append] at sentence ran
    rw [← Place.run_append_eq_some enters] at ran
    refine (Ensures.mono (next _ w sentence ran r stops) ?_).mono_error ?_
    · rintro r' ⟨used', w', left, sentence', ran', stops'⟩
      refine ⟨used ++ used', w', by rw [left, List.append_assoc], ?_, ?_, stops'⟩
      · rwa [List.map_append, ← List.append_assoc]
      · rwa [List.map_append, ← List.append_assoc]
    · intro e located syntactic
      obtain ⟨before, after, vs, s, left, place, sentence', ran', stuck⟩ := located syntactic
      refine ⟨used ++ before, after, vs, s, by rw [left, List.append_assoc], place, ?_, ?_, stuck⟩
      · rwa [List.map_append, ← List.append_assoc]
      · rwa [List.map_append, ← List.append_assoc]

/-- An operand behind a token after which it is due. -/
theorem Keeps.behind (enters : Place.run ⟨.operand, d⟩ (us ++ [t]) = some ⟨.operand, d⟩)
    (rule : ∀ {ts}, Sentence c' ts → Sentence c (us ++ t :: ts)) (operand : Keeps c' stop d [] ls x)
    (next : ∀ ts w, Sentence c (us ++ t :: ts) →
      Place.run ⟨.operand, d⟩ (us ++ t :: ts) = some ⟨.operator w, d⟩ →
      ∀ r : Expr × { rest // good rest }, Stops c'.looseness w (r.2.val.map Lexeme.token) →
        Keeps c stop d (us ++ t :: ts) r.2.val (f r)) :
    Keeps c stop d us (⟨offset, t⟩ :: ls) (x >>= f) := by
  refine .shift (.bind enters operand (fun ts sentence => ⟨[], ?_⟩) fun ts w sentence ran r => ?_)
  · simpa using rule sentence
  · rw [List.append_assoc, List.singleton_append] at ran ⊢
    exact next ts w (rule sentence) ran r

theorem Keeps.ok (sentence : Sentence c us)
    (ran : Place.run ⟨.operand, d⟩ us = some ⟨.operator w, d⟩)
    (stops : Stops c.looseness w (ls.map Lexeme.token)) {e : Expr} {holds : good ls} :
    Keeps c stop d us ls (.ok (e, ⟨ls, holds⟩)) := by
  refine ⟨[], w, rfl, ?_, ?_, stops⟩ <;> simpa

/-- Another expression is made of what is read. -/
theorem Keeps.map (read : Keeps c stop d us ls x)
    (made : ∀ r, ∃ e rest, f r = .ok (e, rest) ∧ rest.val = r.2.val) :
    Keeps c stop d us ls (x >>= f) := by
  refine Ensures.bind read ?_
  rintro r ⟨used, w, left, sentence, ran, stops⟩
  obtain ⟨e, rest, result, same⟩ := made r
  rw [result]
  exact ⟨used, w, by rw [left, same], sentence, ran, by rwa [same]⟩

theorem Keeps.weaken (read : Keeps c' stop d [] ls x) (same : c'.looseness = c.looseness)
    (rule : ∀ {ts}, Sentence c' ts → Sentence c ts) : Keeps c stop d [] ls x := by
  refine (Ensures.mono read ?_).mono_error ?_
  · rintro r ⟨used, w, left, sentence, ran, stops⟩
    exact ⟨used, w, left, rule sentence, ran, same ▸ stops⟩
  · intro e located syntactic
    obtain ⟨before, after, vs, s, left, place, sentence, ran, stuck⟩ := located syntactic
    exact ⟨before, after, vs, s, left, place, rule sentence, ran, stuck⟩

/-- Nothing is read at a lexeme at which the reader is stuck. -/
theorem Keeps.fail {s : Place} (vs : List Token)
    (completed : Sentence c (us ++ vs)) (ran : Place.run ⟨.operand, d⟩ us = some s)
    (stuck : s.Stuck (ls.map Lexeme.token)) :
    @Keeps good c stop d us ls (.error ⟨offsetOf stop ls, problem⟩) := by
  intro _
  refine ⟨[], ls, vs, s, rfl, rfl, ?_, ?_, stuck⟩ <;> simpa

theorem Keeps.skip {e : ParseError} (other : ¬e.problem.Syntactic) :
    @Keeps good c stop d us ls (.error e) :=
  fun syntactic => absurd syntactic other

/-! ## What stops a reader -/

theorem Stops.tighten (stops : Stops (n + 1) w ts) (other : ∀ t ∈ ts.head?, hold t ≠ n + 1) :
    Stops n w ts := by
  intro t next
  have different := other t next
  rcases stops t next with loose | operand
  · exact .inl (by omega)
  · exact .inr operand

/-- Behind a primary anything may stand but the parenthesis of a call. -/
theorem stops_primary (plain : ∀ us, ts = .openParen :: us → w = false) : Stops 3 w ts := by
  intro t next
  obtain ⟨us, rfl⟩ := List.head?_eq_some_iff.mp next
  cases t with
  | number | word => exact .inr ⟨rfl, nofun⟩
  | openParen => exact .inr ⟨rfl, fun _ => plain us rfl⟩
  | _ => exact .inl (by decide)

theorem step_operand (hold_t : hold t = 4) (called : t = .openParen → w = false) (d : Nat) :
    Place.step ⟨.operator w, d⟩ t = none := by
  cases t with
  | number | word => cases d <;> cases w <;> rfl
  | openParen =>
    cases called rfl
    cases d <;> rfl
  | _ => cases hold_t

/-- Behind a sum inside parentheses, only the closing one does not stop the reader. -/
theorem Stops.stuck_inside (stops : Stops 0 w ts) (open_ : ∀ us, ts ≠ .closeParen :: us) :
    Place.Stuck ⟨.operator w, d + 1⟩ ts := by
  cases ts with
  | nil => intro w same; cases same
  | cons t ts =>
    rcases stops t rfl with loose | ⟨operand, called⟩
    · cases t with
      | closeParen => exact absurd rfl (open_ ts)
      | _ => exact absurd loose (by simp [hold])
    · exact step_operand operand called _

/-- Behind a whole sum every token stops the reader. -/
theorem Stops.stuck_outside (stops : Stops 0 w (t :: ts)) :
    Place.Stuck ⟨.operator w, 0⟩ (t :: ts) := by
  rcases stops t rfl with loose | ⟨operand, called⟩
  · cases t with
    | closeParen => cases w <;> rfl
    | _ => exact absurd loose (by simp [hold])
  · exact step_operand operand called _

/-- The closing parenthesis of a group or of a call, which is the last token of a primary. -/
theorem Keeps.close {r : Shorter ls → Except ParseError (Expr × { rest // good rest })}
    (completed : Sentence .primary (us ++ [.closeParen]))
    (ran : Place.run ⟨.operand, d⟩ us = some ⟨.operator w, d + 1⟩)
    (stops : Stops 0 w (ls.map Lexeme.token))
    (made : ∀ rest, ∃ e rest', r rest = .ok (e, rest') ∧ rest'.val = rest.val) :
    Keeps .primary stop d us ls (Parser.close stop problem ls >>= r) := by
  unfold Parser.close
  split
  · rename_i offset rest
    obtain ⟨e, ⟨rest, holds⟩, result, rfl⟩ := made ⟨rest, Nat.lt_succ_self _⟩
    change Keeps .primary stop d us _ (r ⟨rest, _⟩)
    rw [result]
    refine .shift (.ok (w := false) completed ?_ ?_)
    · rw [Place.run_append_eq_some ran]
      rfl
    · exact stops_primary fun _ _ => rfl
  · rename_i other
    refine Keeps.fail _ completed ran (stops.stuck_inside fun us same => ?_)
    obtain ⟨offset, rest, rfl, -⟩ := exists_lexeme same
    exact other offset rest rfl

theorem head_ne (other : ∀ offset rest, ls = ⟨offset, t⟩ :: rest → False) :
    (ls.map Lexeme.token).head? ≠ some t := by
  intro next
  obtain ⟨us, same⟩ := List.head?_eq_some_iff.mp next
  obtain ⟨offset, rest, rfl, -⟩ := exists_lexeme same
  exact other offset rest rfl

theorem unsigned_head (plus : ∀ offset rest, ls = ⟨offset, .plus⟩ :: rest → False)
    (minus : ∀ offset rest, ls = ⟨offset, .minus⟩ :: rest → False) :
    ∀ t ∈ (ls.map Lexeme.token).head?, hold t ≠ 1 := by
  intro t next one
  cases t with
  | plus => exact head_ne plus next
  | minus => exact head_ne minus next
  | _ => cases one

/-- Every reader keeps to its category, by induction along the calls of the readers. A
primary is not asked for in front of a sign. -/
theorem readers_keep (stop : Nat) :
    (∀ ls d, Keeps .sum stop d [] ls (sum stop ls)) ∧
    (∀ left ls d us w, Sentence .sum us → Place.run ⟨.operand, d⟩ us = some ⟨.operator w, d⟩ →
      Stops 1 w (ls.map Lexeme.token) → Keeps .sum stop d us ls (sumTail stop left ls)) ∧
    (∀ ls d, Keeps .product stop d [] ls (product stop ls)) ∧
    (∀ left ls d us w, Sentence .product us →
      Place.run ⟨.operand, d⟩ us = some ⟨.operator w, d⟩ →
      Stops 2 w (ls.map Lexeme.token) → Keeps .product stop d us ls (productTail stop left ls)) ∧
    (∀ ls d, Keeps .unary stop d [] ls (unary stop ls)) ∧
    (∀ ls d, (∀ t ∈ (ls.map Lexeme.token).head?, hold t ≠ 1) →
      Keeps .power stop d [] ls (power stop ls)) ∧
    (∀ ls d, (∀ t ∈ (ls.map Lexeme.token).head?, hold t ≠ 1) →
      Keeps .primary stop d [] ls (primary stop ls)) := by
  have enters {d : Nat} {us : List Token} {w : Bool} {t : Token}
      (ran : Place.run ⟨.operand, d⟩ us = some ⟨.operator w, d⟩)
      (step : Place.step ⟨.operator w, d⟩ t = some ⟨.operand, d⟩) :
      Place.run ⟨.operand, d⟩ (us ++ [t]) = some ⟨.operand, d⟩ := by
    rw [Place.run_append_eq_some ran, Place.run_singleton, step]
  refine sum.mutual_induct _ _ _ _ _ _ _ ?_ ?_ ?_ ?_ ?_ ?_ ?_ ?_ ?_ ?_ ?_ ?_ ?_ ?_ ?_ ?_ ?_ ?_ ?_ ?_
  -- A sum and what goes on with it.
  · intro ls first tail d
    rw [sum]
    refine .bind rfl (first d) (fun ts product => ⟨[], ?_⟩) fun ts w product ran r stops => ?_
    · simpa using Sentence.term product
    · exact (tail r.1 r.2.1 r.2.2 d ts w (.term product) ran stops).map fun r => ⟨_, _, rfl, rfl⟩
  · intro left offset ls operand tail d us w sum ran stops
    rw [sumTail]
    refine .behind (enters ran rfl) (.add sum (.inl rfl)) (operand d)
      fun ts w' sum ran r stops => ?_
    exact (tail r.1 r.2.1 r.2.2 d _ w' sum ran stops).map fun r => ⟨_, _, rfl, rfl⟩
  · intro left offset ls operand tail d us w sum ran stops
    rw [sumTail]
    refine .behind (enters ran rfl) (.add sum (.inr rfl)) (operand d)
      fun ts w' sum ran r stops => ?_
    exact (tail r.1 r.2.1 r.2.2 d _ w' sum ran stops).map fun r => ⟨_, _, rfl, rfl⟩
  · intro left ls plus minus d us w sum ran stops
    rw [sumTail]
    · exact .ok sum ran (stops.tighten (unsigned_head plus minus))
    · exact plus
    · exact minus
  -- A product and what goes on with it; a refused division is no matter of syntax.
  · intro ls first tail d
    rw [product]
    refine .bind rfl (first d) (fun ts unary => ⟨[], ?_⟩) fun ts w unary ran r stops => ?_
    · simpa using Sentence.factor unary
    · exact (tail r.1 r.2.1 r.2.2 d ts w (.factor unary) ran stops).map fun r => ⟨_, _, rfl, rfl⟩
  · intro left offset ls operand tail d us w product ran stops
    rw [productTail]
    refine .behind (enters ran rfl) (.times product (.inl rfl)) (operand d)
      fun ts w' product ran r stops => ?_
    exact (tail r.1 r.2.1 r.2.2 d _ w' product ran stops).map fun r => ⟨_, _, rfl, rfl⟩
  · intro left offset ls operand tail d us w product ran stops
    rw [productTail]
    refine .behind (enters ran rfl) (.times product (.inr rfl)) (operand d)
      fun ts w' product ran r stops => ?_
    dsimp only
    cases over? left r.1 with
    | none => exact .skip id
    | some quotient =>
      exact (tail r.2.1 r.2.2 quotient d _ w' product ran stops).map fun r => ⟨_, _, rfl, rfl⟩
  · intro left ls star slash d us w product ran stops
    rw [productTail]
    · refine .ok product ran (stops.tighten fun t next two => ?_)
      cases t with
      | star => exact head_ne star next
      | slash => exact head_ne slash next
      | _ => cases two
    · exact star
    · exact slash
  -- Signs before an operand.
  · intro offset ls operand d
    rw [unary]
    refine .behind rfl (.signed (.inr rfl)) (operand d) fun ts w unary ran r stops => ?_
    exact .ok unary ran stops
  · intro offset ls operand d
    rw [unary]
    refine .behind rfl (.signed (.inl rfl)) (operand d) fun ts w unary ran r stops => ?_
    exact .ok unary ran stops
  · intro ls minus plus operand d
    rw [unary]
    · exact (operand d (unsigned_head plus minus)).weaken rfl .unsigned
    · exact minus
    · exact plus
  -- A power.
  · intro ls base exponent d unsigned
    rw [power]
    refine .bind rfl (base d unsigned) (fun ts primary => ⟨[], ?_⟩)
      fun ts w primary ran r stops => ?_
    · simpa using Sentence.base primary
    obtain ⟨e, rest, shorter⟩ := r
    dsimp only
    rw [List.nil_append] at ran ⊢
    split
    · rename_i offset rest shorter
      refine .behind (enters ran rfl) (.power primary) (exponent rest offset rest shorter d)
        fun ts w' power ran r stops => ?_
      exact .ok power ran stops
    · rename_i other
      refine .ok (.base primary) ran (stops.tighten fun t next three => ?_)
      cases t with
      | caret =>
        refine head_ne (fun offset rest same => ?_) next
        exact other offset rest (same ▸ shorter) same (proof_irrel_heq _ _)
      | _ => cases three
  -- A primary: nothing, a number, a group, a call, a name, and any other token.
  · intro d unsigned
    rw [primary]
    exact .fail [.number 0] (.number 0) rfl (fun t next => by cases next)
  · intro offset q ls d unsigned
    rw [primary]
    exact .shift (.ok (.number q) rfl (stops_primary fun _ _ => rfl))
  · intro offset ls inner d unsigned
    rw [primary]
    refine .shift (.bind rfl (inner (d + 1)) (fun ts sum => ⟨[.closeParen], .group sum⟩)
      fun ts w sum ran r stops => ?_)
    exact .close (.group sum) ran stops fun rest => ⟨_, _, rfl, rfl⟩
  · intro offset name offset' ls unknown d unsigned
    rw [primary]
    simp only [unknown]
    exact .skip id
  · intro offset name offset' ls g known inner d unsigned
    rw [primary]
    simp only [known]
    refine .shift (.shift (.bind rfl (inner (d + 1)) (fun ts sum => ⟨[.closeParen], .call name sum⟩)
      fun ts w sum ran r stops => ?_))
    exact .close (.call name sum) ran stops fun rest => ⟨_, _, rfl, rfl⟩
  · intro offset name ls plain unknown d unsigned
    rw [primary]
    · simp only [unknown]
      exact .skip id
    · exact plain
  · intro offset name ls plain e known d unsigned
    rw [primary]
    · simp only [known]
      refine .shift (.ok (.name name) rfl (stops_primary fun us same => ?_))
      obtain ⟨offset', rest, rfl, -⟩ := exists_lexeme same
      exact absurd rfl (plain offset' rest)
    · exact plain
  · intro offset token ls number paren call name d unsigned
    rw [primary]
    · refine .fail [.number 0] (.number 0) rfl ?_
      cases token with
      | number value => exact absurd rfl (number value)
      | word n => exact absurd rfl (name n)
      | openParen => exact absurd rfl paren
      | plus | minus => exact absurd rfl (unsigned _ rfl)
      | star | slash | caret | closeParen => rfl
    all_goals assumption

/-! ## Whole texts -/

/-- Where the lexemes of a text of `stop` bytes go wrong: at the first lexeme with which
they are no beginning of a sentence, or at the end of a beginning that is no sentence. -/
inductive GoesWrong (stop : Nat) : List Lexeme → Nat → Prop
  | token {before after : List Lexeme} {l : Lexeme} (viable : Viable (before.map Lexeme.token))
    (wrong : ¬Viable ((before ++ [l]).map Lexeme.token)) :
    GoesWrong stop (before ++ l :: after) l.offset
  | unfinished {ls : List Lexeme} (viable : Viable (ls.map Lexeme.token))
    (incomplete : ¬Sentence .sum (ls.map Lexeme.token)) : GoesWrong stop ls stop

/-- Lexemes go wrong where the reader that never looks back is stuck. -/
theorem Place.Stuck.goesWrong {s : Place} {before after : List Lexeme} {vs : List Token}
    (stuck : s.Stuck (after.map Lexeme.token))
    (ran : Place.run ⟨.operand, 0⟩ (before.map Lexeme.token) = some s)
    (completed : Sentence .sum (before.map Lexeme.token ++ vs)) :
    GoesWrong stop (before ++ after) (offsetOf stop after) := by
  cases after with
  | nil =>
    rw [List.append_nil]
    exact .unfinished ⟨vs, completed⟩ (Place.Stuck.not_sentence ran stuck)
  | cons l after =>
    refine .token ⟨vs, completed⟩ ?_
    rw [List.map_append]
    exact Place.Stuck.not_viable ran stuck

/-- A problem of syntax is reported where the lexemes go wrong. -/
theorem parse_goesWrong {text : String} {e : ParseError} (scanned : Token.scanText text = .ok ls)
    (failed : parse text = .error e) (syntactic : e.problem.Syntactic) :
    GoesWrong text.utf8ByteSize ls e.offset := by
  have keeps := (readers_keep text.utf8ByteSize).1 ls 0
  unfold parse at failed
  rw [scanned] at failed
  change (if ls.isEmpty then _ else _) = _ at failed
  split at failed
  · cases failed
    exact absurd syntactic id
  cases read : sum text.utf8ByteSize ls with
  | error e' =>
    rw [read] at failed keeps
    cases failed
    obtain ⟨before, after, vs, s, rfl, place, completed, ran, stuck⟩ := keeps syntactic
    rw [place]
    exact stuck.goesWrong ran completed
  | ok r =>
    rw [read] at failed keeps
    obtain ⟨e', rest, shorter⟩ := r
    obtain ⟨used, w, whole, sentence, ran, stops⟩ := keeps
    cases rest with
    | nil => cases failed
    | cons l others =>
      cases failed
      rw [whole]
      have completed : Sentence .sum (used.map Lexeme.token ++ []) := by simpa using sentence
      exact stops.stuck_outside.goesWrong ran completed

/-- Where a text that is no expression goes wrong. If it splits into tokens, then they are
cut out of it without splitting a character; a problem of syntax has the offset of the first
token with which they are no beginning of a sentence, or the size of the text if they are one
up to the end that is no sentence yet. Sentences are, up to the names in them, what the
grammar derives (`sentence_iff`). If the text does not split, then the tokens before the
problem are cut out of it, and the offset is that of the first character, or of the first run
of digits and dots, that cannot be a token. -/
theorem errors_located (text : String) :
    (∀ ls, Token.scanText text = .ok ls →
      Token.Lexes text.utf8ByteSize text.toList ls [] ∧ (∀ l ∈ ls, Token.Sliced text l) ∧
      ∀ e, parse text = .error e → e.problem.Syntactic →
        GoesWrong text.utf8ByteSize ls e.offset) ∧
    (∀ e, Token.scanText text = .error e → parse text = .error e ∧ ∃ ls slice rest,
      Token.Lexes text.utf8ByteSize text.toList ls (slice ++ rest) ∧
      (∀ l ∈ ls, Token.Sliced text l) ∧ Token.Cut text e.offset (slice ++ rest) ∧
      Token.Cut text (e.offset + Token.size slice) rest ∧
      Token.Offends slice e.problem rest) ∧
    ∀ e, parse text = .error e →
      Expr.parse text = .error (.parse e.offset e.problem.message) := by
  have located := Token.scanText_locates text
  refine ⟨fun ls scanned => ?_, fun e scanned => ?_, fun e failed => ?_⟩
  · have lexes := located.of_ok scanned
    exact ⟨lexes, lexes.sliced, fun e => parse_goesWrong scanned⟩
  · obtain ⟨ls, slice, rest, lexes, cut, offends⟩ := located.of_error scanned
    refine ⟨?_, ls, slice, rest, lexes, lexes.sliced, cut, cut.behind, offends⟩
    rw [parse, scanned]
    rfl
  · rw [Expr.parse, failed]
    rfl

/-- In `x + * 2` the star is the first token out of place; in `2*é` the last character is no
token, and the text can be cut on both sides of it. -/
theorem errors_located_star :
    GoesWrong 7 [⟨0, .word "x"⟩, ⟨2, .plus⟩, ⟨4, .star⟩, ⟨6, .number 2⟩] 4 ∧
    parse "2*é" = .error ⟨2, .unexpectedCharacter 'é'⟩ ∧ ∃ slice rest,
      Token.Cut "2*é" 2 (slice ++ rest) ∧ Token.Cut "2*é" (2 + Token.size slice) rest ∧
      Token.Offends slice (.unexpectedCharacter 'é') rest := by
  constructor
  · have scanned : Token.scanText "x + * 2" =
        .ok [⟨0, .word "x"⟩, ⟨2, .plus⟩, ⟨4, .star⟩, ⟨6, .number 2⟩] := by decide +kernel
    have failed : parse "x + * 2" = .error ⟨4, .unexpectedToken⟩ := by decide +kernel
    exact ((errors_located "x + * 2").1 _ scanned).2.2 _ failed trivial
  · have scanned : Token.scanText "2*é" = .error ⟨2, .unexpectedCharacter 'é'⟩ := by decide +kernel
    obtain ⟨failed, ls, slice, rest, -, -, cut, behind, offends⟩ :=
      (errors_located "2*é").2.1 _ scanned
    exact ⟨failed, slice, rest, cut, behind, offends⟩

end Parser

end Discharge
