import Discharge.Proofs.Text.Reading

/-! The grammar of expressions, said without a parser. A phrase is a derivation
with the rules that only pass from one category to the next left out. The tokens
of a category have one derivation: in front of anything that cannot go on with
them, no other beginning of the same tokens is derived, and no other phrase. -/

namespace Discharge

/-- The phrases of the expression language, as they are written. -/
inductive Phrase where
  | number (value : Rat)
  | name (name : String)
  | call (function : Function) (argument : Phrase)
  | group (inner : Phrase)
  | power (base exponent : Phrase)
  | negative (operand : Phrase)
  | positive (operand : Phrase)
  | times (left right : Phrase)
  | quotient (left right : Phrase)
  | plus (left right : Phrase)
  | minus (left right : Phrase)

namespace Parser

/-- The categories of the grammar, from the loosest to the tightest. -/
inductive Category where
  | sum
  | product
  | unary
  | power
  | primary

/-- The rules of the grammar.  Sums and products grow to the right, so that their
operators associate to the left. -/
inductive Derives : Category → List Token → Phrase → Prop
  | number (q : Rat) : Derives .primary [.number q] (.number q)
  | name {n : String} (finite : n ≠ "oo" ∧ n ≠ "inf") : Derives .primary [.word n] (.name n)
  | group {ts : List Token} {p : Phrase} (inner : Derives .sum ts p) :
    Derives .primary (.openParen :: (ts ++ [.closeParen])) (.group p)
  | call {n : String} {f : Function} {ts : List Token} {p : Phrase}
    (known : Function.ofName? n = some f) (argument : Derives .sum ts p) :
    Derives .primary (.word n :: .openParen :: (ts ++ [.closeParen])) (.call f p)
  | base {ts : List Token} {p : Phrase} (base : Derives .primary ts p) : Derives .power ts p
  | power {ts us : List Token} {p q : Phrase} (base : Derives .primary ts p)
    (exponent : Derives .unary us q) : Derives .power (ts ++ .caret :: us) (.power p q)
  | negative {ts : List Token} {p : Phrase} (operand : Derives .unary ts p) :
    Derives .unary (.minus :: ts) (.negative p)
  | positive {ts : List Token} {p : Phrase} (operand : Derives .unary ts p) :
    Derives .unary (.plus :: ts) (.positive p)
  | unsigned {ts : List Token} {p : Phrase} (operand : Derives .power ts p) : Derives .unary ts p
  | factor {ts : List Token} {p : Phrase} (only : Derives .unary ts p) : Derives .product ts p
  | times {ts us : List Token} {p q : Phrase} (left : Derives .product ts p)
    (right : Derives .unary us q) : Derives .product (ts ++ .star :: us) (.times p q)
  | quotient {ts us : List Token} {p q : Phrase} (left : Derives .product ts p)
    (right : Derives .unary us q) : Derives .product (ts ++ .slash :: us) (.quotient p q)
  | term {ts : List Token} {p : Phrase} (only : Derives .product ts p) : Derives .sum ts p
  | plus {ts us : List Token} {p q : Phrase} (left : Derives .sum ts p)
    (right : Derives .product us q) : Derives .sum (ts ++ .plus :: us) (.plus p q)
  | minus {ts us : List Token} {p q : Phrase} (left : Derives .sum ts p)
    (right : Derives .product us q) : Derives .sum (ts ++ .minus :: us) (.minus p q)

namespace Category

/-- What may follow after the category. -/
def looseness : Category → Nat
  | .sum => 0
  | .product => 1
  | .unary => 2
  | .power => 2
  | .primary => 3

/-- The operands of the operators of a category. -/
def operand : Category → Category
  | .sum => .product
  | .product => .unary
  | c => c

/-- The operators of a category. -/
def join? : Category → Token → Option (Phrase → Phrase → Phrase)
  | .sum, .plus => some .plus
  | .sum, .minus => some .minus
  | .product, .star => some .times
  | .product, .slash => some .quotient
  | _, _ => none

end Category

variable {c : Category} {t : Token} {ts us vs rest rest' : List Token} {p q r : Phrase} {n : Nat}

theorem join?_hold {f : Phrase → Phrase → Phrase} (operator : c.join? t = some f) :
    c.looseness < hold t ∧ hold t ≤ c.operand.looseness := by
  unfold Category.join? at operator
  split at operator
  all_goals first | cases operator; decide | cases operator

theorem Derives.opens (derives : Derives c ts p) (tight : c = .primary ∨ c = .power) : Opens ts := by
  induction derives with
  | number | name | group | call => exact ⟨_, _, rfl, rfl⟩
  | base _ ih => exact ih (.inl rfl)
  | power _ _ ih => exact (ih (.inl rfl)).append _
  | _ => simp at tight

/-! ## Operands in a row -/

/-- After the phrase `p`, the tokens are operators and operands that make `q` of it. -/
inductive Chain (c : Category) : Phrase → List Token → Phrase → Prop
  | nil {p : Phrase} : Chain c p [] p
  | cons {t : Token} {f : Phrase → Phrase → Phrase} {ts us : List Token} {p q r : Phrase}
    (operator : c.join? t = some f) (operand : Derives c.operand ts q)
    (rest : Chain c (f p q) us r) : Chain c p (t :: (ts ++ us)) r

theorem Chain.append (first : Chain c p ts q) (second : Chain c q us r) :
    Chain c p (ts ++ us) r := by
  induction first with
  | nil => exact second
  | cons operator operand _ ih =>
    rw [List.cons_append, List.append_assoc]
    exact .cons operator operand (ih second)

theorem Chain.single {f : Phrase → Phrase → Phrase} (operator : c.join? t = some f)
    (operand : Derives c.operand ts q) : Chain c p (t :: ts) (f p q) := by
  have chain : Chain c p (t :: (ts ++ [])) (f p q) := .cons operator operand .nil
  rwa [List.append_nil] at chain

/-- A sum or a product is a first operand with others behind it. -/
theorem Derives.exists_chain (derives : Derives c ts p) (joined : c = .sum ∨ c = .product) :
    ∃ us vs q, ts = us ++ vs ∧ Derives c.operand us q ∧ Chain c q vs p := by
  have extend : ∀ {c : Category} {ts us : List Token} {t : Token} {p q : Phrase}
      {f : Phrase → Phrase → Phrase}, c.join? t = some f → Derives c.operand us q →
      (∃ us vs q, ts = us ++ vs ∧ Derives c.operand us q ∧ Chain c q vs p) →
      ∃ us' vs q', ts ++ t :: us = us' ++ vs ∧ Derives c.operand us' q' ∧ Chain c q' vs (f p q) := by
    rintro c _ us t p q f operator operand ⟨first, others, q', rfl, head, chain⟩
    exact ⟨first, others ++ t :: us, q', List.append_assoc _ _ _, head,
      chain.append (.single operator operand)⟩
  induction derives with
  | factor only | term only => exact ⟨_, [], _, (List.append_nil _).symm, only, .nil⟩
  | times _ right ih _ => exact extend rfl right (ih joined)
  | quotient _ right ih _ => exact extend rfl right (ih joined)
  | plus _ right ih _ => exact extend rfl right (ih joined)
  | minus _ right ih _ => exact extend rfl right (ih joined)
  | _ => simp at joined

/-! ## One derivation -/

/-- Of the tokens of a category, at most `n` of them, there is one derivation,
whatever comes after them that cannot go on with them. -/
def Unambiguous (c : Category) (n : Nat) : Prop :=
  ∀ ts us p q rest rest', ts.length ≤ n → Derives c ts p → Derives c us q →
    ts ++ rest = us ++ rest' → Ends c.looseness rest → Ends c.looseness rest' → ts = us ∧ p = q

theorem Chain.ends (chain : Chain c p ts q) (ends : Ends c.looseness rest) :
    Ends c.operand.looseness (ts ++ rest) := by
  cases chain with
  | nil => exact ends.mono (by cases c <;> decide)
  | cons operator _ _ => simpa [Ends] using (join?_hold operator).2

theorem Chain.head_not_ends (chain : Chain c p (t :: ts) q) : ¬ Ends c.looseness (t :: ts ++ rest) := by
  cases chain with
  | cons operator _ _ =>
    intro ends
    exact absurd (join?_hold operator).1 (Nat.not_lt.mpr (ends t rfl))

theorem Chain.unique (operands : Unambiguous c.operand n) (first : Chain c p ts q)
    (second : Chain c p us r) (bound : ts.length ≤ n) (same : ts ++ rest = us ++ rest')
    (ends : Ends c.looseness rest) (ends' : Ends c.looseness rest') : ts = us ∧ q = r := by
  induction first generalizing us with
  | nil =>
    cases us with
    | nil =>
      cases second
      exact ⟨rfl, rfl⟩
    | cons t us =>
      rw [List.nil_append] at same
      exact absurd (same ▸ ends) second.head_not_ends
  | @cons t f ts vs p q r operator operand chain ih =>
    cases second with
    | nil =>
      rw [List.nil_append] at same
      exact absurd (same ▸ ends') (Chain.cons operator operand chain).head_not_ends
    | @cons t' f' ts' vs' _ q' _ operator' operand' chain' =>
      simp only [List.cons_append, List.append_assoc, List.cons.injEq] at same
      obtain ⟨rfl, same⟩ := same
      cases operator.symm.trans operator'
      simp only [List.length_cons, List.length_append] at bound
      obtain ⟨rfl, rfl⟩ := operands _ _ _ _ _ _ (by omega) operand operand' same
        (chain.ends ends) (chain'.ends ends')
      obtain ⟨rfl, rfl⟩ := ih chain' (by omega) (List.append_cancel_left same)
      exact ⟨rfl, rfl⟩

theorem Unambiguous.join (joined : c = .sum ∨ c = .product)
    (operands : Unambiguous c.operand n) : Unambiguous c n := by
  intro ts us p q rest rest' bound first second same ends ends'
  obtain ⟨ts, ts', p, rfl, operand, chain⟩ := first.exists_chain joined
  obtain ⟨us, us', q, rfl, operand', chain'⟩ := second.exists_chain joined
  rw [List.append_assoc, List.append_assoc] at same
  rw [List.length_append] at bound
  obtain ⟨rfl, rfl⟩ := operands _ _ _ _ _ _ (by omega) operand operand' same
    (chain.ends ends) (chain'.ends ends')
  obtain ⟨rfl, rfl⟩ := chain.unique operands chain' (by omega) (List.append_cancel_left same)
    ends ends'
  exact ⟨rfl, rfl⟩

/-- What is inside parentheses ends with the same parenthesis. -/
theorem Unambiguous.inside (sums : ∀ m < n, Unambiguous .sum m) (shorter : ts.length < n)
    (first : Derives .sum ts p) (second : Derives .sum us q)
    (same : ts ++ [.closeParen] ++ rest = us ++ [.closeParen] ++ rest') : ts = us ∧ p = q := by
  rw [List.append_assoc, List.append_assoc] at same
  exact sums _ shorter _ _ _ _ _ _ (Nat.le_refl _) first second same
    (by simp [Ends, hold]) (by simp [Ends, hold])

/-- A name by itself is not called. -/
theorem name_ne_call {n n' : String} (ends : Ends Category.primary.looseness rest) :
    [.word n] ++ rest ≠ .word n' :: .openParen :: us ++ rest' := by
  intro same
  have next : rest = .openParen :: (us ++ rest') := (List.cons.inj same).2
  exact absurd (ends .openParen (by rw [next]; rfl)) (by decide)

theorem Unambiguous.primary (sums : ∀ m < n, Unambiguous .sum m) : Unambiguous .primary n := by
  intro ts us p q rest rest' bound first second same ends ends'
  cases first with
  | number =>
    cases second with
    | number =>
      cases (List.cons.inj same).1
      exact ⟨rfl, rfl⟩
    | _ => cases (List.cons.inj same).1
  | name finite =>
    cases second with
    | name finite' =>
      cases (List.cons.inj same).1
      exact ⟨rfl, rfl⟩
    | call => exact absurd same (name_ne_call ends)
    | _ => cases (List.cons.inj same).1
  | group sum =>
    cases second with
    | group sum' =>
      simp only [List.length_cons, List.length_append] at bound
      obtain ⟨rfl, rfl⟩ := Unambiguous.inside sums (by omega) sum sum' (List.cons.inj same).2
      exact ⟨rfl, rfl⟩
    | _ => cases (List.cons.inj same).1
  | call known sum =>
    cases second with
    | name => exact absurd same.symm (name_ne_call ends')
    | call known' sum' =>
      obtain ⟨head, tail⟩ := List.cons.inj same
      cases head
      cases known.symm.trans known'
      simp only [List.length_cons, List.length_append] at bound
      obtain ⟨rfl, rfl⟩ := Unambiguous.inside sums (by omega) sum sum' (List.cons.inj tail).2
      exact ⟨rfl, rfl⟩
    | _ => cases (List.cons.inj same).1

theorem Unambiguous.power (bases : Unambiguous .primary n)
    (exponents : ∀ m < n, Unambiguous .unary m) : Unambiguous .power n := by
  have tighter : ∀ {rest}, Ends Category.power.looseness rest →
      Ends Category.primary.looseness rest := fun ends => ends.mono (by decide)
  have caret : ∀ {ts}, Ends Category.primary.looseness (.caret :: ts) := by
    simp [Ends, hold, Category.looseness]
  have stops : ∀ {ts}, ¬ Ends Category.power.looseness (.caret :: ts) := by
    intro ts ends
    exact absurd (ends .caret rfl) (by decide)
  intro ts us p q rest rest' bound first second same ends ends'
  cases first with
  | base base =>
    cases second with
    | base base' => exact bases _ _ _ _ _ _ bound base base' same (tighter ends) (tighter ends')
    | power base' _ =>
      rw [List.append_assoc] at same
      obtain ⟨rfl, rfl⟩ := bases _ _ _ _ _ _ bound base base' same (tighter ends) caret
      exact absurd (List.append_cancel_left same ▸ ends) stops
  | power base exponent =>
    rw [List.append_assoc] at same
    rw [List.length_append, List.length_cons] at bound
    cases second with
    | base base' =>
      obtain ⟨rfl, rfl⟩ := bases _ _ _ _ _ _ (by omega) base base' same caret (tighter ends')
      exact absurd (List.append_cancel_left same ▸ ends') stops
    | power base' exponent' =>
      rw [List.append_assoc] at same
      obtain ⟨rfl, rfl⟩ := bases _ _ _ _ _ _ (by omega) base base' same caret caret
      have after := (List.cons.inj (List.append_cancel_left same)).2
      obtain ⟨rfl, rfl⟩ := exponents _ (by omega) _ _ _ _ _ _ (Nat.le_refl _) exponent exponent'
        after ends ends'
      exact ⟨rfl, rfl⟩

/-- An operand without a sign does not start with one. -/
theorem signed_ne_power (sign : hold t ≠ 4) (derives : Derives .power ts p) :
    t :: us ++ rest ≠ ts ++ rest' := by
  intro same
  obtain ⟨t', us', rfl, operand⟩ := derives.opens (.inr rfl)
  cases (List.cons.inj same).1
  exact sign operand

theorem Unambiguous.unary (powers : Unambiguous .power n)
    (operands : ∀ m < n, Unambiguous .unary m) : Unambiguous .unary n := by
  intro ts us p q rest rest' bound first second same ends ends'
  cases first with
  | negative operand =>
    cases second with
    | negative operand' =>
      obtain ⟨rfl, rfl⟩ := operands _ bound _ _ _ _ _ _ (Nat.le_refl _) operand operand'
        (List.cons.inj same).2 ends ends'
      exact ⟨rfl, rfl⟩
    | positive => cases (List.cons.inj same).1
    | unsigned operand' => exact absurd same (signed_ne_power (by decide) operand')
  | positive operand =>
    cases second with
    | positive operand' =>
      obtain ⟨rfl, rfl⟩ := operands _ bound _ _ _ _ _ _ (Nat.le_refl _) operand operand'
        (List.cons.inj same).2 ends ends'
      exact ⟨rfl, rfl⟩
    | negative => cases (List.cons.inj same).1
    | unsigned operand' => exact absurd same (signed_ne_power (by decide) operand')
  | unsigned operand =>
    cases second with
    | unsigned operand' => exact powers _ _ _ _ _ _ bound operand operand' same ends ends'
    | negative => exact absurd same.symm (signed_ne_power (by decide) operand)
    | positive => exact absurd same.symm (signed_ne_power (by decide) operand)

/-- The categories in the order in which they rest on each other, with the
shorter ones given. -/
theorem unambiguous (n : Nat) : Unambiguous .unary n ∧ Unambiguous .sum n := by
  induction n using Nat.strongRecOn with
  | ind n ih =>
    have primary : Unambiguous .primary n := .primary fun m less => (ih m less).2
    have unary : Unambiguous .unary n :=
      .unary (.power primary fun m less => (ih m less).1) fun m less => (ih m less).1
    have product : Unambiguous .product n := .join (.inr rfl) unary
    exact ⟨unary, .join (.inl rfl) product⟩

/-- A text of tokens is derived in one way. -/
theorem Derives.unique (first : Derives .sum ts p) (second : Derives .sum ts q) : p = q :=
  ((unambiguous ts.length).2 ts ts p q [] [] (Nat.le_refl _) first second rfl
    (by simp [Ends]) (by simp [Ends])).2

end Parser

end Discharge
