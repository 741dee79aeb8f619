import Mathlib.Data.Rat.Lemmas
import Discharge.Expr.Token

/-! Splitting a text that is put together from written tokens. A text scans to
its tokens in front of anything that cannot go on with its last token, so that
texts put side by side scan to their tokens side by side. Offsets only matter
for errors and are forgotten. -/

namespace Discharge

/-- A letter or an underscore, and then letters, digits and underscores. -/
def isIdentifier (name : String) : Bool :=
  match name.toList with
  | [] => false
  | c :: cs => (c.isAlpha || c == '_') && cs.all fun d => d.isAlphanum || d == '_'

namespace Token

/-- The tokens are scanned first, and then the rest. -/
def Scanned (cs : List Char) (ts : List Token) (rest : List Char) : Prop :=
  ∀ offset, ∃ ls offset', ls.map Lexeme.token = ts ∧
    scan offset cs = (scan offset' rest).map (ls ++ ·)

variable {text a b : String} {ts us : List Token} {t : Token} {c : Char} {cs ds rest : List Char}

theorem Scanned.trans (first : Scanned cs ts ds) (second : Scanned ds us rest) :
    Scanned cs (ts ++ us) rest := by
  intro offset
  obtain ⟨ls, middle, tokens, scanned⟩ := first offset
  obtain ⟨ls', final, tokens', scanned'⟩ := second middle
  refine ⟨ls ++ ls', final, by simp [tokens, tokens'], ?_⟩
  rw [scanned, scanned']
  cases scan final rest <;> simp [Except.map]

/-! ## Single tokens -/

theorem scanned_blank (blank : isBlank c = true) (cs : List Char) : Scanned (c :: cs) [] cs := by
  intro offset
  refine ⟨[], offset + 1, rfl, ?_⟩
  rw [scan, if_pos blank]
  cases scan (offset + 1) cs <;> rfl

theorem scanned_ofChar (found : ofChar? c = some t) (lone : c = '*' → cs.head? ≠ some '*') :
    Scanned (c :: cs) [t] cs := by
  intro offset
  refine ⟨[⟨offset, t⟩], offset + 1, rfl, ?_⟩
  have plain : isBlank c = false ∧ isLiteralChar c = false ∧ isWordStart c = false := by
    unfold ofChar? at found
    split at found <;> first | decide | cases found
  have power : (c == '*' && cs.head? == some '*') = false := by
    by_cases star : c = '*'
    · simp [lone star]
    · simp [star]
  rw [scan]
  simp only [plain, power, found, Bool.false_eq_true, if_false]
  cases scan (offset + 1) cs <;> rfl

/-- A run of characters of one kind ends where another kind follows. -/
theorem takeWhile_run {p : Char → Bool} (run : cs.all p = true)
    (boundary : ∀ c ∈ rest.head?, p c = false) :
    (cs ++ rest).takeWhile p = cs ∧ (cs ++ rest).dropWhile p = rest := by
  have each : ∀ c ∈ cs, p c = true := List.all_eq_true.mp run
  rw [List.takeWhile_append_of_pos each, List.dropWhile_append_of_pos each]
  cases rest with
  | nil => simp
  | cons c rest =>
    have different := boundary c rfl
    simp [different]

theorem not_blank (visible : isLiteralChar c = true ∨ isWordStart c = true) : isBlank c = false := by
  rw [← Bool.not_eq_true]
  intro blank
  simp only [isBlank, Bool.or_eq_true, beq_iff_eq] at blank
  rcases blank with ((rfl | rfl) | rfl) | rfl <;> exact absurd visible (by decide)

theorem not_literal (start : isWordStart c = true) : isLiteralChar c = false := by
  unfold isWordStart at start
  unfold isLiteralChar
  rw [Bool.or_eq_false_iff, beq_eq_false_iff_ne]
  constructor
  · rw [← Bool.not_eq_true]
    intro digit
    delta Char.isAlpha Char.isUpper Char.isLower at start
    delta Char.isDigit at digit
    simp only [Bool.or_eq_true, Bool.and_eq_true, decide_eq_true_eq, beq_iff_eq, ge_iff_le,
      UInt32.le_iff_toNat_le] at start digit
    rcases start with letter | rfl
    · have limits : '9'.val.toNat < 'A'.val.toNat ∧ '9'.val.toNat < 'a'.val.toNat := by decide
      omega
    · exact absurd digit (by decide)
  · rintro rfl
    cases start

theorem isWordChar_of_start (start : isWordStart c = true) : isWordChar c = true := by
  simp only [isWordStart, isWordChar, Char.isAlphanum, Bool.or_eq_true] at start ⊢
  exact start.imp_left .inl

theorem isWordChar_of_isDigit (digit : c.isDigit = true) : isWordChar c = true := by
  simp [isWordChar, Char.isAlphanum, digit]

/-- The code points of digits, capitals, the underscore and small letters. -/
theorem toNat_of_isWordChar (word : isWordChar c = true) :
    (48 ≤ c.toNat ∧ c.toNat ≤ 57) ∨ (65 ≤ c.toNat ∧ c.toNat ≤ 90) ∨ c.toNat = 95 ∨
      (97 ≤ c.toNat ∧ c.toNat ≤ 122) := by
  unfold isWordChar Char.isAlphanum Char.isAlpha Char.isUpper Char.isLower Char.isDigit at word
  simp only [Bool.or_eq_true, Bool.and_eq_true, decide_eq_true_eq, beq_iff_eq, ge_iff_le,
    UInt32.le_iff_toNat_le] at word
  rcases word with letter | rfl
  · simp at letter
    omega
  · decide

theorem scanned_number {value : Rat} (digits : (c :: cs).all isLiteralChar = true)
    (literal : decimal? (c :: cs) = some value)
    (boundary : ∀ c ∈ rest.head?, isLiteralChar c = false) :
    Scanned (c :: cs ++ rest) [.number value] rest := by
  intro offset
  refine ⟨[⟨offset, .number value⟩], offset + (c :: cs).length, rfl, ?_⟩
  obtain ⟨first, others⟩ : isLiteralChar c = true ∧ cs.all isLiteralChar = true := by
    simpa using digits
  obtain ⟨taken, dropped⟩ := takeWhile_run others boundary
  rw [List.cons_append, scan]
  simp only [not_blank (.inl first), first, taken, dropped, literal, Bool.false_eq_true, if_false,
    if_true]
  cases scan (offset + (c :: cs).length) rest <;> rfl

theorem scanned_word (start : isWordStart c = true) (others : cs.all isWordChar = true)
    (boundary : ∀ c ∈ rest.head?, isWordChar c = false) :
    Scanned (c :: cs ++ rest) [.word (String.ofList (c :: cs))] rest := by
  intro offset
  refine ⟨[⟨offset, .word (String.ofList (c :: cs))⟩], offset + (c :: cs).length, rfl, ?_⟩
  obtain ⟨taken, dropped⟩ := takeWhile_run others boundary
  rw [List.cons_append, scan]
  simp only [not_blank (.inr start), start, not_literal start, taken, dropped,
    Bool.false_eq_true, if_false, if_true]
  cases scan (offset + (c :: cs).length) rest <;> rfl

/-! ## Texts -/

/-- No number and no word that ends here goes on with this text. -/
def Boundary (cs : List Char) : Prop :=
  ∀ c ∈ cs.head?, isWordChar c = false ∧ isLiteralChar c = false

/-- The text scans to the tokens, whatever comes after it at a boundary; it does
not start with a star. -/
structure Scans (text : String) (ts : List Token) : Prop where
  start : ∃ c cs, text.toList = c :: cs ∧ c ≠ '*'
  scanned : ∀ rest, Boundary rest → Scanned (text.toList ++ rest) ts rest

namespace Scans

theorem number (n : Nat) : Scans (toString n) [.number n] := by
  have list : (toString n).toList = Nat.toDigits 10 n := Nat.toList_repr
  have digits : ∀ c ∈ Nat.toDigits 10 n, c.isDigit = true := fun c member =>
    Nat.isDigit_of_mem_toDigits (by omega) (by omega) member
  have value : digitsValue (Nat.toDigits 10 n) = n := by
    have read : Nat.ofDigitChars 10 (Nat.toDigits 10 n) 0 = n := Nat.ofDigitChars_ten_toDigits
    rwa [Nat.ofDigitChars_eq_foldl] at read
  have literal : decimal? (Nat.toDigits 10 n) = some (n : Rat) := by
    obtain ⟨whole, none⟩ : (Nat.toDigits 10 n ++ []).takeWhile Char.isDigit = Nat.toDigits 10 n ∧
        (Nat.toDigits 10 n ++ []).dropWhile Char.isDigit = [] :=
      takeWhile_run (List.all_eq_true.mpr digits) (by simp)
    rw [List.append_nil] at whole none
    have proper : (Nat.toDigits 10 n).isEmpty = false := by simp [Nat.toDigits_ne_nil]
    unfold decimal?
    simp [whole, none, proper, value, Rat.mkRat_one]
  have literals : (Nat.toDigits 10 n).all isLiteralChar = true :=
    List.all_eq_true.mpr fun c member => by simp [isLiteralChar, digits c member]
  obtain ⟨c, cs, first⟩ := List.exists_cons_of_ne_nil (Nat.toDigits_ne_nil (n := n) (b := 10))
  rw [first] at list literal literals
  constructor
  · refine ⟨c, cs, list, ?_⟩
    rintro rfl
    simp [isLiteralChar] at literals
  · intro rest boundary
    rw [list]
    exact scanned_number literals literal fun c member => (boundary c member).2

theorem word {name : String} (identifier : isIdentifier name = true) :
    Scans name [.word name] := by
  obtain ⟨c, cs, list, start, others⟩ : ∃ c cs, name.toList = c :: cs ∧
      isWordStart c = true ∧ cs.all isWordChar = true := by
    unfold isIdentifier at identifier
    split at identifier
    · cases identifier
    · rename_i c cs list
      exact ⟨c, cs, list, Bool.and_eq_true_iff.mp identifier⟩
  have name : name = String.ofList (c :: cs) := by rw [← list, String.ofList_toList]
  constructor
  · refine ⟨c, cs, list, ?_⟩
    rintro rfl
    cases start
  · intro rest boundary
    rw [list, name]
    exact scanned_word start others fun c member => (boundary c member).1

/-- The characters that stand alone end a number or a word. -/
theorem boundary_of_char (found : ofChar? c = some t) (cs : List Char) : Boundary (c :: cs) := by
  intro d member
  obtain rfl : c = d := by simpa using member
  unfold ofChar? at found
  split at found <;> simp at found <;> decide

theorem boundary_blank (cs : List Char) : Boundary (' ' :: cs) := by
  intro d member
  obtain rfl : ' ' = d := by simpa using member
  decide

/-- A sign before a text. -/
theorem sign {op : String} (list : op.toList = [c]) (found : ofChar? c = some t) (plain : c ≠ '*')
    (scans : Scans text ts) : Scans (op ++ text) (t :: ts) := by
  constructor
  · exact ⟨c, text.toList, by simp [list], plain⟩
  · intro rest boundary
    have head : Scanned (c :: (text.toList ++ rest)) [t] (text.toList ++ rest) :=
      scanned_ofChar found fun star => absurd star plain
    have whole := head.trans (scans.scanned rest boundary)
    simpa [list] using whole

/-- Two texts with an operator in between. -/
theorem infixed {op : String} (list : op.toList = [c]) (found : ofChar? c = some t)
    (left : Scans a ts) (right : Scans b us) : Scans (a ++ op ++ b) (ts ++ t :: us) := by
  obtain ⟨d, ds, first, plain⟩ := left.start
  obtain ⟨e, es, second, plain'⟩ := right.start
  constructor
  · exact ⟨d, ds ++ c :: b.toList, by simp [first, list], plain⟩
  · intro rest boundary
    have operator : Scanned (c :: (b.toList ++ rest)) [t] (b.toList ++ rest) :=
      scanned_ofChar found fun _ => by simp [second, plain']
    have whole := (left.scanned _ (boundary_of_char found _)).trans
      (operator.trans (right.scanned rest boundary))
    simpa [list] using whole

/-- Two texts with an operator between blanks. -/
theorem spaced {op : String} (list : op.toList = [' ', c, ' ']) (found : ofChar? c = some t)
    (plain : c ≠ '*') (left : Scans a ts) (right : Scans b us) :
    Scans (a ++ op ++ b) (ts ++ t :: us) := by
  obtain ⟨d, ds, first, plain'⟩ := left.start
  constructor
  · exact ⟨d, ds ++ ' ' :: c :: ' ' :: b.toList, by simp [first, list], plain'⟩
  · intro rest boundary
    have operator : Scanned (c :: ' ' :: (b.toList ++ rest)) [t] (' ' :: (b.toList ++ rest)) :=
      scanned_ofChar found fun star => absurd star plain
    have middle := (scanned_blank (c := ' ') rfl _).trans (operator.trans
      ((scanned_blank (c := ' ') rfl _).trans
      (right.scanned rest boundary)))
    have whole := (left.scanned _ (boundary_blank _)).trans middle
    simpa [list] using whole

/-- A text in parentheses. -/
theorem group (scans : Scans text ts) :
    Scans ("(" ++ text ++ ")") (.openParen :: ts ++ [.closeParen]) := by
  constructor
  · exact ⟨'(', text.toList ++ [')'], by simp, by decide⟩
  · intro rest boundary
    have opening : Scanned ('(' :: (text.toList ++ ')' :: rest)) [.openParen]
        (text.toList ++ ')' :: rest) := scanned_ofChar rfl fun star => absurd star (by decide)
    have closing : Scanned (')' :: rest) [.closeParen] rest :=
      scanned_ofChar rfl fun star => absurd star (by decide)
    have whole := opening.trans ((scans.scanned _ (boundary_of_char rfl _)).trans closing)
    simpa using whole

/-- Two texts side by side, the second of which starts at a boundary. -/
theorem append (left : Scans a ts) (right : Scans b us) (boundary : Boundary b.toList) :
    Scans (a ++ b) (ts ++ us) := by
  obtain ⟨c, cs, first, plain⟩ := left.start
  obtain ⟨d, ds, second, -⟩ := right.start
  constructor
  · exact ⟨c, cs ++ b.toList, by simp [first], plain⟩
  · intro rest after
    have middle : Boundary (b.toList ++ rest) := by
      rw [second] at boundary ⊢
      exact boundary
    have whole := (left.scanned _ middle).trans (right.scanned rest after)
    simpa using whole

/-- A text does not start with a minus sign unless its tokens do. -/
theorem head_ne_minus (scans : Scans text ts) (other : ts.head? ≠ some .minus) :
    text.toList.head? ≠ some '-' := by
  intro sign
  obtain ⟨cs, list⟩ : ∃ cs, text.toList = '-' :: cs := by
    cases chars : text.toList with
    | nil => simp [chars] at sign
    | cons c cs =>
      obtain rfl : c = '-' := by simpa [chars] using sign
      exact ⟨cs, rfl⟩
  have minus : Scanned ('-' :: cs) [.minus] cs :=
    scanned_ofChar rfl fun star => absurd star (by decide)
  obtain ⟨ls, offset, tokens, whole⟩ := scans.scanned [] (by simp [Boundary]) 0
  obtain ⟨ls', offset', tokens', whole'⟩ := minus 0
  rw [List.append_nil, list, whole', scan] at whole
  apply other
  cases scanned : scan offset' cs with
  | error e => simp [scanned, Except.map] at whole
  | ok rest =>
    have same : ls' ++ rest = ls := by simpa [scanned, Except.map] using whole
    rw [← tokens, ← same, List.map_append, tokens']
    rfl

/-- The text by itself. -/
theorem scanText (scans : Scans text ts) :
    ∃ ls, ls.map Lexeme.token = ts ∧ Token.scanText text = .ok ls := by
  obtain ⟨ls, offset, tokens, whole⟩ := scans.scanned [] (by simp [Boundary]) 0
  refine ⟨ls, tokens, ?_⟩
  rw [List.append_nil] at whole
  rw [Token.scanText, whole, scan]
  simp [Except.map]

end Scans

end Token

end Discharge
