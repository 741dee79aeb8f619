import Discharge.Proofs.Document.Quoting
import Discharge.Proofs.Text.Lexing

/-! Reading what is written. A text stands for a value if, behind any blanks and in
front of anything that cannot go on with a number, it is read as the value; lists
of such texts, separated by commas and blanks, stand for arrays and objects. So
the layout of a document does not matter to what is read. -/

namespace Discharge.JsonReader

variable {cs cs' tail tail' rest ws ws' : List Char} {c : Char} {d v : Datum}
  {ps : List Piece} {vs : List Datum} {m : Datum × Datum} {ms : List (Datum × Datum)}

/-! ## What is read, and what is left -/

/-- The first character that is no blank, and what follows it. -/
def Next (cs : List Char) (c : Char) (rest : List Char) : Prop :=
  ∃ shorter, next cs = some (c, ⟨rest, shorter⟩)

/-- The characters start with the value. -/
def Reads (cs : List Char) (d : Datum) (rest : List Char) : Prop :=
  ∃ shorter, value cs = some (d, ⟨rest, shorter⟩)

/-- The characters start with the items of an array and its closing bracket. -/
def ReadsItems (first : Bool) (cs : List Char) (vs : List Datum) (rest : List Char) : Prop :=
  ∃ shorter, items first cs = some (vs, ⟨rest, shorter⟩)

/-- The characters start with a member of an object. -/
def ReadsMember (cs : List Char) (m : Datum × Datum) (rest : List Char) : Prop :=
  ∃ shorter, member cs = some (m, ⟨rest, shorter⟩)

/-- The characters start with the members of an object and its closing brace. -/
def ReadsMembers (first : Bool) (cs : List Char) (ms : List (Datum × Datum)) (rest : List Char) :
    Prop :=
  ∃ shorter, members first cs = some (ms, ⟨rest, shorter⟩)

theorem Reads.quoted (open_ : Next cs '"' tail) (body : Body tail ps rest) :
    Reads cs (ofPieces ps) rest := by
  obtain ⟨shorter, found⟩ := open_
  obtain ⟨shorter', read⟩ := body
  refine ⟨Nat.lt_trans shorter' shorter, ?_⟩
  rw [value, found]
  simp [read]

theorem Reads.sequence (open_ : Next cs '[' tail) (all : ReadsItems true tail vs rest) :
    Reads cs (.sequence vs) rest := by
  obtain ⟨shorter, found⟩ := open_
  obtain ⟨shorter', read⟩ := all
  refine ⟨Nat.lt_trans shorter' shorter, ?_⟩
  rw [value, found]
  simp [read]

theorem Reads.mapping (open_ : Next cs '\x7b' tail) (all : ReadsMembers true tail ms rest) :
    Reads cs (.mapping ms) rest := by
  obtain ⟨shorter, found⟩ := open_
  obtain ⟨shorter', read⟩ := all
  refine ⟨Nat.lt_trans shorter' shorter, ?_⟩
  rw [value, found]
  simp [read]

theorem ReadsItems.close (close : Next cs ']' rest) (first : Bool) :
    ReadsItems first cs [] rest := by
  obtain ⟨shorter, found⟩ := close
  refine ⟨shorter, ?_⟩
  rw [items, found]
  simp

theorem ReadsItems.first (start : Next cs c cs') (other : c ≠ ']') (item : Reads cs d tail)
    (others : ReadsItems false tail vs rest) : ReadsItems true cs (d :: vs) rest := by
  obtain ⟨shorter, found⟩ := start
  obtain ⟨shorter', read⟩ := item
  obtain ⟨shorter'', read'⟩ := others
  refine ⟨Nat.lt_trans shorter'' shorter', ?_⟩
  rw [items, found]
  simp [other, read, read']

theorem ReadsItems.next (comma : Next cs ',' cs') (item : Reads cs' d tail)
    (others : ReadsItems false tail vs rest) : ReadsItems false cs (d :: vs) rest := by
  obtain ⟨shorter, found⟩ := comma
  obtain ⟨shorter', read⟩ := item
  obtain ⟨shorter'', read'⟩ := others
  refine ⟨Nat.lt_trans shorter'' (Nat.lt_trans shorter' shorter), ?_⟩
  rw [items, found]
  simp [read, read']

theorem ReadsMember.pair (open_ : Next cs '"' cs') (body : Body cs' ps tail)
    (colon : Next tail ':' tail') (read : Reads tail' v rest) :
    ReadsMember cs (ofPieces ps, v) rest := by
  obtain ⟨opened, found⟩ := open_
  obtain ⟨named, spelled⟩ := body
  obtain ⟨parted, found'⟩ := colon
  obtain ⟨valued, read⟩ := read
  refine ⟨by omega, ?_⟩
  rw [member, found]
  simp [spelled, found', read]

theorem ReadsMembers.close (close : Next cs '\x7d' rest) (first : Bool) :
    ReadsMembers first cs [] rest := by
  obtain ⟨shorter, found⟩ := close
  refine ⟨shorter, ?_⟩
  rw [members, found]
  simp

theorem ReadsMembers.first (start : Next cs '"' cs') (entry : ReadsMember cs m tail)
    (others : ReadsMembers false tail ms rest) : ReadsMembers true cs (m :: ms) rest := by
  obtain ⟨shorter, found⟩ := start
  obtain ⟨shorter', read⟩ := entry
  obtain ⟨shorter'', read'⟩ := others
  refine ⟨Nat.lt_trans shorter'' shorter', ?_⟩
  rw [members, found]
  simp [read, read']

theorem ReadsMembers.next (comma : Next cs ',' cs') (entry : ReadsMember cs' m tail)
    (others : ReadsMembers false tail ms rest) : ReadsMembers false cs (m :: ms) rest := by
  obtain ⟨shorter, found⟩ := comma
  obtain ⟨shorter', read⟩ := entry
  obtain ⟨shorter'', read'⟩ := others
  refine ⟨Nat.lt_trans shorter'' (Nat.lt_trans shorter' shorter), ?_⟩
  rw [members, found]
  simp [read, read']

/-! ## Blanks and boundaries -/

/-- Nothing but blanks. -/
def Blanks (ws : List Char) : Prop := ∀ c ∈ ws, isBlank c = true

theorem blanks_nil : Blanks [] := by
  intro c inside
  cases inside

theorem Blanks.append (blanks : Blanks ws) (blanks' : Blanks ws') : Blanks (ws ++ ws') :=
  fun c inside => (List.mem_append.mp inside).elim (blanks c) (blanks' c)

theorem next_visible (visible : isBlank c = false) (rest : List Char) :
    Next (c :: rest) c rest := by
  refine ⟨Nat.lt_succ_self _, ?_⟩
  rw [next]
  simp [visible]

theorem Next.behind {b : Char} (blank : isBlank b = true) (found : Next cs c rest) :
    Next (b :: cs) c rest := by
  obtain ⟨shorter, found⟩ := found
  refine ⟨Nat.lt_succ_of_lt shorter, ?_⟩
  rw [next]
  simp [blank, found]

theorem next_blanks (blanks : Blanks ws) (visible : isBlank c = false) (rest : List Char) :
    Next (ws ++ c :: rest) c rest := by
  induction ws with
  | nil => exact next_visible visible rest
  | cons b ws ih =>
    exact (ih fun c inside => blanks c (List.mem_cons_of_mem _ inside)).behind
      (blanks b List.mem_cons_self)

/-- Nothing that a number could go on with. -/
def Boundary (rest : List Char) : Prop :=
  ∀ c ∈ rest.head?, c.isDigit = false ∧ c ≠ '.' ∧ c ≠ 'e' ∧ c ≠ 'E'

theorem boundary_nil : Boundary [] := by
  intro c inside
  cases inside

theorem boundary_cons (other : c.isDigit = false ∧ c ≠ '.' ∧ c ≠ 'e' ∧ c ≠ 'E') :
    Boundary (c :: rest) := by
  intro c' inside
  cases inside
  exact other

/-- Blanks in front of a boundary are one. -/
theorem Boundary.blanks (blanks : Blanks ws) (boundary : Boundary rest) :
    Boundary (ws ++ rest) := by
  cases ws with
  | nil => exact boundary
  | cons b ws =>
    have blank := blanks b List.mem_cons_self
    simp only [isBlank, Bool.or_eq_true, beq_iff_eq] at blank
    refine boundary_cons ?_
    rcases blank with ((rfl | rfl) | rfl) | rfl <;> decide

/-! ## Texts -/

/-- The text stands for the value, wherever it is put. -/
structure Writes (text : List Char) (d : Datum) : Prop where
  start : ∃ c tail, text = c :: tail ∧ isBlank c = false ∧ c ≠ ']'
  reads : ∀ ws rest, Blanks ws → Boundary rest → Reads (ws ++ (text ++ rest)) d rest

/-- The text stands for the member of an object. -/
structure WritesMember (text : List Char) (m : Datum × Datum) : Prop where
  start : ∃ tail, text = '"' :: tail
  reads : ∀ ws rest, Blanks ws → Boundary rest → ReadsMember (ws ++ (text ++ rest)) m rest

/-- Each text behind a comma and blanks. -/
def separated (ws : List Char) (texts : List (List Char)) : List Char :=
  texts.flatMap fun text => ',' :: (ws ++ text)

theorem intercalate_eq_separated (text : List Char) (texts : List (List Char)) :
    (',' :: ws).intercalate (text :: texts) = text ++ separated ws texts := by
  induction texts generalizing text with
  | nil => simp [separated]
  | cons text' texts ih =>
    rw [List.intercalate_cons_cons, ih]
    simp [separated]

theorem boundary_separated (texts : List (List Char)) (blanks : Blanks ws')
    (closing : Boundary rest) : Boundary (separated ws texts ++ (ws' ++ rest)) := by
  cases texts with
  | nil => simpa [separated] using closing.blanks blanks
  | cons text texts => exact boundary_cons (by decide)

/-! ## Arrays and objects -/

theorem readsItems_separated {texts : List (List Char)} (blanks : Blanks ws)
    (blanks' : Blanks ws') (written : List.Forall₂ Writes texts vs) (rest : List Char) :
    ReadsItems false (separated ws texts ++ (ws' ++ ']' :: rest)) vs rest := by
  induction written with
  | nil => exact .close (next_blanks blanks' rfl rest) false
  | @cons text v texts vs item _ ih =>
    have boundary : Boundary (separated ws texts ++ (ws' ++ ']' :: rest)) :=
      boundary_separated texts blanks' (boundary_cons (by decide))
    have comma := next_visible (c := ',') rfl
      (ws ++ (text ++ (separated ws texts ++ (ws' ++ ']' :: rest))))
    simpa [separated] using ReadsItems.next comma (item.reads ws _ blanks boundary) ih

theorem writes_sequence {texts : List (List Char)} (blanks : Blanks ws) (blanks' : Blanks ws')
    (written : List.Forall₂ Writes texts vs) :
    Writes ('[' :: (ws ++ ((',' :: ws).intercalate texts ++ (ws' ++ [']'])))) (.sequence vs) := by
  refine ⟨⟨'[', _, rfl, rfl, by decide⟩, fun before rest blanksBefore _ => ?_⟩
  have start := next_blanks blanksBefore (c := '[') rfl
    (ws ++ ((',' :: ws).intercalate texts ++ (ws' ++ ']' :: rest)))
  refine Eq.subst (motive := fun cs => Reads cs _ _) ?_ (Reads.sequence start ?_)
  · simp
  cases written with
  | nil =>
    have close := next_blanks (blanks.append blanks') (c := ']') rfl rest
    exact .close (by simpa using close) true
  | @cons text v texts vs item others =>
    have boundary : Boundary (separated ws texts ++ (ws' ++ ']' :: rest)) :=
      boundary_separated texts blanks' (boundary_cons (by decide))
    obtain ⟨c, tail, rfl, visible, other⟩ := item.start
    have first := next_blanks blanks visible
      (tail ++ (separated ws texts ++ (ws' ++ ']' :: rest)))
    rw [intercalate_eq_separated, List.append_assoc]
    exact .first first other (item.reads ws _ blanks boundary)
      (readsItems_separated blanks blanks' others rest)

theorem readsMembers_separated {texts : List (List Char)} (blanks : Blanks ws)
    (blanks' : Blanks ws') (written : List.Forall₂ WritesMember texts ms) (rest : List Char) :
    ReadsMembers false (separated ws texts ++ (ws' ++ '\x7d' :: rest)) ms rest := by
  induction written with
  | nil => exact .close (next_blanks blanks' rfl rest) false
  | @cons text v texts vs entry _ ih =>
    have boundary : Boundary (separated ws texts ++ (ws' ++ '\x7d' :: rest)) :=
      boundary_separated texts blanks' (boundary_cons (by decide))
    have comma := next_visible (c := ',') rfl
      (ws ++ (text ++ (separated ws texts ++ (ws' ++ '\x7d' :: rest))))
    simpa [separated] using ReadsMembers.next comma (entry.reads ws _ blanks boundary) ih

theorem writes_mapping {texts : List (List Char)} (blanks : Blanks ws) (blanks' : Blanks ws')
    (written : List.Forall₂ WritesMember texts ms) :
    Writes ('\x7b' :: (ws ++ ((',' :: ws).intercalate texts ++ (ws' ++ ['\x7d']))))
      (.mapping ms) := by
  refine ⟨⟨'\x7b', _, rfl, rfl, by decide⟩, fun before rest blanksBefore _ => ?_⟩
  have start := next_blanks blanksBefore (c := '\x7b') rfl
    (ws ++ ((',' :: ws).intercalate texts ++ (ws' ++ '\x7d' :: rest)))
  refine Eq.subst (motive := fun cs => Reads cs _ _) ?_ (Reads.mapping start ?_)
  · simp
  cases written with
  | nil =>
    have close := next_blanks (blanks.append blanks') (c := '\x7d') rfl rest
    exact .close (by simpa using close) true
  | @cons text v texts vs entry others =>
    have boundary : Boundary (separated ws texts ++ (ws' ++ '\x7d' :: rest)) :=
      boundary_separated texts blanks' (boundary_cons (by decide))
    obtain ⟨tail, rfl⟩ := entry.start
    have first := next_blanks blanks (c := '"') rfl
      (tail ++ (separated ws texts ++ (ws' ++ '\x7d' :: rest)))
    rw [intercalate_eq_separated, List.append_assoc]
    exact .first first (entry.reads ws _ blanks boundary)
      (readsMembers_separated blanks blanks' others rest)

/-! ## Scalars -/

theorem body_quote (s : String) (rest : List Char) :
    ∃ ps, Body (s.toList.flatMap Json.escapeChar ++ '"' :: rest) ps rest ∧
      ofPieces ps = .text s := by
  obtain ⟨ps, body, spells⟩ := body_flatMap s.toList rest
  refine ⟨ps, body, ?_⟩
  rw [ofPieces, spells.joinPieces]
  simp

theorem toList_quote (s : String) :
    (Json.quote s).toList = '"' :: (s.toList.flatMap Json.escapeChar ++ ['"']) := by
  simp [Json.quote]

theorem writes_quote (s : String) : Writes (Json.quote s).toList (.text s) := by
  refine ⟨⟨'"', _, toList_quote s, rfl, by decide⟩, fun ws rest blanks _ => ?_⟩
  obtain ⟨ps, body, spelled⟩ := body_quote s rest
  have start := next_blanks blanks (c := '"') rfl
    (s.toList.flatMap Json.escapeChar ++ '"' :: rest)
  rw [toList_quote, ← spelled]
  simpa using Reads.quoted start body

theorem writesMember_quote {text : List Char} (k : String) (blanks : Blanks ws)
    (written : Writes text v) :
    WritesMember ((Json.quote k).toList ++ ':' :: (ws ++ text)) (.text k, v) := by
  refine ⟨⟨_, by rw [toList_quote, List.cons_append]⟩, fun before rest blanksBefore boundary => ?_⟩
  obtain ⟨ps, body, spelled⟩ := body_quote k (':' :: (ws ++ (text ++ rest)))
  have start := next_blanks blanksBefore (c := '"') rfl
    (k.toList.flatMap Json.escapeChar ++ '"' :: ':' :: (ws ++ (text ++ rest)))
  have colon := next_visible (c := ':') rfl (ws ++ (text ++ rest))
  rw [toList_quote, ← spelled]
  simpa using ReadsMember.pair start body colon (written.reads ws rest blanks boundary)

/-! ## Words and numbers -/

theorem Reads.null (start : Next cs 'n' ('u' :: 'l' :: 'l' :: rest)) : Reads cs .null rest := by
  obtain ⟨shorter, found⟩ := start
  refine ⟨by simp only [List.length_cons] at shorter; omega, ?_⟩
  rw [value, found]
  simp [word]

theorem Reads.true_ (start : Next cs 't' ('r' :: 'u' :: 'e' :: rest)) :
    Reads cs (.bool true) rest := by
  obtain ⟨shorter, found⟩ := start
  refine ⟨by simp only [List.length_cons] at shorter; omega, ?_⟩
  rw [value, found]
  simp [word]

theorem Reads.false_ (start : Next cs 'f' ('a' :: 'l' :: 's' :: 'e' :: rest)) :
    Reads cs (.bool false) rest := by
  obtain ⟨shorter, found⟩ := start
  refine ⟨by simp only [List.length_cons] at shorter; omega, ?_⟩
  rw [value, found]
  simp [word]

/-- The characters start with a number without a sign. -/
def ReadsUnsigned (negative : Bool) (cs : List Char) (d : Datum) (rest : List Char) : Prop :=
  ∃ shorter, unsignedNumber negative cs = some (d, ⟨rest, shorter⟩)

theorem Reads.negative (start : Next cs '-' tail) (number : ReadsUnsigned true tail d rest) :
    Reads cs d rest := by
  obtain ⟨shorter, found⟩ := start
  obtain ⟨shorter', read⟩ := number
  refine ⟨Nat.lt_trans shorter' shorter, ?_⟩
  rw [value, found]
  simp [JsonReader.number, read]

theorem Reads.unsigned (start : Next cs c tail) (digit : c.isDigit = true)
    (number : ReadsUnsigned false (c :: tail) d rest) : Reads cs d rest := by
  obtain ⟨shorter, found⟩ := start
  obtain ⟨shorter', read⟩ := number
  have other {c' : Char} (symbol : c'.isDigit = false) : c ≠ c' := by
    rintro rfl
    rw [digit] at symbol
    cases symbol
  refine ⟨Nat.lt_of_lt_of_le shorter' shorter, ?_⟩
  rw [value, found]
  simp [JsonReader.number, read, other]

theorem digits1_run {ds : List Char} (digits : ds.all Char.isDigit = true) (some_ : ds ≠ [])
    (boundary : Boundary rest) : ∃ shorter, digits1 (ds ++ rest) = some (ds, ⟨rest, shorter⟩) := by
  cases ds with
  | nil => exact absurd rfl some_
  | cons c ds =>
    obtain ⟨first, others⟩ : c.isDigit = true ∧ ds.all Char.isDigit = true := by
      simpa using digits
    obtain ⟨taken, dropped⟩ := Token.takeWhile_run others fun c inside => (boundary c inside).1
    refine ⟨by simp only [List.cons_append, List.length_cons, List.length_append]; omega, ?_⟩
    simp [digits1, first, taken, dropped]

theorem fraction_boundary (boundary : Boundary rest) :
    fraction rest = some (none, ⟨rest, Nat.le_refl _⟩) := by
  unfold fraction
  split
  · exact absurd rfl (boundary '.' rfl).2.1
  · rfl

theorem exponent_boundary (boundary : Boundary rest) :
    exponent rest = some (none, ⟨rest, Nat.le_refl _⟩) := by
  cases rest with
  | nil => rfl
  | cons c rest =>
    obtain ⟨-, -, small, capital⟩ := boundary c rfl
    simp [exponent, small, capital]

theorem readsUnsigned_run {ds : List Char} (negative : Bool) (digits : ds.all Char.isDigit = true)
    (some_ : ds ≠ []) (leading : ds.head? = some '0' → ds.length = 1) (boundary : Boundary rest) :
    ReadsUnsigned negative (ds ++ rest) (Literal.value ⟨negative, ds, none, none⟩) rest := by
  obtain ⟨shorter, read⟩ := digits1_run digits some_ boundary
  refine ⟨shorter, ?_⟩
  have allowed : ¬(ds.head? = some '0' ∧ ds.length ≠ 1) := fun bad => bad.2 (leading bad.1)
  rw [unsignedNumber, read]
  simp only [Option.bind_eq_bind, Option.bind_some, allowed, if_false, fraction_boundary boundary,
    exponent_boundary boundary]
  rfl

/-- The decimal digits of a number start with a zero only if it is zero. -/
theorem head?_toDigits {n : Nat} (positive : 0 < n) :
    (Nat.toDigits 10 n).head? ≠ some '0' := by
  induction n using Nat.strongRecOn with
  | ind n ih =>
    by_cases small : n < 10
    · rw [Nat.toDigits_of_lt_base small]
      interval_cases n <;> decide
    · rw [Nat.toDigits_of_base_le (by omega) (by omega)]
      have first := ih (n / 10) (by omega) (by omega)
      cases digits : Nat.toDigits 10 (n / 10) with
      | nil => exact absurd digits Nat.toDigits_ne_nil
      | cons c cs => simpa [digits] using first

theorem all_toDigits (n : Nat) : (Nat.toDigits 10 n).all Char.isDigit = true :=
  List.all_eq_true.mpr fun _ inside => Nat.isDigit_of_mem_toDigits (by omega) (by omega) inside

theorem digitsValue_toDigits (n : Nat) : Token.digitsValue (Nat.toDigits 10 n) = n := by
  have read : Nat.ofDigitChars 10 (Nat.toDigits 10 n) 0 = n := Nat.ofDigitChars_ten_toDigits
  rwa [Nat.ofDigitChars_eq_foldl] at read

theorem readsUnsigned_toDigits (negative : Bool) (n : Nat) (boundary : Boundary rest) :
    ReadsUnsigned negative (Nat.toDigits 10 n ++ rest)
      (Literal.value ⟨negative, Nat.toDigits 10 n, none, none⟩) rest := by
  refine readsUnsigned_run negative (all_toDigits n) Nat.toDigits_ne_nil (fun zero => ?_) boundary
  obtain rfl | positive := Nat.eq_zero_or_pos n
  · rfl
  · exact absurd zero (head?_toDigits positive)

theorem writes_natural {n : Nat} (small : n < 2 ^ 64) :
    Writes (Nat.toDigits 10 n) (.integer n) := by
  obtain ⟨c, tail, digits⟩ := List.exists_cons_of_ne_nil (Nat.toDigits_ne_nil (n := n) (b := 10))
  have digit : c.isDigit = true := List.all_eq_true.mp (all_toDigits n) c (by simp [digits])
  have visible : isBlank c = false :=
    Bool.eq_false_iff.mpr fun blank => by
      simp only [isBlank, Bool.or_eq_true, beq_iff_eq] at blank
      rcases blank with ((rfl | rfl) | rfl) | rfl <;> cases digit
  refine ⟨⟨c, tail, digits, visible, by rintro rfl; cases digit⟩, fun ws rest blanks boundary => ?_⟩
  have value : Literal.value ⟨false, Nat.toDigits 10 n, none, none⟩ = .integer n := by
    have fits : n ≤ maxWord := by rw [maxWord, Nat.pow_eq]; omega
    simp [Literal.value, digitsValue_toDigits, fits]
  have read := readsUnsigned_toDigits false n boundary
  rw [value, digits, List.cons_append] at read
  rw [digits, List.cons_append]
  exact .unsigned (next_blanks blanks visible (tail ++ rest)) digit read

theorem writes_opposite {n : Nat} (positive : 0 < n) (small : n ≤ 2 ^ 63) :
    Writes ('-' :: Nat.toDigits 10 n) (.integer (-n)) := by
  refine ⟨⟨'-', _, rfl, rfl, by decide⟩, fun ws rest blanks boundary => ?_⟩
  have value : Literal.value ⟨true, Nat.toDigits 10 n, none, none⟩ = .integer (-n) := by
    have fits : n ≤ 9223372036854775808 := by omega
    simp [Literal.value, digitsValue_toDigits, positive, fits]
  have read := readsUnsigned_toDigits true n boundary
  rw [value] at read
  exact .negative (next_blanks blanks rfl _) read

theorem writes_integer {n : Int} (low : -(2 ^ 63) ≤ n) (high : n < 2 ^ 64) :
    Writes (toString n).toList (.integer n) := by
  cases n with
  | ofNat n =>
    have list : (toString (Int.ofNat n)).toList = Nat.toDigits 10 n := Nat.toList_repr
    rw [list]
    exact writes_natural (by simp only [Int.ofNat_eq_natCast] at high; omega)
  | negSucc n =>
    have list : (toString (Int.negSucc n)).toList = '-' :: Nat.toDigits 10 (n + 1) := by
      change ("-" ++ (n + 1).repr).toList = _
      rw [String.toList_append, Nat.toList_repr]
      rfl
    rw [list, Int.negSucc_eq]
    exact_mod_cast writes_opposite (n := n + 1) (by omega) (by omega)

theorem writes_null : Writes "null".toList .null := by
  refine ⟨⟨'n', ['u', 'l', 'l'], by decide, rfl, by decide⟩, fun ws rest blanks _ => ?_⟩
  exact .null (next_blanks blanks rfl ('u' :: 'l' :: 'l' :: rest))

theorem writes_bool (b : Bool) : Writes (if b then "true" else "false").toList (.bool b) := by
  cases b with
  | true =>
    refine ⟨⟨'t', ['r', 'u', 'e'], by decide, rfl, by decide⟩, fun ws rest blanks _ => ?_⟩
    exact .true_ (next_blanks blanks rfl ('r' :: 'u' :: 'e' :: rest))
  | false =>
    refine ⟨⟨'f', ['a', 'l', 's', 'e'], by decide, rfl, by decide⟩, fun ws rest blanks _ => ?_⟩
    exact .false_ (next_blanks blanks rfl ('a' :: 'l' :: 's' :: 'e' :: rest))

/-- A text that stands for a value is read as the value. -/
theorem Writes.read? {text : String} (written : Writes text.toList d) :
    read? text = some d := by
  have whole : Reads text.toList d [] := by
    simpa using written.reads [] [] blanks_nil boundary_nil
  obtain ⟨shorter, read⟩ := whole
  rw [JsonReader.read?, read]
  simp [JsonReader.next]

end Discharge.JsonReader
