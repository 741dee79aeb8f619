import Discharge.Proofs.Text.Splitting

/-! Byte offsets of tokens. The scanner counts bytes while it goes along the characters.
What is left of the text is kept in view, so that a run cannot be cut short, and so that an
offset is seen to be that of a character: it is as far from the end of the text as what is
left is long. -/

namespace Discharge.Token

variable {c : Char} {cs rest slice spelled : List Char} {t : Token} {l : Lexeme} {ls : List Lexeme}
  {offset stop : Nat} {text : String} {problem : Problem}

/-! ## Sizes -/

/-- The number of bytes of the characters. -/
def size (cs : List Char) : Nat := (String.ofList cs).utf8ByteSize

@[simp] theorem size_append (cs ds : List Char) : size (cs ++ ds) = size cs + size ds := by
  rw [size, String.ofList_append, String.utf8ByteSize_append, size, size]

@[simp] theorem size_cons (c : Char) (cs : List Char) : size (c :: cs) = c.utf8Size + size cs := by
  have first : size [c] = c.utf8Size := by
    rw [size, ← String.singleton_eq_ofList, String.utf8ByteSize_singleton]
  rw [← List.singleton_append, size_append, first]

theorem size_toList (text : String) : size text.toList = text.utf8ByteSize := by
  rw [size, String.ofList_toList]

/-- The characters of a token are single bytes. -/
theorem size_of_ascii (ascii : ∀ c ∈ cs, c.utf8Size = 1) : size cs = cs.length := by
  induction cs with
  | nil => rfl
  | cons c cs ih =>
    obtain ⟨first, others⟩ := List.forall_mem_cons.mp ascii
    rw [size_cons, first, ih others, List.length_cons, Nat.add_comm]

theorem utf8Size_blank (blank : isBlank c = true) : c.utf8Size = 1 := by
  simp only [isBlank, Bool.or_eq_true, beq_iff_eq] at blank
  rcases blank with ((rfl | rfl) | rfl) | rfl <;> rfl

theorem utf8Size_word (word : isWordChar c = true) : c.utf8Size = 1 := by
  have code := toNat_of_isWordChar word
  have same : c.val.toNat = c.toNat := rfl
  rw [Char.utf8Size_eq_one_iff, UInt32.le_iff_toNat_le, same]
  change c.toNat ≤ 127
  omega

theorem utf8Size_literal (literal : isLiteralChar c = true) : c.utf8Size = 1 := by
  rcases Bool.or_eq_true_iff.mp literal with digit | dot
  · exact utf8Size_word (isWordChar_of_isDigit digit)
  · rw [beq_iff_eq.mp dot]
    rfl

theorem utf8Size_ofChar (found : ofChar? c = some t) : c.utf8Size = 1 := by
  unfold ofChar? at found
  split at found <;> first | rfl | cases found

/-! ## Tokens in their place -/

/-- In front of `rest`, the characters spell the token: runs are as long as they can be. -/
inductive Spelled : List Char → Token → List Char → Prop
  | number {run rest : List Char} {q : ℚ} (literal : ∀ c ∈ run, isLiteralChar c = true)
    (longest : ∀ c ∈ rest.head?, isLiteralChar c = false) (decimal : Decimal run q) :
    Spelled run (.number q) rest
  | word {c : Char} {run rest : List Char} (start : isWordStart c = true)
    (others : ∀ c ∈ run, isWordChar c = true) (longest : ∀ c ∈ rest.head?, isWordChar c = false) :
    Spelled (c :: run) (.word (String.ofList (c :: run))) rest
  | stars {rest : List Char} : Spelled ['*', '*'] .caret rest
  | single {c : Char} {t : Token} {rest : List Char} (found : ofChar? c = some t)
    (lone : c = '*' → rest.head? ≠ some '*') : Spelled [c] t rest

/-- The characters start with the lexemes, and `rest` is left. Where `stop` is the offset
behind the last character, each lexeme has the offset of its first character. -/
inductive Lexes (stop : Nat) : List Char → List Lexeme → List Char → Prop
  | done {rest : List Char} : Lexes stop rest [] rest
  | blank {c : Char} {cs : List Char} {ls : List Lexeme} {rest : List Char}
    (blank : isBlank c = true) (others : Lexes stop cs ls rest) : Lexes stop (c :: cs) ls rest
  | token {offset : Nat} {t : Token} {spelled cs : List Char} {ls : List Lexeme}
    {rest : List Char} (first : Spelled spelled t cs)
    (place : offset + size (spelled ++ cs) = stop) (others : Lexes stop cs ls rest) :
    Lexes stop (spelled ++ cs) (⟨offset, t⟩ :: ls) rest

/-- In front of `rest`, the characters are no token and no blank: a character that no token
starts with, or the longest run of digits and dots, which is no decimal. -/
inductive Offends : List Char → Problem → List Char → Prop
  | character {c : Char} {rest : List Char} (visible : isBlank c = false)
    (foreign : ∀ spelled t rest, spelled.head? = some c → ¬Spelled spelled t rest) :
    Offends [c] (.unexpectedCharacter c) rest
  | literal {run rest : List Char} (some : run ≠ []) (literal : ∀ c ∈ run, isLiteralChar c = true)
    (longest : ∀ c ∈ rest.head?, isLiteralChar c = false) (malformed : ∀ q, ¬Decimal run q) :
    Offends run (.malformedNumber (String.ofList run)) rest

theorem Spelled.size (spelled_ : Spelled spelled t rest) : size spelled = spelled.length := by
  refine size_of_ascii ?_
  cases spelled_ with
  | number literal => exact fun c member => utf8Size_literal (literal c member)
  | word start others =>
    exact List.forall_mem_cons.mpr ⟨utf8Size_word (isWordChar_of_start start), fun c member =>
      utf8Size_word (others c member)⟩
  | stars => exact List.forall_mem_cons.mpr ⟨rfl, List.forall_mem_singleton.mpr rfl⟩
  | single found => simpa using utf8Size_ofChar found

/-- The scan of characters from byte `offset` on: the lexemes, or those up to what is no
token. -/
def Locates (offset : Nat) (cs : List Char) (outcome : Except ParseError (List Lexeme)) : Prop :=
  Ensures outcome (fun ls => Lexes (offset + size cs) cs ls [])
    (fun e => ∃ ls slice rest, Lexes (offset + size cs) cs ls (slice ++ rest) ∧
      e.offset + size (slice ++ rest) = offset + size cs ∧ Offends slice e.problem rest)

variable {x : Except ParseError (List Lexeme)}

theorem Locates.blank (blank : isBlank c = true) (others : Locates (offset + 1) cs x) :
    Locates offset (c :: cs) x := by
  have total : offset + size (c :: cs) = offset + 1 + size cs := by
    rw [size_cons, utf8Size_blank blank, Nat.add_assoc]
  rw [Locates, total]
  refine (Ensures.mono others fun ls lexes => ?_).mono_error ?_
  · exact .blank blank lexes
  · rintro e ⟨ls, slice, rest, lexes, place, offends⟩
    exact ⟨ls, slice, rest, .blank blank lexes, place, offends⟩

theorem Locates.token (first : Spelled spelled t cs)
    (others : Locates (offset + spelled.length) cs x) :
    Locates offset (spelled ++ cs) (x >>= fun rest => pure (⟨offset, t⟩ :: rest)) := by
  have total : offset + Token.size (spelled ++ cs) = offset + spelled.length + Token.size cs := by
    rw [size_append, first.size, Nat.add_assoc]
  rw [Locates, total]
  refine Ensures.bind (others.mono_error ?_) fun ls lexes => .token first total lexes
  rintro e ⟨ls, slice, rest, lexes, place, offends⟩
  exact ⟨_, slice, rest, .token first total lexes, place, offends⟩

theorem Locates.offends (offends : Offends slice problem rest) :
    Locates offset (slice ++ rest) (.error ⟨offset, problem⟩) :=
  ⟨[], slice, rest, .done, rfl, offends⟩

/-- No token starts with a character that the scanner refuses. -/
theorem not_spelled (literal : isLiteralChar c = false) (start : isWordStart c = false)
    (unknown : ofChar? c = none) (first : spelled.head? = some c) : ¬Spelled spelled t rest := by
  intro spelled_
  cases spelled_ with
  | number all longest decimal =>
    have all_c := all c (List.mem_of_mem_head? first)
    rw [literal] at all_c
    cases all_c
  | word start_c =>
    cases first
    rw [start] at start_c
    cases start_c
  | stars => cases first; cases unknown
  | single found =>
    cases first
    rw [unknown] at found
    cases found

/-- The scanner finds the longest tokens at their offsets, and stops at the first thing
that is none. -/
theorem scan_locates (offset : Nat) (cs : List Char) : Locates offset cs (scan offset cs) := by
  fun_induction scan offset cs with
  | case1 offset => exact .done
  | case2 offset c cs blank ih => exact ih.blank blank
  | case3 offset c cs visible literal run malformed =>
    obtain ⟨taken, longest, whole⟩ := run_longest isLiteralChar cs
    have all : ∀ d ∈ run, isLiteralChar d = true := List.forall_mem_cons.mpr ⟨literal, taken⟩
    have locates : Locates offset _ (.error ⟨offset, .malformedNumber (String.ofList run)⟩) :=
      .offends (.literal (List.cons_ne_nil _ _) all longest fun q decimal => by
        rw [(decimal?_eq_some all).mpr decimal] at malformed
        cases malformed)
    rwa [List.cons_append, whole] at locates
  | case4 offset c cs visible literal run q decimal ih =>
    obtain ⟨taken, longest, whole⟩ := run_longest isLiteralChar cs
    have all : ∀ d ∈ run, isLiteralChar d = true := List.forall_mem_cons.mpr ⟨literal, taken⟩
    have locates := Locates.token (.number all longest ((decimal?_eq_some all).mp decimal)) ih
    rwa [List.cons_append, whole] at locates
  | case5 offset c cs visible literal start run ih =>
    obtain ⟨taken, longest, whole⟩ := run_longest isWordChar cs
    have locates := Locates.token (.word start taken longest) ih
    rwa [List.cons_append, whole] at locates
  | case6 offset c cs visible literal start double ih =>
    rw [Bool.and_eq_true, beq_iff_eq, beq_iff_eq] at double
    obtain ⟨rfl, next⟩ := double
    obtain ⟨cs, rfl⟩ := List.head?_eq_some_iff.mp next
    exact Locates.token .stars ih
  | case7 offset c cs visible literal start double unknown =>
    refine .offends (.character (by simpa using visible) fun spelled t rest first => ?_)
    exact not_spelled (by simpa using literal) (by simpa using start) unknown first
  | case8 offset c cs visible literal start double t found ih =>
    refine Locates.token (.single found ?_) ih
    rintro rfl next
    simp [next] at double

/-! ## Texts -/

/-- Behind `offset` bytes of the text, `rest` is left: no character is split there. -/
def Cut (text : String) (offset : Nat) (rest : List Char) : Prop :=
  ∃ before : String, text = before ++ String.ofList rest ∧ offset = before.utf8ByteSize

/-- The text can be cut before and behind the characters of the lexeme. -/
def Sliced (text : String) (l : Lexeme) : Prop :=
  ∃ spelled rest, Spelled spelled l.token rest ∧ Cut text l.offset (spelled ++ rest) ∧
    Cut text (l.offset + size spelled) rest

theorem cut_of_suffix {before : List Char} (whole : text.toList = before ++ rest)
    (place : offset + size rest = text.utf8ByteSize) : Cut text offset rest := by
  refine ⟨String.ofList before, ?_, ?_⟩
  · rw [← String.ofList_append, ← whole, String.ofList_toList]
  · rw [← size_toList, whole, size_append] at place
    exact Nat.add_right_cancel place

theorem Cut.behind (cut : Cut text offset (slice ++ rest)) :
    Cut text (offset + size slice) rest := by
  obtain ⟨before, whole, rfl⟩ := cut
  refine ⟨before ++ String.ofList slice, ?_, ?_⟩
  · rw [whole, String.ofList_append, String.append_assoc]
  · rw [String.utf8ByteSize_append, size]

theorem Lexes.suffix (lexes : Lexes stop cs ls rest) : ∃ before, cs = before ++ rest := by
  induction lexes with
  | done => exact ⟨[], rfl⟩
  | @blank c _ _ _ _ _ ih =>
    obtain ⟨before, rfl⟩ := ih
    exact ⟨c :: before, rfl⟩
  | @token _ _ spelled _ _ _ _ _ _ ih =>
    obtain ⟨before, rfl⟩ := ih
    exact ⟨spelled ++ before, (List.append_assoc _ _ _).symm⟩

theorem Lexes.cut (lexes : Lexes text.utf8ByteSize text.toList ls rest)
    (place : offset + size rest = text.utf8ByteSize) : Cut text offset rest := by
  obtain ⟨before, whole⟩ := lexes.suffix
  exact cut_of_suffix whole place

theorem Lexes.located (lexes : Lexes stop cs ls rest) : ∀ l ∈ ls, ∃ before spelled after,
    cs = before ++ (spelled ++ after) ∧ Spelled spelled l.token after ∧
      l.offset + Token.size (spelled ++ after) = stop := by
  induction lexes with
  | done => exact nofun
  | @blank c _ _ _ _ _ ih =>
    intro l member
    obtain ⟨before, spelled, after, rfl, first, place⟩ := ih l member
    exact ⟨c :: before, spelled, after, rfl, first, place⟩
  | @token _ _ spelled cs _ _ first place _ ih =>
    refine List.forall_mem_cons.mpr ⟨⟨[], spelled, cs, rfl, first, place⟩, fun l member => ?_⟩
    obtain ⟨before, spelled', after, rfl, first', place'⟩ := ih l member
    exact ⟨spelled ++ before, spelled', after, (List.append_assoc _ _ _).symm, first', place'⟩

theorem Lexes.sliced (lexes : Lexes text.utf8ByteSize text.toList ls rest) :
    ∀ l ∈ ls, Sliced text l := by
  intro l member
  obtain ⟨before, spelled, after, whole, first, place⟩ := lexes.located l member
  have cut := cut_of_suffix whole place
  exact ⟨spelled, after, first, cut, cut.behind⟩

/-- The scan of a whole text. -/
theorem scanText_locates (text : String) :
    Ensures (scanText text)
      (fun ls => Lexes text.utf8ByteSize text.toList ls [])
      (fun e => ∃ ls slice rest, Lexes text.utf8ByteSize text.toList ls (slice ++ rest) ∧
        Cut text e.offset (slice ++ rest) ∧ Offends slice e.problem rest) := by
  have located := scan_locates 0 text.toList
  rw [Locates, Nat.zero_add, size_toList] at located
  refine located.mono_error ?_
  rintro e ⟨ls, slice, rest, lexes, place, offends⟩
  exact ⟨ls, slice, rest, lexes, lexes.cut place, offends⟩

end Discharge.Token
