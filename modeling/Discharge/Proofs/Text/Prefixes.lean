import Discharge.Proofs.Text.Grammar

/-! Beginnings of sentences. Without what names stand for, the grammar only says which
tokens may stand side by side, and that parentheses match. So a reader that never looks
back, and counts the open parentheses, gets through every sentence; where it is stuck, no
sentence goes on. -/

namespace Discharge.Parser

variable {c : Category} {t : Token} {ts us : List Token} {p : Phrase} {d : Nat} {w : Bool}

/-- The rules of the grammar, with every name as an operand and as a function. -/
inductive Sentence : Category → List Token → Prop
  | number (q : Rat) : Sentence .primary [.number q]
  | name (n : String) : Sentence .primary [.word n]
  | group {ts : List Token} (inner : Sentence .sum ts) :
    Sentence .primary (.openParen :: (ts ++ [.closeParen]))
  | call (n : String) {ts : List Token} (argument : Sentence .sum ts) :
    Sentence .primary (.word n :: .openParen :: (ts ++ [.closeParen]))
  | base {ts : List Token} (base : Sentence .primary ts) : Sentence .power ts
  | power {ts us : List Token} (base : Sentence .primary ts) (exponent : Sentence .unary us) :
    Sentence .power (ts ++ .caret :: us)
  | signed {t : Token} {ts : List Token} (sign : t = .plus ∨ t = .minus)
    (operand : Sentence .unary ts) : Sentence .unary (t :: ts)
  | unsigned {ts : List Token} (operand : Sentence .power ts) : Sentence .unary ts
  | factor {ts : List Token} (only : Sentence .unary ts) : Sentence .product ts
  | times {t : Token} {ts us : List Token} (left : Sentence .product ts)
    (operator : t = .star ∨ t = .slash) (right : Sentence .unary us) :
    Sentence .product (ts ++ t :: us)
  | term {ts : List Token} (only : Sentence .product ts) : Sentence .sum ts
  | add {t : Token} {ts us : List Token} (left : Sentence .sum ts)
    (operator : t = .plus ∨ t = .minus) (right : Sentence .product us) :
    Sentence .sum (ts ++ t :: us)

/-- The tokens can be continued to a sentence. -/
def Viable (ts : List Token) : Prop := ∃ us, Sentence .sum (ts ++ us)

/-- What is derived is a sentence. -/
theorem Derives.sentence (derives : Derives c ts p) : Sentence c ts := by
  induction derives with
  | number q => exact .number q
  | name => exact .name _
  | group _ ih => exact .group ih
  | call _ _ ih => exact .call _ ih
  | base _ ih => exact .base ih
  | power _ _ ih ih' => exact .power ih ih'
  | negative _ ih => exact .signed (.inr rfl) ih
  | positive _ ih => exact .signed (.inl rfl) ih
  | unsigned _ ih => exact .unsigned ih
  | factor _ ih => exact .factor ih
  | times _ _ ih ih' => exact .times ih (.inl rfl) ih'
  | quotient _ _ ih ih' => exact .times ih (.inr rfl) ih'
  | term _ ih => exact .term ih
  | plus _ _ ih ih' => exact .add ih (.inl rfl) ih'
  | minus _ _ ih ih' => exact .add ih (.inr rfl) ih'

/-- A token without the name it carries. -/
def shape : Token → Token
  | .word _ => .word "x"
  | t => t

theorem eq_of_shape {t' : Token} (same : shape t' = shape t) (plain : ∀ n, t ≠ .word n) :
    t' = t := by
  cases t with
  | word n => exact absurd rfl (plain n)
  | _ => cases t' <;> first | exact same | cases same

theorem exists_word {n : String} (same : shape t = shape (.word n)) : ∃ m, t = .word m := by
  cases t with
  | word m => exact ⟨m, rfl⟩
  | _ => cases same

/-- A token that is no name is found again between tokens of the same shapes. -/
theorem exists_split {vs : List Token} (same : ts.map shape = (us ++ t :: vs).map shape)
    (plain : ∀ n, t ≠ .word n) : ∃ us' vs', ts = us' ++ t :: vs' ∧
      us'.map shape = us.map shape ∧ vs'.map shape = vs.map shape := by
  rw [List.map_append, List.map_cons] at same
  obtain ⟨us', rest, rfl, front, back⟩ := List.map_eq_append_iff.mp same
  obtain ⟨t', vs', rfl, kind, behind⟩ := List.map_eq_cons_iff.mp back
  rw [eq_of_shape kind plain]
  exact ⟨us', vs', rfl, front, behind⟩

/-- What is in parentheses has the same shapes as well. -/
theorem exists_inside (same : ts.map shape = (.openParen :: (us ++ [.closeParen])).map shape) :
    ∃ us', ts = .openParen :: (us' ++ [.closeParen]) ∧ us'.map shape = us.map shape := by
  obtain ⟨t', rest, rfl, kind, behind⟩ := List.map_eq_cons_iff.mp same
  obtain ⟨us', vs', rfl, inside, nothing⟩ := exists_split behind nofun
  obtain rfl : vs' = [] := List.map_eq_nil_iff.mp nothing
  rw [eq_of_shape kind nofun]
  exact ⟨us', rfl, inside⟩

/-- Names may be put in the place of others. -/
theorem Sentence.of_shape (sentence : Sentence c us) (same : ts.map shape = us.map shape) :
    Sentence c ts := by
  induction sentence generalizing ts with
  | number q =>
    obtain ⟨t, rfl, kind⟩ := List.map_eq_singleton_iff.mp same
    rw [eq_of_shape kind nofun]
    exact .number q
  | name n =>
    obtain ⟨t, rfl, kind⟩ := List.map_eq_singleton_iff.mp same
    obtain ⟨m, rfl⟩ := exists_word kind
    exact .name m
  | group _ ih =>
    obtain ⟨us', rfl, inside⟩ := exists_inside same
    exact .group (ih inside)
  | call n _ ih =>
    obtain ⟨t, rest, rfl, kind, behind⟩ := List.map_eq_cons_iff.mp same
    obtain ⟨m, rfl⟩ := exists_word kind
    obtain ⟨us', rfl, inside⟩ := exists_inside behind
    exact .call m (ih inside)
  | base _ ih => exact .base (ih same)
  | unsigned _ ih => exact .unsigned (ih same)
  | factor _ ih => exact .factor (ih same)
  | term _ ih => exact .term (ih same)
  | signed sign _ ih =>
    obtain ⟨t, us, rfl, kind, rest⟩ := List.map_eq_cons_iff.mp same
    rw [eq_of_shape kind (by rcases sign with rfl | rfl <;> exact nofun)]
    exact .signed sign (ih rest)
  | power _ _ ih ih' =>
    obtain ⟨us', vs', rfl, front, behind⟩ := exists_split same nofun
    exact .power (ih front) (ih' behind)
  | times _ operator _ ih ih' =>
    obtain ⟨us', vs', rfl, front, behind⟩ := exists_split same (by
      rcases operator with rfl | rfl <;> exact nofun)
    exact .times (ih front) operator (ih' behind)
  | add _ operator _ ih ih' =>
    obtain ⟨us', vs', rfl, front, behind⟩ := exists_split same (by
      rcases operator with rfl | rfl <;> exact nofun)
    exact .add (ih front) operator (ih' behind)

/-- Up to their names, sentences are what is derived. -/
theorem sentence_iff : Sentence c ts ↔ ∃ us p, us.map shape = ts.map shape ∧ Derives c us p := by
  constructor
  · intro sentence
    induction sentence with
    | number q => exact ⟨_, _, rfl, .number q⟩
    | name n => exact ⟨[.word "x"], _, rfl, .name (by decide)⟩
    | group _ ih =>
      obtain ⟨us, p, same, derives⟩ := ih
      exact ⟨_, _, by simp [same, shape], .group derives⟩
    | call n _ ih =>
      obtain ⟨us, p, same, derives⟩ := ih
      have known : Function.ofName? "sin" = some .sin := rfl
      exact ⟨_, _, by simp [same, shape], .call known derives⟩
    | base _ ih =>
      obtain ⟨us, p, same, derives⟩ := ih
      exact ⟨us, p, same, .base derives⟩
    | unsigned _ ih =>
      obtain ⟨us, p, same, derives⟩ := ih
      exact ⟨us, p, same, .unsigned derives⟩
    | factor _ ih =>
      obtain ⟨us, p, same, derives⟩ := ih
      exact ⟨us, p, same, .factor derives⟩
    | term _ ih =>
      obtain ⟨us, p, same, derives⟩ := ih
      exact ⟨us, p, same, .term derives⟩
    | signed sign _ ih =>
      obtain ⟨us, p, same, derives⟩ := ih
      rcases sign with rfl | rfl
      · exact ⟨_, _, by simp [same], .positive derives⟩
      · exact ⟨_, _, by simp [same], .negative derives⟩
    | power _ _ ih ih' =>
      obtain ⟨us, p, same, derives⟩ := ih
      obtain ⟨us', p', same', derives'⟩ := ih'
      exact ⟨_, _, by simp [same, same'], .power derives derives'⟩
    | times _ operator _ ih ih' =>
      obtain ⟨us, p, same, derives⟩ := ih
      obtain ⟨us', p', same', derives'⟩ := ih'
      rcases operator with rfl | rfl
      · exact ⟨_, _, by simp [same, same'], .times derives derives'⟩
      · exact ⟨_, _, by simp [same, same'], .quotient derives derives'⟩
    | add _ operator _ ih ih' =>
      obtain ⟨us, p, same, derives⟩ := ih
      obtain ⟨us', p', same', derives'⟩ := ih'
      rcases operator with rfl | rfl
      · exact ⟨_, _, by simp [same, same'], .plus derives derives'⟩
      · exact ⟨_, _, by simp [same, same'], .minus derives derives'⟩
  · rintro ⟨us, p, same, derives⟩
    exact derives.sentence.of_shape same.symm

/-! ## A reader that never looks back -/

/-- What is due next: an operand, or an operator behind an operand, which may be a name
that can be called. -/
inductive Due where
  | operand
  | operator (callable : Bool)
  deriving DecidableEq

/-- What is due, and the number of open parentheses. -/
structure Place where
  due : Due
  depth : Nat
  deriving DecidableEq

namespace Place

/-- The place behind the next token; none where no sentence goes on. -/
def step : Place → Token → Option Place
  | ⟨.operand, d⟩, .plus | ⟨.operand, d⟩, .minus => some ⟨.operand, d⟩
  | ⟨.operand, d⟩, .number _ => some ⟨.operator false, d⟩
  | ⟨.operand, d⟩, .word _ => some ⟨.operator true, d⟩
  | ⟨.operand, d⟩, .openParen => some ⟨.operand, d + 1⟩
  | ⟨.operator _, d⟩, .plus | ⟨.operator _, d⟩, .minus | ⟨.operator _, d⟩, .star
  | ⟨.operator _, d⟩, .slash | ⟨.operator _, d⟩, .caret => some ⟨.operand, d⟩
  | ⟨.operator _, d + 1⟩, .closeParen => some ⟨.operator false, d⟩
  | ⟨.operator true, d⟩, .openParen => some ⟨.operand, d + 1⟩
  | _, _ => none

/-- The place behind the tokens. -/
def run (s : Place) (ts : List Token) : Option Place := ts.foldlM step s

variable {s s' : Place}

theorem run_append (s : Place) (ts us : List Token) :
    s.run (ts ++ us) = (s.run ts).bind fun s' => s'.run us :=
  List.foldlM_append

theorem run_cons (s : Place) (t : Token) (ts : List Token) :
    s.run (t :: ts) = (s.step t).bind fun s' => s'.run ts :=
  List.foldlM_cons

theorem run_singleton (s : Place) (t : Token) : s.run [t] = s.step t := by
  rw [run_cons]
  exact Option.bind_fun_some _

theorem run_append_eq_some (ran : s.run ts = some s') : s.run (ts ++ us) = s'.run us := by
  rw [run_append, ran, Option.bind_some]

end Place

/-- A sentence leads from where an operand is due to where an operator is. -/
theorem Sentence.run (sentence : Sentence c ts) (d : Nat) :
    ∃ w, Place.run ⟨.operand, d⟩ ts = some ⟨.operator w, d⟩ := by
  induction sentence generalizing d with
  | number => exact ⟨false, rfl⟩
  | name => exact ⟨true, rfl⟩
  | group _ ih =>
    obtain ⟨w, inner⟩ := ih (d + 1)
    refine ⟨false, ?_⟩
    rw [Place.run_cons, Place.step, Option.bind_some, Place.run_append_eq_some inner]
    rfl
  | call n _ ih =>
    obtain ⟨w, argument⟩ := ih (d + 1)
    refine ⟨false, ?_⟩
    rw [Place.run_cons, Place.step, Option.bind_some, Place.run_cons, Place.step,
      Option.bind_some, Place.run_append_eq_some argument]
    rfl
  | base _ ih | unsigned _ ih | factor _ ih | term _ ih => exact ih d
  | signed sign _ ih =>
    rw [Place.run_cons]
    rcases sign with rfl | rfl <;> exact ih d
  | power _ _ ih ih' =>
    obtain ⟨w, base⟩ := ih d
    rw [Place.run_append_eq_some base, Place.run_cons]
    exact ih' d
  | times _ operator _ ih ih' | add _ operator _ ih ih' =>
    obtain ⟨w, left⟩ := ih d
    rw [Place.run_append_eq_some left, Place.run_cons]
    rcases operator with rfl | rfl <;> exact ih' d

/-- No sentence goes on with the tokens from here, or ends here if there are none. -/
def Place.Stuck (s : Place) : List Token → Prop
  | [] => ∀ w, s ≠ ⟨.operator w, 0⟩
  | t :: _ => s.step t = none

variable {s : Place}

theorem Place.Stuck.not_sentence (ran : Place.run ⟨.operand, 0⟩ ts = some s) (stuck : s.Stuck []) :
    ¬Sentence .sum ts := by
  intro sentence
  obtain ⟨w, whole⟩ := sentence.run 0
  exact stuck w (Option.some.inj (ran.symm.trans whole))

theorem Place.Stuck.not_viable (ran : Place.run ⟨.operand, 0⟩ ts = some s)
    (stuck : s.Stuck (t :: us)) : ¬Viable (ts ++ [t]) := by
  rintro ⟨vs, sentence⟩
  obtain ⟨w, whole⟩ := sentence.run 0
  rw [List.append_assoc, Place.run_append_eq_some ran, List.singleton_append, Place.run_cons,
    stuck] at whole
  cases whole

end Discharge.Parser
