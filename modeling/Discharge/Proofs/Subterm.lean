import Discharge.Expr

/-! The subterms of an expression and the symbols among them, and classes of
expressions that the arithmetic operators do not leave. -/

namespace Discharge.Expr

/-- The first expression occurs in the second. -/
inductive Subterm : Expr → Expr → Prop
  | refl (e : Expr) : Subterm e e
  | sum {x y : Expr} {xs : List Expr} (member : y ∈ xs) (inside : Subterm x y) :
    Subterm x (.sum xs)
  | product {x y : Expr} {xs : List Expr} (member : y ∈ xs) (inside : Subterm x y) :
    Subterm x (.product xs)
  | base {x b e : Expr} (inside : Subterm x b) : Subterm x (.power b e)
  | exponent {x b e : Expr} (inside : Subterm x e) : Subterm x (.power b e)
  | argument {x y : Expr} {f : Function} (inside : Subterm x y) : Subterm x (.apply f y)

/-- The expressions that an expression is put together from. -/
def operands : Expr → List Expr
  | .number _ | .symbol _ | .constant _ => []
  | .sum xs | .product xs => xs
  | .power b e => [b, e]
  | .apply _ x => [x]

variable {x y c e : Expr}

theorem Subterm.operand (member : c ∈ e.operands) (inside : Subterm x c) : Subterm x e := by
  cases e with
  | number | symbol | constant => cases member
  | sum xs => exact .sum member inside
  | product xs => exact .product member inside
  | power b e =>
    obtain rfl | rfl : c = b ∨ c = e := by simpa [operands] using member
    · exact .base inside
    · exact .exponent inside
  | apply f y =>
    obtain rfl : c = y := by simpa [operands] using member
    exact .argument inside

theorem Subterm.trans (first : Subterm x y) (second : Subterm y e) : Subterm x e := by
  induction second with
  | refl => exact first
  | sum member _ ih => exact .sum member ih
  | product member _ ih => exact .product member ih
  | base _ ih => exact .base ih
  | exponent _ ih => exact .exponent ih
  | argument _ ih => exact .argument ih

theorem sizeOf_operand (member : c ∈ e.operands) : sizeOf c < sizeOf e := by
  cases e with
  | number | symbol | constant => cases member
  | sum xs | product xs =>
    have smaller : sizeOf c < sizeOf xs := List.sizeOf_lt_of_mem member
    simp only [Expr.sum.sizeOf_spec, Expr.product.sizeOf_spec]
    omega
  | power b e =>
    obtain rfl | rfl : c = b ∨ c = e := by simpa [operands] using member
    all_goals
      simp only [Expr.power.sizeOf_spec]
      omega
  | apply f y =>
    obtain rfl : c = y := by simpa [operands] using member
    simp only [Expr.apply.sizeOf_spec]
    omega

theorem Subterm.eq_or_inside (inside : Subterm x e) : x = e ∨ ∃ c ∈ e.operands, Subterm x c := by
  cases inside with
  | refl => exact .inl rfl
  | sum member inside => exact .inr ⟨_, member, inside⟩
  | product member inside => exact .inr ⟨_, member, inside⟩
  | base inside => exact .inr ⟨_, by simp [operands], inside⟩
  | exponent inside => exact .inr ⟨_, by simp [operands], inside⟩
  | argument inside => exact .inr ⟨_, by simp [operands], inside⟩

theorem subterm_iff : Subterm x e ↔ x = e ∨ ∃ c ∈ e.operands, Subterm x c := by
  refine ⟨Subterm.eq_or_inside, ?_⟩
  rintro (rfl | ⟨c, member, inside⟩)
  · exact .refl x
  · exact .operand member inside

/-- What holds of an expression if it holds of all subterms of its operands
holds of every expression. -/
theorem subterm_induction {P : Expr → Prop}
    (step : ∀ e, (∀ c ∈ e.operands, ∀ x, Subterm x c → P x) → P e) (e : Expr) : P e := by
  have every : ∀ x, Subterm x e → P x := by
    induction size : sizeOf e using Nat.strongRecOn generalizing e with
    | ind n ih =>
      have below : ∀ c ∈ e.operands, ∀ x, Subterm x c → P x := fun c member =>
        ih (sizeOf c) (size ▸ sizeOf_operand member) c rfl
      intro x inside
      rcases inside.eq_or_inside with rfl | ⟨c, member, inside⟩
      · exact step x below
      · exact below c member x inside
  exact every e (.refl e)

/-! ## Symbols -/

section Symbols

variable {s : String}

theorem mem_insertName (t : String) (names : List String) :
    s ∈ insertName t names ↔ s = t ∨ s ∈ names := by
  induction names with
  | nil => simp [insertName]
  | cons u us ih =>
    rw [insertName]
    split
    · simp
    split
    · rename_i equal
      simp [equal]
    · simp only [List.mem_cons, ih]
      exact or_left_comm

theorem mem_symbols : s ∈ e.symbols ↔ s ∈ e.occurrences := by
  unfold symbols
  induction e.occurrences with
  | nil => simp
  | cons t ts ih => simp [mem_insertName, ih]

theorem mem_occurrencesAll {x : Expr} {xs : List Expr} (member : x ∈ xs)
    (occurs : s ∈ x.occurrences) : s ∈ occurrencesAll xs := by
  induction xs with
  | nil => cases member
  | cons y ys ih =>
    rw [occurrencesAll, List.mem_append]
    rcases List.mem_cons.mp member with rfl | later
    · exact .inl occurs
    · exact .inr (ih later)

theorem mem_symbols_of_subterm (inside : Subterm (.symbol s) e) : s ∈ e.symbols := by
  rw [mem_symbols]
  induction inside with
  | refl =>
    rw [occurrences]
    exact List.mem_singleton.mpr rfl
  | sum member _ ih =>
    rw [occurrences]
    exact mem_occurrencesAll member ih
  | product member _ ih =>
    rw [occurrences]
    exact mem_occurrencesAll member ih
  | base _ ih =>
    rw [occurrences, List.mem_append]
    exact .inl ih
  | exponent _ ih =>
    rw [occurrences, List.mem_append]
    exact .inr ih
  | argument _ ih =>
    rw [occurrences]
    exact ih

end Symbols

/-! ## Classes -/

/-- The class has every literal, and a sum or a product exactly if it has all its
operands. -/
structure Closed (P : Expr → Prop) : Prop where
  number : ∀ q, P (.number q)
  sum : ∀ xs, P (.sum xs) ↔ ∀ x ∈ xs, P x
  product : ∀ xs, P (.product xs) ↔ ∀ x ∈ xs, P x

namespace Closed

variable {P : Expr → Prop} {a b e : Expr}

theorem summands (closed : Closed P) (holds : P e) : ∀ x ∈ e.summands, P x := by
  cases e with
  | sum xs => exact (closed.sum xs).mp holds
  | _ => simpa [Expr.summands] using holds

theorem multiplicands (closed : Closed P) (holds : P e) : ∀ x ∈ e.multiplicands, P x := by
  cases e with
  | product xs => exact (closed.product xs).mp holds
  | _ => simpa [Expr.multiplicands] using holds

theorem add (closed : Closed P) (left : P a) (right : P b) : P (a + b) :=
  (closed.sum _).mpr (List.forall_mem_append.mpr ⟨closed.summands left, closed.summands right⟩)

theorem mul (closed : Closed P) (left : P a) (right : P b) : P (a * b) :=
  (closed.product _).mpr
    (List.forall_mem_append.mpr ⟨closed.multiplicands left, closed.multiplicands right⟩)

theorem neg (closed : Closed P) (holds : P e) : P (-e) := by
  have product : P (int (-1) * e) := closed.mul (closed.number _) holds
  cases e with
  | number q => exact closed.number (-q)
  | _ => exact product

theorem sub (closed : Closed P) (left : P a) (right : P b) : P (a - b) :=
  closed.add left (closed.neg right)

end Closed

end Discharge.Expr
