/-!
Expressions over exact rationals.

An expression is a tree of rational literals, free symbols, the named constants
π, e and i, n-ary sums and products, powers, and applications of eight
elementary functions.  Nothing here simplifies: the arithmetic operators only
put trees together, flattening a sum into a sum and a product into a product.

- `Expr.symbols` lists the free symbols of a tree in code point order,
  `Expr.mentions` tests for one of them.
- `Expr.substitute` replaces every occurrence of a symbol.
- Equality of trees is decidable (`Expr.beq_iff`).
-/

namespace Discharge

/-- The named mathematical constants. -/
inductive Constant where
  /-- The circle constant π. -/
  | pi
  /-- Euler's number e. -/
  | euler
  /-- The imaginary unit i. -/
  | imaginary
  deriving DecidableEq

/-- The elementary functions that can be applied to an expression. -/
inductive Function where
  | exp
  | ln
  | sqrt
  | sin
  | cos
  | tan
  | sinh
  | cosh
  deriving DecidableEq

/-- The name a function is written with. -/
def Function.name : Function → String
  | .exp => "exp"
  | .ln => "ln"
  | .sqrt => "sqrt"
  | .sin => "sin"
  | .cos => "cos"
  | .tan => "tan"
  | .sinh => "sinh"
  | .cosh => "cosh"

/-- Resolves a function name; `log` is a second name of the natural logarithm. -/
def Function.ofName? : String → Option Function
  | "exp" => some .exp
  | "ln" => some .ln
  | "log" => some .ln
  | "sqrt" => some .sqrt
  | "sin" => some .sin
  | "cos" => some .cos
  | "tan" => some .tan
  | "sinh" => some .sinh
  | "cosh" => some .cosh
  | _ => none

/-- A function is found again under the name it is written with. -/
@[simp] theorem Function.ofName?_name (f : Function) : Function.ofName? f.name = some f := by
  cases f <;> rfl

/-- A symbolic expression over exact rationals. -/
inductive Expr where
  /-- An exact rational number. -/
  | number (value : Rat)
  /-- A free symbol. -/
  | symbol (name : String)
  /-- A named constant. -/
  | constant (which : Constant)
  /-- The sum of the operands; the empty sum is zero. -/
  | sum (terms : List Expr)
  /-- The product of the operands; the empty product is one. -/
  | product (factors : List Expr)
  /-- A base raised to an exponent. -/
  | power (base exponent : Expr)
  /-- A function applied to an argument. -/
  | apply (function : Function) (argument : Expr)
  deriving Inhabited

namespace Expr

/-! ## Equality -/

mutual
/-- Structural equality of trees as a test. -/
def beq : Expr → Expr → Bool
  | .number p, .number q => p == q
  | .symbol s, .symbol t => s == t
  | .constant c, .constant d => c == d
  | .sum xs, .sum ys => beqAll xs ys
  | .product xs, .product ys => beqAll xs ys
  | .power b e, .power c f => beq b c && beq e f
  | .apply f x, .apply g y => f == g && beq x y
  | _, _ => false

/-- Structural equality of lists of trees as a test. -/
def beqAll : List Expr → List Expr → Bool
  | [], [] => true
  | x :: xs, y :: ys => beq x y && beqAll xs ys
  | _, _ => false
end

mutual
/-- The test decides equality. -/
theorem beq_iff : ∀ a b : Expr, beq a b = true ↔ a = b
  | .number _, b => by cases b <;> simp [beq]
  | .symbol _, b => by cases b <;> simp [beq]
  | .constant _, b => by cases b <;> simp [beq]
  | .sum xs, b => by cases b <;> simp [beq, beqAll_iff xs]
  | .product xs, b => by cases b <;> simp [beq, beqAll_iff xs]
  | .power x y, b => by cases b <;> simp [beq, beq_iff x, beq_iff y]
  | .apply _ x, b => by cases b <;> simp [beq, beq_iff x]

/-- The test on lists decides equality. -/
theorem beqAll_iff : ∀ a b : List Expr, beqAll a b = true ↔ a = b
  | [], b => by cases b <;> simp [beqAll]
  | x :: xs, b => by cases b <;> simp [beqAll, beq_iff x, beqAll_iff xs]
end

instance : DecidableEq Expr := fun a b => decidable_of_iff (beq a b = true) (beq_iff a b)

/-! ## Literals -/

/-- The integer literal `n`. -/
def int (n : Int) : Expr := .number n

/-- The literal zero. -/
def zero : Expr := .number 0

/-- The literal one. -/
def one : Expr := .number 1

/-- The rational value of a literal. -/
def rational? : Expr → Option Rat
  | .number q => some q
  | _ => none

/-- Is this the literal zero?  A sum that cancels is not. -/
def isLiteralZero : Expr → Bool
  | .number q => q == 0
  | _ => false

theorem isLiteralZero_iff {e : Expr} : e.isLiteralZero = true ↔ e = .number 0 := by
  constructor
  · intro literal
    cases e with
    | number q => rw [beq_iff_eq.mp literal]
    | _ => cases literal
  · rintro rfl
    rfl

/-! ## Operators -/

/-- The operands a tree contributes to a sum it is put into. -/
def summands : Expr → List Expr
  | .sum xs => xs
  | e => [e]

/-- The operands a tree contributes to a product it is put into. -/
def multiplicands : Expr → List Expr
  | .product xs => xs
  | e => [e]

instance : Add Expr := ⟨fun a b => .sum (a.summands ++ b.summands)⟩

instance : Mul Expr := ⟨fun a b => .product (a.multiplicands ++ b.multiplicands)⟩

/-- The negative of a literal is a literal; anything else is multiplied by `-1`. -/
def negate : Expr → Expr
  | .number q => .number (-q)
  | e => int (-1) * e

instance : Neg Expr := ⟨negate⟩

instance : Sub Expr := ⟨fun a b => a + -b⟩

instance : Div Expr := ⟨fun a b => a * .power b (int (-1))⟩

/-! ## Symbols -/

mutual
/-- Every occurrence of a symbol, from left to right. -/
def occurrences : Expr → List String
  | .number _ | .constant _ => []
  | .symbol s => [s]
  | .sum xs | .product xs => occurrencesAll xs
  | .power b e => occurrences b ++ occurrences e
  | .apply _ x => occurrences x

/-- Every occurrence of a symbol in a list of trees. -/
def occurrencesAll : List Expr → List String
  | [] => []
  | x :: xs => occurrences x ++ occurrencesAll xs
end

/-- Puts a name into its place in a strictly increasing list. -/
def insertName (s : String) : List String → List String
  | [] => [s]
  | t :: ts => if s < t then s :: t :: ts else if s = t then t :: ts else t :: insertName s ts

/-- The free symbols, each once, in increasing order. -/
def symbols (e : Expr) : List String := e.occurrences.foldr insertName []

mutual
/-- Does the symbol `name` occur in the tree? -/
def mentions (name : String) : Expr → Bool
  | .number _ | .constant _ => false
  | .symbol s => s == name
  | .sum xs | .product xs => mentionsAny name xs
  | .power b e => mentions name b || mentions name e
  | .apply _ x => mentions name x

/-- Does the symbol `name` occur in one of the trees? -/
def mentionsAny (name : String) : List Expr → Bool
  | [] => false
  | x :: xs => mentions name x || mentionsAny name xs
end

mutual
/-- Replaces every occurrence of the symbol `name` by `value`. -/
def substitute (e : Expr) (name : String) (value : Expr) : Expr :=
  match e with
  | .symbol s => if s = name then value else .symbol s
  | .number q => .number q
  | .constant c => .constant c
  | .sum xs => .sum (substituteAll xs name value)
  | .product xs => .product (substituteAll xs name value)
  | .power b e => .power (substitute b name value) (substitute e name value)
  | .apply f x => .apply f (substitute x name value)

/-- Replaces the symbol in every tree of a list. -/
def substituteAll (xs : List Expr) (name : String) (value : Expr) : List Expr :=
  match xs with
  | [] => []
  | x :: xs => substitute x name value :: substituteAll xs name value
end

end Expr

end Discharge
