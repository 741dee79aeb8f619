import Discharge.Proofs.Rational.Laurent
import Discharge.Proofs.Subterm

/-! The rational function that an expression denotes, if any: an expression of
literals, symbols, sums, products and integer powers has one unless it raises
zero to a negative power. -/

namespace Discharge

namespace Expr

open RationalFunction

/-- Built from rational literals, symbols, sums, products and powers with an
integer literal as exponent. -/
inductive IsRational : Expr → Prop
  | number (q : Rat) : IsRational (.number q)
  | symbol (s : String) : IsRational (.symbol s)
  | sum {xs : List Expr} (each : ∀ x ∈ xs, IsRational x) : IsRational (.sum xs)
  | product {xs : List Expr} (each : ∀ x ∈ xs, IsRational x) : IsRational (.product xs)
  | power {b : Expr} (n : Int) (base : IsRational b) : IsRational (.power b (.int n))

theorem IsRational.closed : Closed IsRational where
  number := .number
  sum xs := ⟨fun rational => by cases rational; assumption, .sum⟩
  product xs := ⟨fun rational => by cases rational; assumption, .product⟩

mutual
/-- The rational function that an expression denotes. -/
noncomputable def denote : Expr → Option RationalFunction
  | .number q => some (algebraMap ℚ RationalFunction q)
  | .symbol s => some (var s)
  | .sum xs => (denoteAll xs).map List.sum
  | .product xs => (denoteAll xs).map List.prod
  | .power b (.number q) =>
    if q.den = 1 then (denote b).bind fun x => integerPower x q.num else none
  | _ => none

/-- The rational functions that the expressions of a list denote. -/
noncomputable def denoteAll : List Expr → Option (List RationalFunction)
  | [] => some []
  | x :: xs => (denote x).bind fun y => (denoteAll xs).map (y :: ·)
end

variable {a b e : Expr} {xs ys : List Expr} {f g : RationalFunction}
  {fs gs : List RationalFunction}

@[simp] theorem denote_number (q : Rat) :
    denote (.number q) = some (algebraMap ℚ RationalFunction q) := rfl

@[simp] theorem denote_symbol (s : String) : denote (.symbol s) = some (var s) := rfl

@[simp] theorem denoteAll_nil : denoteAll [] = some [] := rfl

theorem denote_sum_eq_some : denote (.sum xs) = some f ↔ ∃ fs, denoteAll xs = some fs ∧ fs.sum = f :=
  Option.map_eq_some_iff

theorem denote_product_eq_some :
    denote (.product xs) = some f ↔ ∃ fs, denoteAll xs = some fs ∧ fs.prod = f :=
  Option.map_eq_some_iff

theorem denote_power (b : Expr) (n : Int) :
    denote (.power b (.int n)) = (denote b).bind fun x => integerPower x n := by
  rw [int, denote]
  rfl

theorem denoteAll_cons_eq_some {x : Expr} :
    denoteAll (x :: xs) = some fs ↔ ∃ f gs, denote x = some f ∧ denoteAll xs = some gs ∧
      fs = f :: gs := by
  change (denote x).bind (fun y => (denoteAll xs).map (y :: ·)) = some fs ↔ _
  rw [Option.bind_eq_some_iff]
  constructor
  · rintro ⟨f, head, rest⟩
    obtain ⟨gs, tail, rfl⟩ := Option.map_eq_some_iff.mp rest
    exact ⟨f, gs, head, tail, rfl⟩
  · rintro ⟨f, gs, head, tail, rfl⟩
    exact ⟨f, head, by rw [tail, Option.map_some]⟩

theorem denoteAll_append_eq_some : denoteAll (xs ++ ys) = some fs ↔
    ∃ left right, denoteAll xs = some left ∧ denoteAll ys = some right ∧ fs = left ++ right := by
  induction xs generalizing fs with
  | nil => simp
  | cons x xs ih =>
    simp only [List.cons_append, denoteAll_cons_eq_some, ih]
    constructor
    · rintro ⟨f, gs, head, ⟨left, right, first, second, rfl⟩, rfl⟩
      exact ⟨f :: left, right, ⟨f, left, head, first, rfl⟩, second, rfl⟩
    · rintro ⟨left, right, ⟨f, left', head, first, rfl⟩, second, rfl⟩
      exact ⟨f, left' ++ right, head, ⟨left', right, first, second, rfl⟩, rfl⟩

theorem denoteAll_singleton_eq_some {x : Expr} :
    denoteAll [x] = some fs ↔ ∃ f, denote x = some f ∧ fs = [f] := by
  rw [denoteAll_cons_eq_some]
  simp

mutual
/-- Only rational expressions denote rational functions. -/
theorem isRational_of_denote : ∀ {e : Expr} {f : RationalFunction}, denote e = some f → IsRational e
  | .number q, _, _ => .number q
  | .symbol s, _, _ => .symbol s
  | .sum xs, _, denotes => by
    obtain ⟨fs, all, -⟩ := denote_sum_eq_some.mp denotes
    exact .sum (isRational_of_denoteAll all)
  | .product xs, _, denotes => by
    obtain ⟨fs, all, -⟩ := denote_product_eq_some.mp denotes
    exact .product (isRational_of_denoteAll all)
  | .power b e, _, denotes => by
    cases e with
    | number q =>
      rw [denote] at denotes
      split at denotes
      · rename_i integral
        obtain ⟨x, base, -⟩ := Option.bind_eq_some_iff.mp denotes
        have literal : Expr.number q = .int q.num := by
          rw [int, Rat.coe_int_num_of_den_eq_one integral]
        rw [literal]
        exact .power q.num (isRational_of_denote base)
      · cases denotes
    | _ =>
      rw [denote] at denotes
      · cases denotes
      all_goals nofun
  | .constant c, _, denotes => by
    rw [denote] at denotes
    · cases denotes
    all_goals nofun
  | .apply g x, _, denotes => by
    rw [denote] at denotes
    · cases denotes
    all_goals nofun

theorem isRational_of_denoteAll : ∀ {xs : List Expr} {fs : List RationalFunction},
    denoteAll xs = some fs → ∀ x ∈ xs, IsRational x
  | [], _, _ => fun _ member => absurd member List.not_mem_nil
  | x :: xs, _, denotes => by
    obtain ⟨f, gs, head, tail, -⟩ := denoteAll_cons_eq_some.mp denotes
    exact List.forall_mem_cons.mpr ⟨isRational_of_denote head, isRational_of_denoteAll tail⟩
end

/-! ## Differences -/

theorem denote_of_summands : denoteAll e.summands = some fs → denote e = some fs.sum := by
  intro denotes
  cases e with
  | sum xs => exact denote_sum_eq_some.mpr ⟨fs, denotes, rfl⟩
  | _ =>
    obtain ⟨f, head, rfl⟩ := denoteAll_singleton_eq_some.mp denotes
    simpa using head

theorem denote_of_multiplicands : denoteAll e.multiplicands = some fs → denote e = some fs.prod := by
  intro denotes
  cases e with
  | product xs => exact denote_product_eq_some.mpr ⟨fs, denotes, rfl⟩
  | _ =>
    obtain ⟨f, head, rfl⟩ := denoteAll_singleton_eq_some.mp denotes
    simpa using head

theorem denote_of_neg : denote (-e) = some f → denote e = some (-f) := by
  intro denotes
  cases e with
  | number q =>
    have literal : denote (.number (-q)) = some f := denotes
    rw [denote_number] at literal
    cases literal
    simp
  | _ =>
    obtain ⟨fs, all, rfl⟩ := denote_product_eq_some.mp denotes
    obtain ⟨left, right, first, second, rfl⟩ := denoteAll_append_eq_some.mp all
    obtain ⟨g, literal, rfl⟩ := denoteAll_singleton_eq_some.mp first
    rw [denote_of_multiplicands second]
    rw [int, denote_number] at literal
    cases literal
    simp

/-- A difference denotes the difference of what its sides denote. -/
theorem denote_of_sub (denotes : denote (a - b) = some f) :
    ∃ x y, denote a = some x ∧ denote b = some y ∧ f = x - y := by
  obtain ⟨fs, all, rfl⟩ := denote_sum_eq_some.mp denotes
  obtain ⟨left, right, first, second, rfl⟩ := denoteAll_append_eq_some.mp all
  refine ⟨left.sum, -right.sum, denote_of_summands first,
    denote_of_neg (denote_of_summands second), ?_⟩
  rw [List.sum_append, sub_neg_eq_add]

end Expr

end Discharge
