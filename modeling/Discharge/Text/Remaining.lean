/-!
What is left of an input after a part of it was read.

A reader that returns the rest together with a proof that it is no longer than
the input can be iterated without any other argument for its end.
-/

namespace Discharge

/-- What is left of an input after at least one element was read. -/
abbrev Shorter {α : Type} (input : List α) := { rest : List α // rest.length < input.length }

/-- What is left of an input after possibly nothing was read. -/
abbrev Remaining {α : Type} (input : List α) := { rest : List α // rest.length ≤ input.length }

/-- Nothing was read. -/
def Remaining.whole {α : Type} (input : List α) : Remaining input := ⟨input, Nat.le_refl _⟩

/-- What is left is also left of the input with one more element in front. -/
def Remaining.behind {α : Type} {first : α} {input : List α} (rest : Remaining input) :
    Remaining (first :: input) := ⟨rest.val, Nat.le_succ_of_le rest.property⟩

end Discharge
