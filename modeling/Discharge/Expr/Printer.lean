import Discharge.Expr

/-!
The written form of an expression.

A sum writes a term that starts with a minus sign as a subtraction.  A product
is regrouped: the literals are multiplied into one coefficient whose sign comes
first, then the numerator factors, then a slash and the factors with a negative
literal exponent.  Parentheses stand around everything that is not a name, a
call or a natural number.
-/

namespace Discharge

/-- A rational as `n` or `n/d`. -/
def ratText (q : Rat) : String :=
  if q.den = 1 then toString q.num else toString q.num ++ "/" ++ toString q.den

namespace Constant

/-- The name a constant is written with. -/
def name : Constant → String
  | .pi => "pi"
  | .euler => "E"
  | .imaginary => "I"

end Constant

namespace Expr

/-- Can the tree stand as an operand without parentheses? -/
def isAtomic : Expr → Bool
  | .symbol _ | .constant _ | .apply _ _ => true
  | .number q => q.den == 1 && decide (0 ≤ q)
  | _ => false

/-- What one operand contributes to the written product. -/
inductive Piece where
  /-- A literal, multiplied into the coefficient. -/
  | literal (value : Rat)
  /-- A factor above the slash, as text. -/
  | above (text : String)
  /-- A factor below the slash, as text. -/
  | below (text : String)

/-- Parentheses around a text unless the tree it shows is atomic. -/
def grouped (e : Expr) (text : String) : String :=
  if e.isAtomic then text else "(" ++ text ++ ")"

/-- A grouped base with a rational exponent; the exponent one is not written. -/
def powerText (base : String) (exponent : Rat) : String :=
  if exponent = 1 then base
  else if exponent.den = 1 ∧ 0 < exponent then base ++ "^" ++ ratText exponent
  else base ++ "^(" ++ ratText exponent ++ ")"

/-- Terms joined by plus signs, or by minus signs where a term starts with one. -/
def joinTerms : List String → String
  | [] => "0"
  | t :: ts => ts.foldl (fun out t =>
      match t.toList with
      | '-' :: rest => out ++ " - " ++ String.ofList rest
      | _ => out ++ " + " ++ t) t

/-- The product of the literals among the pieces. -/
def coefficient (pieces : List Piece) : Rat :=
  pieces.foldl (fun c p => match p with | .literal q => c * q | _ => c) 1

/-- A product from its pieces: sign, numerator, and the denominator in
parentheses when it has more than one factor. -/
def joinFactors (pieces : List Piece) : String :=
  let c := coefficient pieces
  let above := pieces.filterMap fun | .above t => some t | _ => none
  let below := pieces.filterMap fun | .below t => some t | _ => none
  if c = 0 then "0"
  else
    let sign := if c < 0 then "-" else ""
    let top := if c.num.natAbs = 1 ∧ above ≠ [] then above else toString c.num.natAbs :: above
    let bottom := if c.den = 1 then below else toString c.den :: below
    let numerator := sign ++ "*".intercalate top
    match bottom with
    | [] => numerator
    | [t] => numerator ++ "/" ++ t
    | ts => numerator ++ "/(" ++ "*".intercalate ts ++ ")"

mutual
/-- The written form. -/
def render : Expr → String
  | .number q => ratText q
  | .symbol s => s
  | .constant c => c.name
  | .sum xs => joinTerms (renderAll xs)
  | .product [] => "1"
  | .product xs => joinFactors (pieces xs)
  | .power b (.number q) =>
    if q < 0 then "1/" ++ powerText (grouped b (render b)) (-q)
    else powerText (grouped b (render b)) q
  | .power b e => grouped b (render b) ++ "^" ++ grouped e (render e)
  | .apply f x => f.name ++ "(" ++ render x ++ ")"

/-- The written forms of a list of trees. -/
def renderAll : List Expr → List String
  | [] => []
  | x :: xs => render x :: renderAll xs

/-- The pieces the operands of a product contribute, in order. -/
def pieces : List Expr → List Piece
  | [] => []
  | .number q :: xs => .literal q :: pieces xs
  | .power b (.number q) :: xs =>
    (if q < 0 then .below (powerText (grouped b (render b)) (-q))
      else .above (powerText (grouped b (render b)) q)) :: pieces xs
  | .power b e :: xs =>
    .above (grouped b (render b) ++ "^" ++ grouped e (render e)) :: pieces xs
  | x :: xs => .above (grouped x (render x)) :: pieces xs
end

end Expr

end Discharge
