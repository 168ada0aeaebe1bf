import Lox.Number.Rounding

/-! Decimal text of numbers.
`ofDigits` reads a numeral. `text` writes the fewest digits that read back as the same
double, in positional notation throughout. -/
namespace Lox
namespace Number

/-- The number `digits * 10 ^ exponent`. -/
structure Decimal where
  digits : Nat
  exponent : Int
  deriving DecidableEq, Repr

namespace Decimal

def bits (d : Decimal) : Nat :=
  nearestBits (d.digits * Nat.pow 10 d.exponent.toNat) (Nat.pow 10 (-d.exponent).toNat)

def toFloat (d : Decimal) : Float := ofMagnitude d.bits

/-- Positional notation: a point only where digits follow it, and a digit always before it. -/
def text (d : Decimal) : String :=
  let places := (-d.exponent).toNat
  let ds := Nat.toDigits 10 (d.digits * Nat.pow 10 d.exponent.toNat)
  if places = 0 then .ofList ds
  else
    let ds := List.replicate (places + 1 - ds.length) '0' ++ ds
    .ofList (ds.take (ds.length - places) ++ '.' :: ds.drop (ds.length - places))

end Decimal

def ofDigits (whole fraction : List Char) : Float :=
  Decimal.toFloat ⟨Nat.ofDigitChars 10 (whole ++ fraction) 0, -fraction.length⟩

/-- The least `k` with `units / 2 ^ 1074 < 10 ^ k`, for a positive count of units. -/
def decimalMagnitude (units : Nat) : Int :=
  let k := ((units.log2 : Int) - 1074) * 30103 / 100000 + 1
  if units * Nat.pow 10 (-k).toNat < unitsPerOne * Nat.pow 10 k.toNat then k else k + 1

/-- Neighbours of a positive double below `10 ^ k` on the grid of decimals with `n` significant
digits: the one that reads back as the double, the nearer if both do, the greater if they are
equally near. -/
def neighbour? (bits : Nat) (k : Int) (n : Nat) : Option Decimal :=
  let grid := k - n
  let a := units bits * Nat.pow 10 (-grid).toNat
  let b := unitsPerOne * Nat.pow 10 grid.toNat
  let below : Decimal := ⟨a / b, grid⟩
  let above : Decimal := if a / b + 1 = Nat.pow 10 n then ⟨1, k⟩ else ⟨a / b + 1, grid⟩
  (if 2 * (a % b) < b then [below, above] else [above, below]).find? fun d => d.bits == bits

def exact (bits : Nat) : Decimal := ⟨units bits * Nat.pow 5 1074, -1074⟩

/-- The decimal with the fewest digits that reads back as the positive finite double. -/
def shortest (bits : Nat) : Decimal :=
  let k := decimalMagnitude (units bits)
  ((List.range' 1 17).findSome? (neighbour? bits k)).getD (exact bits)

def text (x : Float) : String :=
  let m := magnitude x
  if infinityBits < m then "NaN"
  else
    let sign := if isNegative x then "-" else ""
    if m = infinityBits then sign ++ "inf"
    else if m = 0 then sign ++ "0"
    else sign ++ (shortest m).text

end Number
end Lox
