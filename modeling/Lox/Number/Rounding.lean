/-! Rounding of exact ratios to double precision.
A finite double is a natural multiple of the smallest subnormal, so rounding a ratio
of naturals and decoding a bit pattern need natural arithmetic only. -/
namespace Lox
namespace Number

/-- The quotient rounded to the nearest natural; a half goes to the even neighbour. -/
def roundHalfEven (a b : Nat) : Nat :=
  if 2 * (a % b) < b ∨ (2 * (a % b) = b ∧ a / b % 2 = 0) then a / b else a / b + 1

theorem roundHalfEven_mul_right {a b : Nat} (hb : 0 < b) : roundHalfEven (a * b) b = a := by
  simp [roundHalfEven, hb]

/-- Smallest subnormals in one. -/
def unitsPerOne : Nat := Nat.pow 2 1074

/-- Significands of a normal double, at least. -/
def hiddenBit : Nat := 0x10000000000000

def signBit : Nat := 0x8000000000000000

def infinityBits : Nat := 0x7FF0000000000000

/-- Bits that a magnitude of so many units must give up to fit a significand of 53 bits. -/
def excess (units : Nat) : Nat := units.log2 - 52

/-- Bit pattern of the double nearest to `a / b`, ties to even, infinite beyond the largest finite
one. A significand `m` scaled by `2 ^ s` units has
the pattern `s * hiddenBit + m`, also where rounding carries into the next power of two. -/
def nearestBits (a b : Nat) : Nat :=
  let s := excess (a * unitsPerOne / b)
  min (s * hiddenBit + roundHalfEven (a * unitsPerOne) (b * Nat.pow 2 s)) infinityBits

theorem nearestBits_le (a b : Nat) : nearestBits a b ≤ infinityBits := Nat.min_le_right _ _

def ofMagnitude (bits : Nat) : Float := .ofBits (.ofNat bits)

def magnitude (x : Float) : Nat := x.toBits.toNat % signBit

def isNegative (x : Float) : Bool := signBit ≤ x.toBits.toNat

def isInfinite (x : Float) : Bool := magnitude x = infinityBits

def units (bits : Nat) : Nat :=
  let e := bits / hiddenBit
  let f := bits % hiddenBit
  if e = 0 then f else (hiddenBit + f) * Nat.pow 2 (e - 1)

end Number
end Lox
