/-!
# Binary floating point numbers

A binary64 number is given by its bits: a sign, eleven bits of exponent and
fifty-two of fraction. Its magnitude, if finite, is a natural significand times
a power of two. Comparison is that of IEEE 754: a NaN equals nothing, and the
two zeros equal each other.
-/
namespace SurfaceLanguage.Number

structure Binary64 where
  bits : UInt64
deriving Repr

namespace Binary64

/-- The number of fractions, and so the weight of the lowest exponent bit. -/
def fractionCount : Nat := 0x10000000000000

/-- The number of exponent fields. -/
def exponentCount : Nat := 0x800

/-- The sign is the highest bit. -/
def isNegative (x : Binary64) : Bool := fractionCount * exponentCount ≤ x.bits.toNat

def exponentField (x : Binary64) : Nat := x.bits.toNat / fractionCount % exponentCount

def fractionField (x : Binary64) : Nat := x.bits.toNat % fractionCount

/-- The highest exponent field is kept for what is not a finite number. -/
def isFinite (x : Binary64) : Bool := x.exponentField + 1 < exponentCount

def isNaN (x : Binary64) : Bool := !x.isFinite && x.fractionField != 0

def isInfinite (x : Binary64) : Bool := !x.isFinite && x.fractionField == 0

def isZero (x : Binary64) : Bool := x.exponentField == 0 && x.fractionField == 0

/-- The leading bit is implicit unless the exponent field is zero. -/
def significand (x : Binary64) : Nat :=
  if x.exponentField = 0 then x.fractionField else fractionCount + x.fractionField

/-- The bias of the exponent and the places of the fraction, taken together. -/
def exponentOffset : Int := 1023 + 52

/-- The exponent of two that goes with the significand. -/
def exponent (x : Binary64) : Int := (max 1 x.exponentField : Nat) - exponentOffset

/-- The neighbour below a power of two is half as far away as the one above. -/
def isAtBinade (x : Binary64) : Bool := x.fractionField == 0 && 1 < x.exponentField

def equal (x y : Binary64) : Bool :=
  !x.isNaN && !y.isNaN && (x.bits == y.bits || (x.isZero && y.isZero))

instance : BEq Binary64 := ⟨equal⟩

end Binary64
end SurfaceLanguage.Number
