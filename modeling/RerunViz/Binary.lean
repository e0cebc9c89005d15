import Mathlib.Algebra.GroupWithZero.Nat

set_option autoImplicit false

/-!
# Floating-point values

Floating-point values are carried as their bit patterns.  The code converts a `double`
and an unsigned integer to `float`, and compares a `double` with a constant by `==` and
by `>`.
-/

namespace RerunViz

/-- `double`, as its IEEE 754 bit pattern. -/
abbrev Binary64 := BitVec 64

/-- `float`, as its IEEE 754 bit pattern. -/
abbrev Binary32 := BitVec 32

/-- `n / 2 ^ shift`, rounded to the nearest integer with ties to even. -/
def roundShift (n shift : Nat) : Nat :=
  let quotient := n >>> shift
  let rest := n % 2 ^ shift
  let half := 2 ^ (shift - 1)
  if half < rest ∨ (rest = half ∧ quotient % 2 = 1) then quotient + 1 else quotient

/-- `static_cast<float>`: round to nearest, ties to even, overflow to infinity.  A NaN
keeps its sign and the upper bits of its payload, and becomes quiet. -/
def staticCastFloat (x : Binary64) : Binary32 :=
  let sign := x.toNat >>> 63
  let exponent := (x.toNat >>> 52) % 2 ^ 11
  let mantissa := x.toNat % 2 ^ 52
  let magnitude :=
    if exponent = 0x7FF then
      if mantissa = 0 then 0x7F800000 else 0x7FC00000 ||| (mantissa >>> 29)
    else
      let significand := if exponent = 0 then mantissa else 2 ^ 52 + mantissa
      -- both exponents count from that of the smallest normal number
      let steps := max exponent 1 - 897
      let shift := 29 + (897 - max exponent 1)
      min 0x7F800000 (steps * 2 ^ 23 + roundShift significand shift)
  BitVec.ofNat 32 (sign * 2 ^ 31 + magnitude)

/-- `static_cast<float>` of a `uint32_t`, rounded in the same way. -/
def uint32ToFloat (n : UInt32) : Binary32 :=
  if n = 0 then 0
  else
    let exponent := n.toNat.log2
    let significand :=
      if exponent ≤ 23 then n.toNat <<< (23 - exponent)
      else roundShift n.toNat (exponent - 23)
    BitVec.ofNat 32 ((exponent + 126) * 2 ^ 23 + significand)

example : uint32ToFloat 0xFFFFFFFF = 0x4F800000 := by decide

example : staticCastFloat 0x3FB999999999999A = 0x3DCCCCCD := by decide

namespace Binary64

/-- Sign and magnitude as an integer; both zeros are `0`. -/
def orderKey (x : Binary64) : Int :=
  if x.msb then -((x.toNat % 2 ^ 63 : Nat) : Int) else (x.toNat : Int)

def isNaN (x : Binary64) : Bool := 0x7FF0000000000000 < x.toNat % 2 ^ 63

/-- `x == y` -/
def eq (x y : Binary64) : Bool := !isNaN x && !isNaN y && orderKey x == orderKey y

/-- `x > y` -/
def gt (x y : Binary64) : Bool := !isNaN x && !isNaN y && orderKey y < orderKey x

end Binary64

end RerunViz
