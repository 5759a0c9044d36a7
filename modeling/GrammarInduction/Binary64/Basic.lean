/-!
Floating-point numbers of 64 bits as bit patterns: rounding of quotients, equality as numbers, and
the total order in which also signed zeros and numbers that are none have their place. Everything
is computed on naturals, so each value has one exact meaning.
-/
namespace GrammarInduction

/-- A 64-bit floating-point number: a sign, eleven bits of exponent, 52 bits of fraction. -/
structure Binary64 where
  bits : UInt64
  deriving Inhabited, DecidableEq, Repr

namespace Binary64

def signWeight : Nat := 0x8000000000000000

def exponentWeight : Nat := 0x10000000000000

/-- The bits without the sign. -/
def magnitude (x : Binary64) : Nat := x.bits.toNat % signWeight

def isNegative (x : Binary64) : Bool := signWeight ≤ x.bits.toNat

def infiniteMagnitude : Nat := 0x7ff * exponentWeight

def isNaN (x : Binary64) : Bool := infiniteMagnitude < x.magnitude

def ofMagnitude (negative : Bool) (m : Nat) : Binary64 :=
  ⟨.ofNat (if negative then signWeight + m else m)⟩

def infinity : Binary64 := ofMagnitude false infiniteMagnitude

def nan : Binary64 := ofMagnitude false (infiniteMagnitude + exponentWeight / 2)

def neg (x : Binary64) : Binary64 := ofMagnitude (!x.isNegative) x.magnitude

instance : Neg Binary64 := ⟨neg⟩

/-- The place of a number in the total order. Negative numbers come before all others, the larger
magnitude first. -/
def rank (x : Binary64) : Int :=
  if x.isNegative then -(x.magnitude : Int) - 1 else x.magnitude

/-- The total order of all bit patterns. -/
def order (x y : Binary64) : Ordering := compare x.rank y.rank

/-- Equality as numbers: the zeros agree, and what is no number equals nothing. -/
def numEq (x y : Binary64) : Bool :=
  !x.isNaN && !y.isNaN && (x.bits == y.bits || (x.magnitude == 0 && y.magnitude == 0))

/-- A power of two; one for a negative exponent. -/
def pow2 (e : Int) : Nat := 1 <<< e.toNat

/-- A quotient rounded to the nearest natural, a half to the even neighbour. -/
def nearest (num den : Nat) : Nat :=
  let q := num / den
  let r := num % den
  if 2 * r < den then q else if den < 2 * r then q + 1 else q + q % 2

/-- The number nearest to `num / den`. The unit in the last place is chosen so that the rounded
quotient has 53 bits, or 1074 places below one where that would be finer still. -/
def ofRatio (num den : Nat) : Binary64 :=
  if num = 0 then ofMagnitude false 0
  else
    let guess : Int := (num.log2 : Int) - den.log2
    let top := if num * pow2 (-guess) < den * pow2 guess then guess - 1 else guess
    let unit : Int := max (top - 52) (-1074)
    let significand := nearest (num * pow2 (-unit)) (den * pow2 unit)
    ofMagnitude false (min ((unit + 1074).toNat * exponentWeight + significand) infiniteMagnitude)

def ofNat (n : Nat) : Binary64 := ofRatio n 1

/-- A natural rounded to 53 significant bits. -/
def roundNat (n : Nat) : Nat :=
  let unit := pow2 (n.log2 - 52 : Nat)
  nearest n unit * unit

/-- Half of a natural that was rounded to 53 bits first. -/
def half (n : Nat) : Binary64 := ofRatio (roundNat n) 2

/-- The mean of two naturals, where both and their sum are rounded to 53 bits. -/
def mean (x y : Nat) : Binary64 := half (roundNat x + roundNat y)

example : ofNat 1 = ⟨0x3ff0000000000000⟩ ∧ ofRatio 23 32 = ⟨0x3fe7000000000000⟩ ∧
    -ofNat 0 = ⟨0x8000000000000000⟩ := by decide +kernel
example : ofNat (pow2 53 + 1) = ofNat (pow2 53) ∧ ofNat (pow2 64 - 1) = ofNat (pow2 64) := by
  decide +kernel
example : order (-ofNat 0) (ofNat 0) = .lt ∧ order infinity nan = .lt := by decide +kernel

end Binary64
end GrammarInduction
