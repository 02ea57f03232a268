import ScriptMachine.Number.Basic

namespace ScriptMachine.Number

structure Binary where
  negative : Bool
  mantissa : Nat
  exponent : Int
deriving DecidableEq, Repr

namespace Binary

def exponentField (bits : UInt64) : Nat := ((bits >>> 52) &&& 0x7FF).toNat

def fractionField (bits : UInt64) : Nat := (bits &&& 0xFFFFFFFFFFFFF).toNat

/-- The value of a finite number. A zero exponent field marks the numbers below the least normal
one, which have no implicit leading bit. -/
def ofNumber (x : Number) : Binary :=
  if exponentField x.bits = 0 then ⟨x.isNegative, fractionField x.bits, -1074⟩
  else ⟨x.isNegative, Nat.pow 2 52 + fractionField x.bits, (exponentField x.bits : Int) - 1075⟩

def remainder (b : Binary) : Nat := b.mantissa % Nat.pow 2 (-b.exponent).toNat

def whole (b : Binary) : Nat :=
  b.mantissa * Nat.pow 2 b.exponent.toNat / Nat.pow 2 (-b.exponent).toNat

def isIntegral (b : Binary) : Bool := b.remainder == 0

def signed (b : Binary) (magnitude : Nat) : Int :=
  if b.negative then -(magnitude : Int) else magnitude

def toInt? (b : Binary) : Option Int :=
  if b.isIntegral then some (b.signed b.whole) else none

def floor (b : Binary) : Int :=
  if b.isIntegral then b.signed b.whole
  else if b.negative then -(b.whole + 1 : Int) else b.whole

def nearestEven (b : Binary) : Nat :=
  let twice := 2 * b.remainder
  let unit := Nat.pow 2 (-b.exponent).toNat
  if twice < unit then b.whole
  else if twice = unit then b.whole + b.whole % 2
  else b.whole + 1

end Binary

def binary? (x : Number) : Option Binary :=
  if x.isFinite then some (.ofNumber x) else none

def toInt? (x : Number) : Option Int := (binary? x).bind Binary.toInt?

def isIntegral (x : Number) : Bool := (toInt? x).isSome

def isWord (n : Int) : Bool := Int64.minValue.toInt ≤ n && n ≤ Int64.maxValue.toInt

def isNegativeZero (x : Number) : Bool := x.bits == 0x8000000000000000

def ofMagnitude (negative : Bool) (magnitude : Nat) : Number :=
  if negative then -ofNat magnitude else ofNat magnitude

def floor (x : Number) : Number :=
  match binary? x with
  | none => x
  | some b => ofMagnitude b.negative b.floor.natAbs

def roundEven (x : Number) : Number :=
  match binary? x with
  | none => x
  | some b => ofMagnitude b.negative b.nearestEven

end ScriptMachine.Number
