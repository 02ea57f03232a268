import ScriptMachine.Number.Binary

namespace ScriptMachine.Number

structure Decimal where
  digits : Nat
  exponent : Int
deriving DecidableEq, Repr

/-- The order of `a * 10 ^ i` and `n * 2 ^ j`, by exact arithmetic. -/
def compareScaled (a : Nat) (i : Int) (n : Nat) (j : Int) : Ordering :=
  compare (a * Nat.pow 10 i.toNat * Nat.pow 2 (-j).toNat)
    (n * Nat.pow 2 j.toNat * Nat.pow 10 (-i).toNat)

namespace Binary

/-- Below a power of two the next number is half as far away as above it. -/
def narrowBelow (b : Binary) : Bool := b.mantissa == Nat.pow 2 52 && b.exponent > -1074

/-- Whether a decimal lies among the reals whose nearest number is this one. The two
ends of that interval belong to it exactly if the mantissa is even. -/
def readsBack (b : Binary) (d : Decimal) : Bool :=
  let low := if b.narrowBelow then 4 * b.mantissa - 1 else 4 * b.mantissa - 2
  let closed := b.mantissa % 2 == 0
  let above := compareScaled d.digits d.exponent low (b.exponent - 2)
  let below := compareScaled d.digits d.exponent (4 * b.mantissa + 2) (b.exponent - 2)
  (above == .gt || (closed && above == .eq)) && (below == .lt || (closed && below == .eq))

def floorUnits (b : Binary) (k : Int) : Nat :=
  b.mantissa * Nat.pow 2 b.exponent.toNat * Nat.pow 10 (-k).toNat /
    (Nat.pow 2 (-b.exponent).toNat * Nat.pow 10 k.toNat)

/-- A multiple of `10 ^ k` that reads back, the nearer one if both neighbours do and the
greater one if they are equally near. -/
def onGrid? (b : Binary) (k : Int) : Option Decimal :=
  let c := b.floorUnits k
  let lower : Decimal := ⟨c, k⟩
  let upper : Decimal := ⟨c + 1, k⟩
  match b.readsBack lower, b.readsBack upper with
  | false, false => none
  | true, false => some lower
  | false, true => some upper
  | true, true =>
    if compareScaled (2 * c + 1) k (2 * b.mantissa) b.exponent == .gt then some lower
    else some upper

def exactDecimal (b : Binary) : Decimal :=
  if 0 ≤ b.exponent then ⟨b.mantissa * Nat.pow 2 b.exponent.toNat, 0⟩
  else ⟨b.mantissa * Nat.pow 5 (-b.exponent).toNat, b.exponent⟩

def searchGrids (b : Binary) : Nat → Int → Decimal
  | 0, _ => b.exactDecimal
  | n + 1, k => (b.onGrid? k).getD (b.searchGrids n (k - 1))

def coarsestGrid (b : Binary) : Int :=
  ((b.mantissa.log2 : Int) + b.exponent + 1) * 30103 / 100000 + 2

def shortest (b : Binary) : Decimal :=
  if b.mantissa = 0 then ⟨0, 0⟩ else b.searchGrids 24 b.coarsestGrid

end Binary

end ScriptMachine.Number
