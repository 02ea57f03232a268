namespace ScriptMachine

/-- A number, as the word of its double-precision form. The words that stand for no value, the
NaNs, are numbers of their own and keep their bits wherever a number is only passed on. -/
structure Number where
  bits : UInt64
deriving Inhabited, Repr

namespace Number

instance : Zero Number := ⟨⟨0⟩⟩

def infinity : Number := ⟨0x7FF0000000000000⟩

def nan : Number := ⟨0x7FF8000000000000⟩

def invalid : Number := ⟨0xFFF8000000000000⟩

def isNegative (x : Number) : Bool := x.bits >>> 63 == 1

/-- The word without its sign. It grows with the magnitude of the number. -/
def magnitude (x : Number) : UInt64 := x.bits &&& 0x7FFFFFFFFFFFFFFF

def isNaN (x : Number) : Bool := infinity.bits < x.magnitude

def isFinite (x : Number) : Bool := x.magnitude < infinity.bits

def negate (x : Number) : Number := ⟨x.bits ^^^ 0x8000000000000000⟩

instance : Neg Number := ⟨negate⟩

/-- The place of a number among all numbers. The two zeros share theirs. -/
def rank (x : Number) : Int64 :=
  if x.isNegative then -x.magnitude.toInt64 else x.magnitude.toInt64

def comparable (x y : Number) : Bool := !x.isNaN && !y.isNaN

def equals (x y : Number) : Bool := comparable x y && x.rank == y.rank

def less (x y : Number) : Bool := comparable x y && x.rank < y.rank

def lessEqual (x y : Number) : Bool := comparable x y && x.rank ≤ y.rank

instance : BEq Number := ⟨equals⟩

instance : LT Number := ⟨fun x y => less x y = true⟩

instance : LE Number := ⟨fun x y => lessEqual x y = true⟩

instance (x y : Number) : Decidable (x < y) := inferInstanceAs (Decidable (less x y = true))

instance (x y : Number) : Decidable (x ≤ y) := inferInstanceAs (Decidable (lessEqual x y = true))

def toFloat (x : Number) : Float := .ofBits x.bits

def ofFloat (x : Float) : Number := ⟨x.toBits⟩

def ofNat (n : Nat) : Number := ofFloat (.ofNat n)

def ofInt (n : Int) : Number := ofFloat (.ofInt n)

def quiet (x : Number) : Number := ⟨x.bits ||| 0x8000000000000⟩

/-- The result of an operation on two numbers. If it has no value, the first NaN among the
operands is passed on. -/
@[inline] def combine (op : Float → Float → Float) (x y : Number) : Number :=
  let z := op x.toFloat y.toFloat
  if z.isNaN then
    if x.isNaN then x.quiet else if y.isNaN then y.quiet else invalid
  else ofFloat z

instance : Add Number := ⟨combine (· + ·)⟩

instance : Sub Number := ⟨combine (· - ·)⟩

instance : Mul Number := ⟨combine (· * ·)⟩

instance : Div Number := ⟨combine (· / ·)⟩

def power (x y : Number) : Number := combine Float.pow x y

end Number

end ScriptMachine
