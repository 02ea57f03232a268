import ScriptMachine.Machine.Calling

namespace ScriptMachine

namespace Arithmetic

def event : Arithmetic → String
  | add => "__add"
  | sub => "__sub"
  | mul => "__mul"
  | div => "__div"
  | mod => "__mod"
  | power => "__pow"
  | floorDiv => "__idiv"

/-- The remainder of a division that rounds to the nearest integer, made non-negative by adding
the divisor once. -/
def modulo (a b : Number) : Number :=
  let m := a - (a / b).roundEven * b
  if m < 0 then m + b else m

def apply (op : Arithmetic) (a b : Number) : Number :=
  match op with
  | add => a + b
  | sub => a - b
  | mul => a * b
  | div => a / b
  | mod => modulo a b
  | power => a.power b
  | floorDiv => (a / b).floor

end Arithmetic

namespace Bitwise

def event : Bitwise → String
  | and => "__band"
  | or => "__bor"
  | xor => "__bxor"
  | shiftLeft => "__shl"
  | shiftRight => "__shr"

/-- A shift that brings in zeros. Negative counts shift to the right, and counts past the width
leave nothing. -/
def shift (a count : Int64) : Int64 :=
  if count ≤ -64 ∨ 64 ≤ count then 0
  else if 0 ≤ count then (a.toUInt64 <<< count.toUInt64).toInt64
  else (a.toUInt64 >>> (-count).toUInt64).toInt64

def apply (op : Bitwise) (a b : Int64) : Int64 :=
  match op with
  | and => a &&& b
  | or => a ||| b
  | xor => a ^^^ b
  | shiftLeft => shift a b
  | shiftRight => shift a (-b)

end Bitwise

/-- The order of two numbers or two strings. NaN has no order. -/
inductive PrimitiveOrder where
  | ordered (o : Ordering)
  | unordered

def PrimitiveOrder.ofNumbers (a b : Number) : PrimitiveOrder :=
  if a < b then .ordered .lt
  else if a == b then .ordered .eq
  else if b < a then .ordered .gt
  else .unordered

def PrimitiveOrder.of? (l r : Value) : Option PrimitiveOrder :=
  match l, r with
  | .number a, .number b => some (.ofNumbers a b)
  | .string a, .string b => some (.ordered (compare a b))
  | _, _ => none

namespace Exec

def ofInteger (n : Int64) : Value := .number (.ofInt n.toInt)

def popOperands (f : FiberId) : Exec (Value × Value) := do
  let r ← pop f
  let l ← pop f
  return (l.toScalar, r.toScalar)

def result (f : FiberId) (v : Value) : Exec Flow := do
  push f v
  return .next

section Metamethods

variable (E : Engine) (f : FiberId) (fuel ip : Nat)

def callHandler (handler : Value) (arguments : List Value) : Exec Flow := do
  push f handler
  pushAll f arguments
  return .transfer (← performCall E f fuel arguments.length (.byInstruction ip))

/-- Calls the handler of the left operand, or else of the right one, above the given values. -/
def binaryMetamethod? (l r : Value) (event : String) (below : List Value) :
    Exec (Option Flow) := do
  match ← read fun m => m.heap.metamethod? l event <|> m.heap.metamethod? r event with
  | none => return none
  | some handler =>
    pushAll f below
    return some (← callHandler E f fuel ip handler [l, r])

def unaryMetamethod? (v : Value) (event : String) : Exec (Option Flow) := do
  match ← metamethod? v event with
  | none => return none
  | some handler => return some (← callHandler E f fuel ip handler [v])

def orComplain (flow : Option Flow) (c : Complaint) : Exec Flow :=
  match flow with
  | some flow => return flow
  | none => complain c

def arithmetic (op : Arithmetic) : Exec Flow := do
  let (l, r) ← popOperands f
  match l.toNumber?, r.toNumber? with
  | some a, some b => result f (.number (op.apply a b))
  | _, _ => orComplain (← binaryMetamethod? E f fuel ip l r op.event []) (.ofArithmetic l (some r))

def negate : Exec Flow := do
  let v := (← pop f).toScalar
  match v.toNumber? with
  | some x => result f (.number (-x))
  | none => orComplain (← unaryMetamethod? E f fuel ip v "__unm") (.ofArithmetic v none)

def length : Exec Flow := do
  let v := (← pop f).toScalar
  match v with
  | .string s => result f (.ofNat s.utf8ByteSize)
  | _ =>
    match ← unaryMetamethod? E f fuel ip v "__len", v with
    | some flow, _ => return flow
    | none, .table t => result f (.ofNat (← table t).length)
    | none, _ => complain (.length v.typeName)

def concatenate : Exec Flow := do
  let (l, r) ← popOperands f
  match l.toText?, r.toText? with
  | some a, some b => result f (.string (a ++ b))
  | _, _ => orComplain (← binaryMetamethod? E f fuel ip l r "__concat" []) (.ofConcatenation l r)

def bitwise (op : Bitwise) : Exec Flow := do
  let (l, r) ← popOperands f
  match l.toInteger?, r.toInteger? with
  | some a, some b => result f (ofInteger (op.apply a b))
  | a, _ =>
    orComplain (← binaryMetamethod? E f fuel ip l r op.event [])
      (.ofBitwise (if a.isSome then r else l))

def bitNot : Exec Flow := do
  let v := (← pop f).toScalar
  match v.toInteger? with
  | some n => result f (ofInteger (~~~n))
  | none => orComplain (← unaryMetamethod? E f fuel ip v "__bnot") (.ofBitwise v)

def isUserdata : Value → Bool
  | .userdata _ => true
  | _ => false

def shareMetatable (h : Heap) (l r : Value) : Bool :=
  match l, r with
  | .table a, .table b =>
    (h.table a).metatable.isSome && (h.table a).metatable == (h.table b).metatable
  | _, _ => false

/-- Equality. Handlers are asked if an operand is userdata, or both are tables with the same
metatable. -/
def equal : Exec Flow := do
  let (l, r) ← popOperands f
  if l.rawEquals r then return ← result f (.bool true)
  let shared ← read fun m => shareMetatable m.heap l r
  let flow ←
    if isUserdata l || isUserdata r || shared then binaryMetamethod? E f fuel ip l r "__eq" []
    else pure none
  match flow with
  | some flow => return flow
  | none => result f (.bool false)

def less : Exec Flow := do
  let (l, r) ← popOperands f
  match PrimitiveOrder.of? l r with
  | some (.ordered .lt) => result f (.bool true)
  | some _ => result f (.bool false)
  | none => orComplain (← binaryMetamethod? E f fuel ip l r "__lt" []) (.ofComparison l r)

/-- Leaves two values: whether the second one has to be negated, and a result. It is negated if
it comes from comparing the operands the other way round. -/
def lessEqual : Exec Flow := do
  let (l, r) ← popOperands f
  match PrimitiveOrder.of? l r with
  | some o =>
    let holds := match o with
      | .ordered .lt | .ordered .eq => true
      | _ => false
    push f (.bool false)
    result f (.bool holds)
  | none =>
    match ← binaryMetamethod? E f fuel ip l r "__le" [.bool false] with
    | some flow => return flow
    | none =>
      orComplain (← binaryMetamethod? E f fuel ip r l "__lt" [.bool true]) (.ofComparison l r)

end Metamethods

end Exec

end ScriptMachine
