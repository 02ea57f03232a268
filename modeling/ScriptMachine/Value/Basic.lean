import ScriptMachine.Number.Text
import ScriptMachine.Number.Numeral

namespace ScriptMachine

structure TableId where
  index : Nat
deriving DecidableEq, Hashable, Repr, Inhabited

structure CellId where
  index : Nat
deriving DecidableEq, Hashable, Repr, Inhabited

structure ClosureId where
  index : Nat
deriving DecidableEq, Hashable, Repr, Inhabited

structure NativeId where
  index : Nat
deriving DecidableEq, Hashable, Repr, Inhabited

structure CoroutineId where
  index : Nat
deriving DecidableEq, Hashable, Repr, Inhabited

structure UserdataId where
  index : Nat
deriving DecidableEq, Hashable, Repr, Inhabited

structure TailCallId where
  index : Nat
deriving DecidableEq, Hashable, Repr, Inhabited

/-- A script value. The last three constructors are no values of the language: a tuple carries
several values at once, and the two requests steer the machine that receives them. -/
inductive Value where
  | nil
  | bool (b : Bool)
  | number (x : Number)
  | string (s : String)
  | table (id : TableId)
  | closure (id : ClosureId)
  | native (id : NativeId)
  | coroutine (id : CoroutineId)
  | userdata (id : UserdataId)
  | tuple (items : List Value)
  | yieldRequest (items : List Value) (forced : Bool)
  | tailCall (id : TailCallId)
deriving Inhabited

namespace Value

def typeName : Value → String
  | nil => "nil"
  | bool _ => "boolean"
  | number _ => "number"
  | string _ => "string"
  | table _ => "table"
  | closure _ | native _ => "function"
  | coroutine _ => "thread"
  | userdata _ => "userdata"
  | tuple _ => "tuple"
  | yieldRequest _ _ => "yieldrequest"
  | tailCall _ => "tailcallrequest"

def isNil : Value → Bool
  | nil => true
  | _ => false

def isVoid : Value → Bool
  | nil | tuple [] => true
  | _ => false

def isCallable : Value → Bool
  | closure _ | native _ => true
  | _ => false

def isRequest : Value → Bool
  | yieldRequest _ _ | tailCall _ => true
  | _ => false

/-- All values but nil and false are true; a tuple is as true as its first value. -/
def isTruthy : Value → Bool
  | nil | bool false | tuple [] => false
  | tuple (v :: _) => v.isTruthy
  | _ => true

/-- The value where only one is wanted: the first of a tuple, nil for an empty one. -/
def toScalar : Value → Value
  | tuple [] => nil
  | tuple (v :: _) => v.toScalar
  | v => v

def toList : Value → List Value
  | tuple items => items
  | v => [v]

def leading : Value → Value
  | tuple items => items.headD nil
  | v => v

/-- Joins values: the last one contributes all its items, the others their first. -/
def join : List Value → List Value
  | [] => []
  | [v] => v.toList
  | v :: vs => v.leading :: join vs

/-- Joined values as one value. A single one stands for itself. -/
def pack (vs : List Value) : Value :=
  match join vs with
  | [v] => v
  | items => tuple items

/-- Replaces a tuple in last position by its items. -/
def spread : List Value → List Value
  | [] => []
  | [v] => v.toList
  | v :: vs => v :: spread vs

mutual

/-- Equality without metamethods: reference values are equal if they are the same object. -/
def rawEquals : Value → Value → Bool
  | nil, nil => true
  | bool a, bool b => a == b
  | number a, number b => a == b
  | string a, string b => a == b
  | table a, table b => a == b
  | closure a, closure b => a == b
  | native a, native b => a == b
  | coroutine a, coroutine b => a == b
  | userdata a, userdata b => a == b
  | tuple as, tuple bs => rawEqualsAll as bs
  | yieldRequest as f, yieldRequest bs g => rawEqualsAll as bs && f == g
  | tailCall a, tailCall b => a == b
  | _, _ => false

def rawEqualsAll : List Value → List Value → Bool
  | [], [] => true
  | a :: as, b :: bs => rawEquals a b && rawEqualsAll as bs
  | _, _ => false

end

def toNumber? (v : Value) : Option Number :=
  match v.toScalar with
  | number x => some x
  | string s => Number.parse? s
  | _ => none

def toText? (v : Value) : Option String :=
  match v.toScalar with
  | string s => some s
  | number x => some (x.text)
  | _ => none

def toInteger? (v : Value) : Option Int64 := do
  let n ← (← v.toNumber?).toInt?
  if Number.isWord n then some (Int64.ofInt n) else none

def ofNat (n : Nat) : Value := number (.ofNat n)

end Value

end ScriptMachine
