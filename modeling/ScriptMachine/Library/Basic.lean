import ScriptMachine.Arguments
import ScriptMachine.Machine.Request

namespace ScriptMachine.Library

open Exec

def displayText (E : Engine) (v : Value) : Exec String := do
  match ← metamethod? v "__tostring" with
  | some handler =>
    match (← E (.call handler [v])).toScalar with
    | .string s => return s
    | _ => complain .tostringResult
  | none => read fun m => m.heap.printText v

def print (E : Engine) (a : Arguments) : Exec Value := do
  let parts ← a.values.mapM fun v => displayText E v.toScalar
  emit (.printed ("\t".intercalate parts))
  return .tuple []

def type (a : Arguments) : Exec Value := do
  let v ← ofExcept (a.present 0 "type")
  return .string v.typeName

def tostring (E : Engine) (a : Arguments) : Exec Value := do
  let v ← ofExcept (a.present 0 "tostring")
  return .string (← displayText E v)

def numeralIn (base : Nat) (s : String) : Option Int :=
  match Text.trim s.toList with
  | '-' :: digits => (Number.integer? base digits).map fun n => -n
  | digits => Number.integer? base digits

def numeralBase (v : Value) : Exec Nat := do
  match v.toInteger? with
  | some b =>
    if 2 ≤ b ∧ b ≤ 36 then return b.toInt.toNat
    else complain (.badArgument 2 "tonumber" "base out of range")
  | none => complain (.badArgument 2 "tonumber" "base out of range")

/-- Converts to a number. Negating the least word leaves its range. -/
def tonumber (a : Arguments) : Exec Value := do
  let v ← ofExcept (a.present 0 "tonumber")
  if (a.get 1).isNil then return v.toNumber?.elim .nil .number
  let base ← numeralBase (a.get 1)
  match v with
  | .string s =>
    match numeralIn base s with
    | some n => if Number.isWord n then return .number (.ofInt n) else throw .crash
    | none => return .nil
  | _ => complain (.badArgument 1 "tonumber" "string expected")

/-- Where a selection starts: positive positions count from the front, negative ones from the
back. -/
def selectionStart? (length : Nat) (n : Int) : Option Nat :=
  if 0 < n then some (n - 1).toNat
  else if n < 0 ∧ n.natAbs ≤ length then some (length - n.natAbs)
  else none

def select (a : Arguments) : Exec Value := do
  let rest := a.skip 1
  match a.get 0 with
  | .string "#" => return .ofNat rest.length
  | selector =>
    match selector.toInteger? with
    | none => complain (.badArgument 1 "select" "number expected")
    | some n =>
      match selectionStart? rest.length n.toInt with
      | some start => return .tuple (rest.drop start)
      | none => complain (.badArgument 1 "select" "index out of range")

def newMetatable : Value → Exec (Option TableId)
  | .nil => return none
  | .table t => return some t
  | _ => complain (.badArgument 2 "setmetatable" "nil or table expected")

def isProtected (h : Heap) (metatable : TableId) : Bool :=
  !((h.table metatable).getString "__metatable").isNil

def setmetatable (a : Arguments) : Exec Value := do
  let t ← ofExcept (a.table 0 "setmetatable")
  let metatable ← newMetatable (a.get 1)
  let current := (← table t).metatable
  if ← read fun m => current.any (isProtected m.heap) then complain .protectedMetatable
  modifyTable t fun t => { t with metatable }
  return .table t

def getmetatable (a : Arguments) : Exec Value := do
  match ← read fun m => m.heap.metatable? (a.get 0) with
  | none => return .nil
  | some metatable =>
    let shown := (← table metatable).getString "__metatable"
    return if shown.isNil then .table metatable else shown

def rawget (a : Arguments) : Exec Value := do
  let t ← ofExcept (a.table 0 "rawget")
  return (← table t).get (a.get 1)

def rawset (a : Arguments) : Exec Value := do
  let t ← ofExcept (a.table 0 "rawset")
  setIndex t (a.get 1) (a.get 2)
  return .table t

def rawequal (a : Arguments) : Value := .bool ((a.get 0).rawEquals (a.get 1))

def next (a : Arguments) : Exec Value := do
  let t ← ofExcept (a.table 0 "next")
  match ← ofComplaint ((← table t).next (a.get 1)) with
  | some (k, v) => return .tuple [k, v]
  | none => return .nil

def ipairs (a : Arguments) : Exec Value := do
  let t ← ofExcept (a.table 0 "ipairs")
  let step ← newBuiltin "ipairs_iter" .ipairsStep
  return .tuple [.native step, .table t, .ofNat 0]

def ipairsStep (a : Arguments) : Exec Value := do
  let t ← ofExcept (a.table 0 "ipairs")
  let i := ((a.get 1).toInteger?.getD 0).toInt + 1
  let v := (← table t).getInt i
  return if v.isNil then .nil else .tuple [.number (.ofInt i), v]

end ScriptMachine.Library
