import ScriptMachine.Fault.Basic

namespace ScriptMachine

structure Arguments where
  values : List Value
  method : Bool := false

namespace Arguments

def ofStacked (values : List Value) (method : Bool) : Arguments := ⟨Value.spread values, method⟩

def length (a : Arguments) : Nat := a.values.length

def get (a : Arguments) (i : Nat) : Value :=
  match a.values[i]? with
  | some v => v.toScalar
  | none => .nil

def skip (a : Arguments) (n : Nat) : List Value := a.values.drop n

def wrongType (a : Arguments) (i : Nat) (function expected : String) : Fault :=
  let got := if i < a.length then (a.get i).typeName else "no value"
  .complain (.badArgument (i + 1) function (expected ++ " expected, got " ++ got))

def function (a : Arguments) (i : Nat) (caller : String) : Except Fault Value :=
  if (a.get i).isCallable then return a.get i else throw (a.wrongType i caller "function")

def table (a : Arguments) (i : Nat) (caller : String) : Except Fault TableId :=
  match a.get i with
  | .table t => return t
  | _ => throw (a.wrongType i caller "table")

def coroutine (a : Arguments) (i : Nat) (caller : String) : Except Fault CoroutineId :=
  match a.get i with
  | .coroutine c => return c
  | _ => throw (a.wrongType i caller "coroutine")

def number (a : Arguments) (i : Nat) (caller : String) : Except Fault Number :=
  match (a.get i).toNumber? with
  | some x => return x
  | none => throw (a.wrongType i caller "number")

def present (a : Arguments) (i : Nat) (caller : String) : Except Fault Value :=
  if i < a.length then return a.get i
  else throw (.complain (.badArgument (i + 1) caller "value expected"))

end Arguments

end ScriptMachine
