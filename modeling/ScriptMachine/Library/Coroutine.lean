import ScriptMachine.Arguments
import ScriptMachine.Machine.Coroutine

namespace ScriptMachine.Library

open Exec

def create (a : Arguments) : Exec Value := do
  let f ← ofExcept (a.function 0 "create")
  return .coroutine (← createCoroutine f)

def wrap (a : Arguments) : Exec Value := do
  let f ← ofExcept (a.function 0 "wrap")
  let co ← createCoroutine f
  return .native (← newBuiltin "wrap" (.wrapped co))

/-- Resumes a wrapped coroutine. One that has spent its budget gives no values. -/
def wrapped (E : Engine) (site : CallSite) (co : CoroutineId) (a : Arguments) : Exec Value := do
  match ← resumeCoroutine E site co a.values with
  | .yieldRequest _ true => return .tuple []
  | v => return v

def resume (E : Engine) (site : CallSite) (a : Arguments) : Exec Value := do
  let co ← ofExcept (a.coroutine 0 "resume")
  match ← attempt (resumeCoroutine E site co (a.skip 1)) with
  | .ok (.yieldRequest _ true) => return .tuple [.bool true]
  | .ok v => return .pack (.bool true :: v.toList)
  | .error (.fault (.runtime e)) => return .tuple [.bool false, e.toValue]
  | .error s => throw s

def yield (a : Arguments) : Value := .yieldRequest a.values false

def runningCoroutine (m : Machine) : CoroutineId := (m.fiber m.currentFiber).owner

def isMain (site : CallSite) : Bool := site.fiber = Machine.mainFiber

def isYieldable (b : Fiber) : Bool := b.status ≠ .main && b.canYield

def running (site : CallSite) : Exec Value := do
  return .tuple [.coroutine (← read runningCoroutine), .bool (isMain site)]

def statusText : Status → String
  | .main | .running => "normal"
  | .notStarted | .suspended | .forceSuspended => "suspended"
  | .dead => "dead"

def status (a : Arguments) : Exec Value := do
  let co ← ofExcept (a.coroutine 0 "status")
  if co = (← read runningCoroutine) then return .string "running"
  return .string (statusText (← read fun m => m.coroutineStatus co))

def close (E : Engine) (a : Arguments) : Exec Value := do
  closeCoroutine E (← ofExcept (a.coroutine 0 "close"))

def isyieldable (site : CallSite) : Exec Value :=
  return .bool (← readFiber site.fiber isYieldable)

end ScriptMachine.Library
