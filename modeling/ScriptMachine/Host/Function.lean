import ScriptMachine.Host.Evaluation
import ScriptMachine.Library.Coroutine

namespace ScriptMachine.Host

open Exec

def locationValue (l : Option Location) : Value := l.elim .nil fun l => .string l.text

/-- Who called a native function: the location of the call, whether the flow is the main one and
may yield, the state of the running coroutine, and the locations of the calls around it. -/
def whereabouts (m : Machine) (site : CallSite) (levels : Nat) : Value :=
  let calls := (List.range levels).map fun level =>
    locationValue (m.locationAtLevel site.fiber site.location level)
  .tuple ([locationValue site.location, .bool (Library.isMain site),
    .bool (Library.isYieldable (m.fiber site.fiber)),
    .string (m.coroutineStatus (Library.runningCoroutine m)).text] ++ calls)

def namedCoroutine (name : String) : Exec CoroutineId := do
  match ← namedValue name with
  | .coroutine co => return co
  | _ => fail (.invalidArgument (name ++ " is not a coroutine"))

def countCall (id : NativeId) : Exec Nat :=
  modifyGet fun m =>
    let calls := (m.heap.native id).calls + 1
    let natives := m.heap.natives.modify id.index fun f => { f with calls }
    (calls, { m with heap := { m.heap with natives } })

def run (E : Engine) (id : NativeId) (site : CallSite) (a : Arguments) :
    HostAction Value Template → Exec Value
  | .const v => return v
  | .arguments => return .tuple a.values
  | .count => return .ofNat a.length
  | .isMethod => return .bool a.method
  | .argument n => return a.get n
  | .labelled text => do return .string (text ++ (← read fun m => m.heap.printText (a.get 0)))
  | .fail fault => fail fault
  | .raise v => raise v
  | .call => E (.call (a.get 0) (a.skip 1))
  | .apply function => E (.call function a.values)
  | .yield forced => return .yieldRequest a.values forced
  | .tailCall function arguments continuation onError beforeUnwind => do
    let arguments ← match arguments with
      | some templates => evaluateAll templates
      | none => pure a.values
    makeTailCall (← evaluate function) arguments (← evaluateOption continuation)
      (← evaluateOption onError) (← evaluateOption beforeUnwind)
  | .whereabouts levels => read fun m => whereabouts m site levels
  | .createCoroutine => do return .coroutine (← createCoroutine (a.get 0))
  | .globals => do return .table (← read Machine.globals)
  | .countUp limit => do
    let calls ← countCall id
    return if calls ≤ limit then .ofNat calls else .nil
  | .resume name => do
    let f ← fiberOf (← namedCoroutine name)
    E (.resume f a.values)
  | .close name => do closeCoroutine E (← namedCoroutine name)
  | .state name => do
    let co ← namedCoroutine name
    return .string (← read fun m => m.coroutineStatus co).text
  | .save name => do
    setVariable name (a.get 0)
    return .nil
  | .trace name skip => do
    let co ← namedCoroutine name
    return .tuple (← read fun m => (m.stackTrace co skip).map fun w => .string (w.text m.heap))

def log (f : Native) (a : Arguments) : Exec Unit := do
  if f.logged then emit (.called f.name (← read fun m => a.values.map m.observe))

end ScriptMachine.Host
