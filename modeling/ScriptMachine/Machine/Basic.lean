import Std.Data.HashMap
import ScriptMachine.Chunk.Decode
import ScriptMachine.Debug.Debugger
import ScriptMachine.Options

namespace ScriptMachine

/-- A script machine: code, objects, flows of control and settings, with what the host has named
and what it has not yet been told. -/
structure Machine where
  code : Code := {}
  heap : Heap := {}
  globals : TableId := ⟨0⟩
  options : Options := {}
  fibers : Array Fiber := #[]
  active : List FiberId := []
  nextSource : UInt32 := 0
  debug : DebugState := {}
  events : Array Event := #[]
  bindings : Std.HashMap String Value := ∅
deriving Inhabited

namespace Machine

def mainFiber : FiberId := ⟨0⟩

def mainCoroutine : CoroutineId := ⟨0⟩

def fiber (m : Machine) (id : FiberId) : Fiber := m.fibers.getD id.index default

def currentFiber (m : Machine) : FiberId := m.active.headD mainFiber

def coroutineStatus (m : Machine) (id : CoroutineId) : Status :=
  match m.heap.coroutine id with
  | .fiber f => (m.fiber f).status
  | .callback _ => .notStarted
  | .spent | .recycled => .dead

def coroutineKind (m : Machine) (id : CoroutineId) : CoroutineKind := (m.heap.coroutine id).kind

mutual

/-- What an observer sees of a value. A request shows its parts, as far as the depth goes. -/
def snapshot (m : Machine) (depth : Nat) : Value → Snapshot
  | .coroutine id => .coroutine id (m.coroutineStatus id) (m.coroutineKind id)
  | .tuple items => .tuple (snapshots m depth items)
  | .yieldRequest items forced => .yieldRequest (snapshots m depth items) forced
  | .tailCall id =>
    match depth with
    | 0 => .plain (.tailCall id)
    | depth + 1 =>
      let call := m.heap.tailCall id
      .tailCall (snapshot m depth call.function) (snapshots m depth call.arguments)
  | v => .plain v
termination_by v => (depth, sizeOf v)

def snapshots (m : Machine) (depth : Nat) : List Value → List Snapshot
  | [] => []
  | v :: vs => snapshot m depth v :: snapshots m depth vs
termination_by vs => (depth, sizeOf vs)

end

def observe (m : Machine) (v : Value) : Snapshot := m.snapshot m.heap.tailCalls.size v

end Machine

end ScriptMachine
