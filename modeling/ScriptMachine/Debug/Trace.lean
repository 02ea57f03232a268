import ScriptMachine.Machine.Basic

namespace ScriptMachine.Machine

def callRows (m : Machine) (frame : Frame) (location : Option Location) :
    List (WatchItem Value) :=
  let row : WatchItem Value :=
    match frame.native with
    | some id => { returnTo := frame.returnTo, name := some (m.heap.native id).name, location }
    | none =>
      let preamble := (m.code.get? frame.entry).filter fun i => i.op == .preamble
      { address := some frame.entry, base := some frame.base, returnTo := frame.returnTo,
        name := preamble.bind Instruction.name, location }
  let waiting := frame.handlers.continuation.map fun id =>
    { name := some (m.heap.native id).name }
  row :: waiting.toList

/-- The rows of calls, innermost first. Each call outside the first one is where it entered the
call inside it. -/
def callRowsFrom (m : Machine) : List Frame → Option Location → List (WatchItem Value)
  | [], _ => []
  | frame :: outer, location => m.callRows frame location ++ m.callRowsFrom outer frame.calledFrom

def callStack (m : Machine) (f : FiberId) (location : Option Location) : List (WatchItem Value) :=
  m.callRowsFrom (m.fiber f).frames.toList.reverse location

def locationAtLevel (m : Machine) (f : FiberId) (location : Option Location) (level : Nat) :
    Option Location :=
  ((m.callStack f location)[level]?).bind WatchItem.location

def stackTrace (m : Machine) (co : CoroutineId) (skip : Nat) : List (WatchItem Value) :=
  match m.heap.coroutine co with
  | .fiber f => (m.callStack f none).drop skip
  | _ => []

def visibleSymbol? (frame : Frame) (name : String) : Option Symbol :=
  let live := frame.symbols.zipIdx.filter fun (s, i) =>
    s.name == name && (frame.local? i).isSome
  match live.getLast? with
  | some (s, _) => some s
  | none => (frame.names.findIdx? (· == name)).map (Symbol.upvalue name)

/-- What a name means in the innermost script function: a local that is alive, an upvalue, or a
field of the environment. -/
def findSymbol (m : Machine) (f : FiberId) (name : String) : Symbol :=
  let visible := fun name => (m.fiber f).scriptFrame?.bind fun frame => visibleSymbol? frame name
  let environment := (visible environmentName).getD .defaultEnvironment
  (visible name).getD (if name = environmentName then environment else .global name environment)

def symbolValue (m : Machine) (f : FiberId) : Symbol → Except Fault Value
  | .defaultEnvironment => return .table m.globals
  | .global name environment => do
    match ← m.symbolValue f environment with
    | .table t => return (m.heap.table t).getString name
    | _ => throw (.invalidOperation "_ENV is not a table")
  | .localVar _ index _ _ =>
    return (m.fiber f).scriptFrame?.elim .nil fun frame => frame.localValue m.heap index
  | .upvalue _ index =>
    let cell := (m.fiber f).scriptFrame?.bind fun frame => frame.upvalues[index]?
    return cell.elim .nil m.heap.cell

end ScriptMachine.Machine
