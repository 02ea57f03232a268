import ScriptMachine.Machine.Exec

namespace ScriptMachine.Exec

def namedValue (name : String) : Exec Value := read fun m => m.bindings.getD name .nil

def setVariable (name : String) (v : Value) : Exec Unit :=
  modify fun m => { m with bindings := m.bindings.insert name v }

def rawField (h : Heap) (v : Value) (name : String) : Value :=
  match v with
  | .table t => (h.table t).getString name
  | _ => .nil

def globalPath (path : List String) : Exec Value :=
  read fun m => path.foldl (rawField m.heap) (.table m.globals)

def asTable? : Option Value → Option TableId
  | some (.table t) => some t
  | _ => none

def asNative? : Option Value → Option NativeId
  | some (.native f) => some f
  | _ => none

def makeTable (array : List Value) (pairs : List (Value × Value)) (metatable : Option Value) :
    Exec Value := do
  let t ← ofComplaint <| pairs.foldlM (fun t (k, v) => Table.set t k v)
    (array.zipIdx.foldl (fun t (v, i) => t.setInt (i + 1) v) ({} : Table))
  modifyGet fun m =>
    let (id, heap) := m.heap.newTable { t with metatable := asTable? metatable }
    (.table id, { m with heap })

def makeTailCall (function : Value) (arguments : List Value)
    (continuation onError beforeUnwind : Option Value) : Exec Value :=
  newTailCall {
    function, arguments
    handlers := { continuation := asNative? continuation, onError := asNative? onError,
                  beforeUnwind } }

mutual

def evaluate : Template → Exec Value
  | .value v => return v
  | .named name => namedValue name
  | .global path => globalPath path
  | .table array pairs metatable => do
    makeTable (← evaluateAll array) (← evaluatePairs pairs) (← evaluateOption metatable)
  | .tuple items => return .tuple (← evaluateAll items)
  | .pack items => return .pack (← evaluateAll items)
  | .userdata typeName metatable => do
    newUserdata { typeName, metatable := asTable? (← evaluateOption metatable) }
  | .yieldRequest items forced => return .yieldRequest (← evaluateAll items) forced
  | .tailCall function arguments continuation onError beforeUnwind => do
    makeTailCall (← evaluate function) (← evaluateAll arguments) (← evaluateOption continuation)
      (← evaluateOption onError) (← evaluateOption beforeUnwind)
  | .native name logged action => do
    return .native (← newNative { name, behavior := .host (← evaluateAction action), logged })

def evaluateAll : List Template → Exec (List Value)
  | [] => return []
  | t :: ts => return (← evaluate t) :: (← evaluateAll ts)

def evaluatePair : Template × Template → Exec (Value × Value)
  | (k, v) => return (← evaluate k, ← evaluate v)

def evaluatePairs : List (Template × Template) → Exec (List (Value × Value))
  | [] => return []
  | p :: ps => return (← evaluatePair p) :: (← evaluatePairs ps)

def evaluateOption : Option Template → Exec (Option Value)
  | none => return none
  | some t => return some (← evaluate t)

def evaluateAction : HostAction Template Template → Exec (HostAction Value Template)
  | .const t => return .const (← evaluate t)
  | .raise t => return .raise (← evaluate t)
  | .apply t => return .apply (← evaluate t)
  | .arguments => return .arguments
  | .count => return .count
  | .isMethod => return .isMethod
  | .argument n => return .argument n
  | .labelled text => return .labelled text
  | .fail fault => return .fail fault
  | .call => return .call
  | .yield forced => return .yield forced
  | .tailCall function arguments continuation onError beforeUnwind =>
    return .tailCall function arguments continuation onError beforeUnwind
  | .whereabouts levels => return .whereabouts levels
  | .createCoroutine => return .createCoroutine
  | .globals => return .globals
  | .countUp limit => return .countUp limit
  | .resume name => return .resume name
  | .close name => return .close name
  | .state name => return .state name
  | .save name => return .save name
  | .trace name skip => return .trace name skip

end

end ScriptMachine.Exec
