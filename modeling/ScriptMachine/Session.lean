import ScriptMachine.Code.Assembly
import ScriptMachine.Code.Listing
import ScriptMachine.Machine.Engine
import ScriptMachine.Value.Conversion

namespace ScriptMachine.Session

open Exec

/-- A new machine: a main flow of control, a table of globals and, if wanted, the library. -/
def start (o : Options) : Machine :=
  let (globals, heap) := ({} : Heap).newTable {}
  let (main, heap) := heap.newCoroutine (.fiber Machine.mainFiber)
  let heap := if o.registerLibrary then Library.register heap globals else heap
  { heap, globals, options := o, fibers := #[{ status := .main, owner := main }] }

def setOptions (o : Options) : Exec Unit := do
  let o ← ofExcept o.validate
  modify fun m => { m with options := o }

def global (name : String) : Exec Value :=
  read fun m => (m.heap.table m.globals).getString name

def setGlobal (name : String) (v : Value) : Exec Unit := do
  modifyTable (← read Machine.globals) fun t => t.setString name v

def nextSource : Exec UInt32 :=
  modifyGet fun m => (m.nextSource, { m with nextSource := m.nextSource + 1 })

def listing (m : Machine) : String := m.code.listing m.heap 0 m.code.size

def assemble (body : List Directive) : Exec (List (Except Fault (Option Nat)) × List Fault) :=
  modifyGet fun m =>
    let a := m.code.assemble body
    ((a.answers, a.faults), { m with code := a.code })

def closureOver (entry : Nat) (captured : List (String × Value)) : Exec Value := do
  let cells ← captured.mapM fun (_, v) => newCell v
  newClosure { entry, names := captured.map Prod.fst, cells := cells.toArray }

def makeClosure (entry : Nat) (environment : Bool) : Exec Value := do
  if environment then closureOver entry [(environmentName, .table (← read Machine.globals))]
  else closureOver entry []

def define (f : FunctionSource) (environment : Bool) : Exec (Nat × Value × List Fault) := do
  let (entry, faults) ← modifyGet fun m =>
    let (entry, a) := m.code.assembleFunction f
    ((entry, a.faults), { m with code := a.code })
  return (entry, ← makeClosure entry environment, faults)

def call (fuel : Nat) (function : Value) (arguments : List Value) : Exec Value :=
  engine fuel (.call function arguments)

def callGlobal (fuel : Nat) (name : String) (arguments : List Value) : Exec Value := do
  call fuel (← global name) arguments

def create (function : Value) : Exec Value := return .coroutine (← createCoroutine function)

def recycle (co : CoroutineId) (function : Value) : Exec Value :=
  return .coroutine (← Exec.recycle co function)

def resume (fuel : Nat) (co : CoroutineId) (arguments : List Value) : Exec Value := do
  engine fuel (.resume (← fiberOf co) arguments)

def close (fuel : Nat) (co : CoroutineId) : Exec Value := closeCoroutine (engine fuel) co

def budget (m : Machine) (co : CoroutineId) : Nat :=
  match m.heap.coroutine co with
  | .fiber f => (m.fiber f).budget
  | _ => 0

def debugText (m : Machine) (co : CoroutineId) : String :=
  "Coroutine(" ++ (m.coroutineKind co).text ++ ", " ++ (m.coroutineStatus co).text ++ ")"

def setBudget (co : CoroutineId) (n : Nat) : Exec Unit := do
  modifyFiber (← fiberOf co) fun b => { b with budget := n }

inductive ItemForm where
  | whole
  | scalar
  | number
  | text
  | truth
  | nothing

def ItemForm.ofWord : String → ItemForm
  | "typed" => whole
  | "scalar" => scalar
  | "number" => number
  | "string" => text
  | "bool" => truth
  | _ => nothing

def ItemForm.apply : ItemForm → Value → Except Fault Value
  | whole, v => return v
  | scalar, v => return v.toScalar
  | number, v => return .number (← v.toScalar.toNumber)
  | text, v => return .string (← v.toScalar.toText)
  | truth, v => return .bool v.toScalar.isTruthy
  | nothing, _ => return .nil

def next (fuel : Nat) (co : CoroutineId) (form : ItemForm) : Exec (Option Value) := do
  if ← read fun m => (m.coroutineStatus co).isResumable then
    return some (← ofExcept (form.apply (← resume fuel co [])))
  else return none

def dump (v : Value) : Exec Chunk.Bytes := do
  match v with
  | .closure id =>
    let closure ← read fun m => m.heap.closure id
    if closure.captures = .others then
      fail (.invalidArgument "function has upvalues other than _ENV")
    ofExcept (Chunk.encode (← read Machine.code) closure.entry (closure.captures = .environment))
  | v =>
    fail (.invalidArgument
      ("cannot dump a " ++ v.typeName ++ " value, a script function is required"))

/-- Appends the function of a binary chunk. If it captured its environment, that is now the table
of globals. -/
def load (bytes : Chunk.Bytes) : Exec Value := do
  let source ← nextSource
  let m ← get
  let (loaded, code) ← ofExcept (Chunk.decode bytes m.code source (.table m.globals))
  modify fun m => { m with code }
  makeClosure loaded.entry loaded.hasUpvalues

def attach (d : Debugger) : Exec Unit := modifyDebug fun s => s.attach d

def detach : Exec Unit := modifyDebug DebugState.detach

def enableDebugger (on : Bool) : Exec Unit := modifyDebug fun s => s.enable on

def takeEvents : Exec (Array Event) := modifyGet fun m => (m.events, { m with events := #[] })

end ScriptMachine.Session
