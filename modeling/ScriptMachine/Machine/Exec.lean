import ScriptMachine.Machine.Basic

namespace ScriptMachine

inductive Stop where
  | fault (f : Fault)
  /-- A stack position or a count left its range. -/
  | crash
  | exhausted
deriving Inhabited

/-- An operation of the machine. What it has changed stays changed, also if it fails. -/
abbrev Exec := ExceptT Stop (StateM Machine)

namespace Exec

def fail {α : Type} (f : Fault) : Exec α := throw (.fault f)

def complain {α : Type} (c : Complaint) : Exec α := fail (.complain c)

def internal {α : Type} (message : String) : Exec α := fail (.internal message)

def ofExcept {α : Type} : Except Fault α → Exec α
  | .ok a => pure a
  | .error f => fail f

def ofComplaint {α : Type} : Except Complaint α → Exec α
  | .ok a => pure a
  | .error c => complain c

def attempt {α : Type} (x : Exec α) : Exec (Except Stop α) := fun m =>
  match x m with
  | (r, m) => (.ok r, m)

def finish {α : Type} : Except Stop α → Exec α
  | .ok a => pure a
  | .error s => throw s

def ensuring {α : Type} (x : Exec α) (after : Exec Unit) : Exec α := do
  let r ← attempt x
  after
  finish r

def read {α : Type} (f : Machine → α) : Exec α := return f (← get)

def emit (e : Event) : Exec Unit := modify fun m => { m with events := m.events.push e }

def readFiber {α : Type} (f : FiberId) (g : Fiber → α) : Exec α := read fun m => g (m.fiber f)

def modifyFiber (f : FiberId) (g : Fiber → Fiber) : Exec Unit :=
  modify fun m => { m with fibers := m.fibers.modify f.index g }

def setStatus (f : FiberId) (s : Status) : Exec Unit :=
  modifyFiber f fun b => { b with status := s }

def table (t : TableId) : Exec Table := read fun m => m.heap.table t

def modifyTable (t : TableId) (g : Table → Table) : Exec Unit :=
  modify fun m => { m with heap := m.heap.modifyTable t g }

def setIndex (t : TableId) (key v : Value) : Exec Unit := do
  let key := key.toScalar
  ofComplaint (Table.checkKey key)
  modifyTable t fun t => t.insert key v

def metamethod? (v : Value) (event : String) : Exec (Option Value) :=
  read fun m => m.heap.metamethod? v event

def readCell (c : CellId) : Exec Value := read fun m => m.heap.cell c

def writeCell (c : CellId) (v : Value) : Exec Unit :=
  modify fun m => { m with heap := m.heap.setCell c v }

def newTable : Exec Value :=
  modifyGet fun m =>
    let (id, heap) := m.heap.newTable {}
    (.table id, { m with heap })

def newCell (v : Value) : Exec CellId :=
  modifyGet fun m =>
    let (id, heap) := m.heap.newCell v
    (id, { m with heap })

def newClosure (c : Closure) : Exec Value :=
  modifyGet fun m =>
    let (id, heap) := m.heap.newClosure c
    (.closure id, { m with heap })

def newNative (n : Native) : Exec NativeId :=
  modifyGet fun m =>
    let (id, heap) := m.heap.newNative n
    (id, { m with heap })

def newBuiltin (name : String) (b : Builtin) : Exec NativeId :=
  newNative { name, behavior := .builtin b }

def newUserdata (u : Userdata) : Exec Value :=
  modifyGet fun m =>
    let (id, heap) := m.heap.newUserdata u
    (.userdata id, { m with heap })

def newCoroutine (c : CoroutineBody) : Exec CoroutineId :=
  modifyGet fun m =>
    let (id, heap) := m.heap.newCoroutine c
    (id, { m with heap })

def newTailCall (t : TailCall) : Exec Value :=
  modifyGet fun m =>
    let (id, heap) := m.heap.newTailCall t
    (.tailCall id, { m with heap })

def raise {α : Type} (v : Value) : Exec α := do
  let e ← read fun m => m.heap.raise v
  fail (.runtime e)

end Exec

end ScriptMachine
