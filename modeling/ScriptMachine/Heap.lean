import ScriptMachine.Host.Template
import ScriptMachine.Symbol
import ScriptMachine.Table.Traversal
import ScriptMachine.Text.Quoted

namespace ScriptMachine

structure FiberId where
  index : Nat
deriving DecidableEq, Hashable, Repr, Inhabited

structure Closure where
  entry : Nat
  names : List String := []
  cells : Array CellId := #[]
deriving Inhabited

/-- What a closure has captured, as far as dumping it goes. -/
inductive Captures where
  | nothing
  | environment
  | others
deriving DecidableEq, Repr

def Captures.text : Captures → String
  | nothing => "None"
  | environment => "Environment"
  | others => "Closure"

def Closure.captures (c : Closure) : Captures :=
  if c.cells.isEmpty then .nothing
  else if c.names.all (· == environmentName) then .environment
  else .others

structure Userdata where
  typeName : String
  metatable : Option TableId := none
deriving Inhabited

/-- What happens around a call: its result passes through the continuation, an error in it is
replaced by what the error handler gives, and before the stack unwinds the message handler may
change the error. -/
structure Handlers where
  continuation : Option NativeId := none
  onError : Option NativeId := none
  beforeUnwind : Option Value := none
deriving Inhabited

def Handlers.isEmpty (h : Handlers) : Bool :=
  h.continuation.isNone && h.onError.isNone && h.beforeUnwind.isNone

/-- A request of a native function to be replaced by another call. -/
structure TailCall where
  function : Value
  arguments : List Value
  handlers : Handlers := {}
deriving Inhabited

inductive Builtin where
  | pcall
  | xpcall
  | error
  | assert
  | print
  | type
  | tostring
  | tonumber
  | select
  | setmetatable
  | getmetatable
  | rawget
  | rawset
  | rawequal
  | next
  | ipairs
  | ipairsStep
  | create
  | wrap
  | resume
  | yield
  | running
  | status
  | close
  | isyieldable
  | wrapped (co : CoroutineId)
  | withStatus (ok : Bool)
deriving DecidableEq, Repr

inductive Behavior where
  | builtin (b : Builtin)
  | host (action : HostAction Value Template)

structure Native where
  name : String
  behavior : Behavior
  logged : Bool := false
  calls : Nat := 0

instance : Inhabited Native := ⟨⟨"", .builtin .pcall, false, 0⟩⟩

inductive CoroutineBody where
  | fiber (id : FiberId)
  | callback (f : NativeId)
  | spent
  /-- The stacks were handed on to a newer coroutine. -/
  | recycled
deriving DecidableEq, Repr, Inhabited

structure Heap where
  tables : Array Table := #[]
  cells : Array Value := #[]
  closures : Array Closure := #[]
  natives : Array Native := #[]
  userdata : Array Userdata := #[]
  coroutines : Array CoroutineBody := #[]
  tailCalls : Array TailCall := #[]
deriving Inhabited

namespace Heap

def table (h : Heap) (id : TableId) : Table := h.tables.getD id.index default

def cell (h : Heap) (id : CellId) : Value := h.cells.getD id.index .nil

def closure (h : Heap) (id : ClosureId) : Closure := h.closures.getD id.index default

def native (h : Heap) (id : NativeId) : Native := h.natives.getD id.index default

def userdatum (h : Heap) (id : UserdataId) : Userdata := h.userdata.getD id.index default

def coroutine (h : Heap) (id : CoroutineId) : CoroutineBody := h.coroutines.getD id.index .spent

def tailCall (h : Heap) (id : TailCallId) : TailCall := h.tailCalls.getD id.index default

def newTable (h : Heap) (t : Table) : TableId × Heap :=
  (⟨h.tables.size⟩, { h with tables := h.tables.push t })

def newCell (h : Heap) (v : Value) : CellId × Heap :=
  (⟨h.cells.size⟩, { h with cells := h.cells.push v })

def newClosure (h : Heap) (c : Closure) : ClosureId × Heap :=
  (⟨h.closures.size⟩, { h with closures := h.closures.push c })

def newNative (h : Heap) (n : Native) : NativeId × Heap :=
  (⟨h.natives.size⟩, { h with natives := h.natives.push n })

def newUserdata (h : Heap) (u : Userdata) : UserdataId × Heap :=
  (⟨h.userdata.size⟩, { h with userdata := h.userdata.push u })

def newCoroutine (h : Heap) (c : CoroutineBody) : CoroutineId × Heap :=
  (⟨h.coroutines.size⟩, { h with coroutines := h.coroutines.push c })

def newTailCall (h : Heap) (t : TailCall) : TailCallId × Heap :=
  (⟨h.tailCalls.size⟩, { h with tailCalls := h.tailCalls.push t })

def modifyTable (h : Heap) (id : TableId) (f : Table → Table) : Heap :=
  { h with tables := h.tables.modify id.index f }

def setCell (h : Heap) (id : CellId) (v : Value) : Heap :=
  { h with cells := h.cells.setIfInBounds id.index v }

def setCoroutine (h : Heap) (id : CoroutineId) (c : CoroutineBody) : Heap :=
  { h with coroutines := h.coroutines.setIfInBounds id.index c }

def metatable? (h : Heap) : Value → Option TableId
  | .table id => (h.table id).metatable
  | .userdata id => (h.userdatum id).metatable
  | _ => none

/-- The handler of an event in the metatable of a value. Nil counts as absent. -/
def metamethod? (h : Heap) (v : Value) (event : String) : Option Value := do
  let id ← h.metatable? v
  let handler := (h.table id).getString event
  if handler.isNil then none else some handler

end Heap

end ScriptMachine
