import ScriptMachine.Machine.Fiber
import ScriptMachine.Value.Text

namespace ScriptMachine

inductive CoroutineKind where
  | script
  | callback
  | spentCallback
  | recycled
deriving DecidableEq, Repr

namespace CoroutineKind

def text : CoroutineKind → String
  | script => "Coroutine"
  | callback => "ClrCallback"
  | spentCallback => "ClrCallbackDead"
  | recycled => "Recycled"

end CoroutineKind

def CoroutineBody.kind : CoroutineBody → CoroutineKind
  | fiber _ => .script
  | callback _ => .callback
  | spent => .spentCallback
  | recycled => .recycled

/-- A value as an observer sees it at one moment: objects by their identity, coroutines with their
state at that time. -/
inductive Snapshot where
  | plain (v : Value)
  | coroutine (id : CoroutineId) (status : Status) (kind : CoroutineKind)
  | tuple (items : List Snapshot)
  | yieldRequest (items : List Snapshot) (forced : Bool)
  | tailCall (function : Snapshot) (arguments : List Snapshot)

/-- A row of data about a paused program: a call, a local, a stack slot or a watched name. -/
structure WatchItem (α : Type) where
  address : Option Nat := none
  base : Option Nat := none
  returnTo : Option Nat := none
  name : Option String := none
  value : Option α := none
  symbol : Option Symbol := none
  isError : Bool := false
  location : Option Location := none

namespace WatchItem

def text (h : Heap) (w : WatchItem Value) : String :=
  let name := w.name.getD "?"
  match w.value with
  | some v => name ++ " = " ++ h.text v
  | none => name

def map {α β : Type} (f : α → β) (w : WatchItem α) : WatchItem β :=
  { w with value := w.value.map f }

end WatchItem

inductive WatchKind where
  | callStack
  | watches
  | valueStack
  | locals
  | threads
deriving DecidableEq, Repr

def WatchKind.all : List WatchKind := [callStack, watches, valueStack, locals, threads]

def WatchKind.text : WatchKind → String
  | callStack => "CallStack"
  | watches => "Watches"
  | valueStack => "VStack"
  | locals => "Locals"
  | threads => "Threads"

/-- What an observer of the machine gets to know, in the order in which it happens. -/
inductive Event where
  | called (name : String) (arguments : List Snapshot)
  | printed (line : String)
  | warned (line : String)
  | paused (ip : Nat) (location : Option Location)
  | failed (message : String)
  | ended
  | breakpoints (locations : List Location)
  | watched (kind : WatchKind) (items : List (String × WatchItem Snapshot))

end ScriptMachine
