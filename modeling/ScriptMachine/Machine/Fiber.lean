import ScriptMachine.Heap

namespace ScriptMachine

inductive Status where
  | main
  | notStarted
  | running
  | suspended
  | forceSuspended
  | dead
deriving DecidableEq, Repr, Inhabited

namespace Status

def text : Status → String
  | main => "main"
  | notStarted => "notstarted"
  | running => "running"
  | suspended => "suspended"
  | forceSuspended => "forcesuspended"
  | dead => "dead"

def ofText? (s : String) : Option Status :=
  [main, notStarted, running, suspended, forceSuspended, dead].find? fun status => status.text = s

def isResumable : Status → Bool
  | notStarted | suspended | forceSuspended => true
  | _ => false

end Status

structure Frame where
  entry : Nat := 0
  symbols : List Symbol := []
  /-- The height of the value stack at the start. A script function has its argument count just
  below, a native function has its callee just above. -/
  base : Nat
  /-- Where the caller goes on; none if the caller is native code. -/
  returnTo : Option Nat := none
  locals : Array (Option CellId) := #[]
  names : List String := []
  upvalues : Array CellId := #[]
  native : Option NativeId := none
  handlers : Handlers := {}
  isEntry : Bool := false
  calledFrom : Option Location := none
  /-- The locals that each open block still has to close, both innermost and latest first. -/
  blocks : List (List Symbol) := []
  pending : List Nat := []
deriving Inhabited

namespace Frame

def isNative (f : Frame) : Bool := f.native.isSome

def hasClosers (f : Frame) : Bool := f.blocks.any fun b => !b.isEmpty

def local? (f : Frame) (i : Nat) : Option CellId := (f.locals[i]?).join

def localValue (f : Frame) (h : Heap) (i : Nat) : Value :=
  match f.local? i with
  | some cell => h.cell cell
  | none => .nil

def reserve (f : Frame) (i : Nat) : Frame :=
  if i < f.locals.size then f
  else { f with locals := f.locals ++ Array.replicate (i + 1 - f.locals.size) none }

def setLocal (f : Frame) (i : Nat) (cell : Option CellId) : Frame :=
  { f with locals := f.locals.setIfInBounds i cell }

def addPending (f : Frame) (is : List Nat) : Frame :=
  { f with pending := is.foldl (fun pending i => pending.insert i) f.pending }

/-- Empties the slots from `first` to `last` and forgets that they are to be closed. -/
def clear (f : Frame) (first last : Int32) : Frame :=
  if first < 0 ∨ last < first then f
  else
    let low := first.toInt.toNat
    let high := last.toInt.toNat
    { f with
      locals := f.locals.mapIdx fun i cell => if low ≤ i ∧ i ≤ high then none else cell
      pending := f.pending.filter fun i => i < low ∨ high < i }

end Frame

structure Fiber where
  values : Array Value := #[]
  frames : Array Frame := #[]
  status : Status
  canYield : Bool := true
  savedIp : Option Nat := none
  closeError : Value := .nil
  nesting : Nat := 0
  /-- How many instructions it may run before it is suspended; zero for any number. -/
  budget : Nat := 0
  owner : CoroutineId
deriving Inhabited

namespace Fiber

def scriptFrame? (f : Fiber) : Option Frame := f.frames.toList.reverse.find? fun f => !f.isNative

end Fiber

end ScriptMachine
