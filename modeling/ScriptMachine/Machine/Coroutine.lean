import ScriptMachine.Machine.Loop

namespace ScriptMachine.Exec

/-- Runs an operation inside a flow. A coroutine is active meanwhile. -/
def entering {α : Type} (f : FiberId) (x : Exec α) : Exec α := do
  modifyFiber f fun b => { b with nesting := b.nesting + 1 }
  if f ≠ Machine.mainFiber then modify fun m => { m with active := f :: m.active }
  ensuring x do
    if f ≠ Machine.mainFiber then modify fun m => { m with active := m.active.tail }
    modifyFiber f fun b => { b with nesting := b.nesting - 1 }

def runCall (E : Engine) (f : FiberId) (fuel argc : Nat) : Exec Value := do
  drive E f fuel (← performCall E f fuel argc { isEntry := true })

/-- Runs an operation that must not yield. If it fails, the stacks are cut back. -/
def guarded {α : Type} (f : FiberId) (x : Exec α) : Exec α := do
  let canYield ← readFiber f fun b => b.canYield
  let values ← readFiber f fun b => b.values.size
  let frames ← readFiber f fun b => b.frames.size
  modifyFiber f fun b => { b with canYield := false }
  let r ← attempt x
  modifyFiber f fun b => { b with canYield }
  if r matches .error _ then
    modifyFiber f fun b =>
      { b with values := b.values.shrink values, frames := b.frames.shrink frames }
  finish r

def reportEnd (f : FiberId) : Exec Unit := do
  let idle ← readFiber f fun b => b.nesting == 0
  let attached ← read fun m => m.debug.debugger.isSome
  if idle ∧ attached then emit .ended

def callFunction (E : Engine) (fuel : Nat) (function : Value) (arguments : List Value) :
    Exec Value := do
  let f ← read Machine.currentFiber
  let call := entering f <| guarded f do
    push f function
    pushAll f arguments
    runCall E f fuel arguments.length
  ensuring call (reportEnd f)

/-- Goes on after the last yield. If that ended the outermost call, the values passed to the
resumption are its result. -/
def continueSaved (E : Engine) (f : FiberId) (fuel : Nat) : Exec Value := do
  let saved ← readFiber f fun b => b.savedIp
  modifyFiber f fun b => { b with savedIp := none }
  match saved with
  | some ip => runFrom E f fuel ip
  | none => pop f

def runResumed (E : Engine) (f : FiberId) (fuel : Nat) (arguments : List Value) :
    Status → Exec Value
  | .notStarted => do
    setStatus f .running
    pushAll f arguments
    runCall E f fuel arguments.length
  | .suspended => do
    setStatus f .running
    push f (.tuple arguments)
    continueSaved E f fuel
  | _ =>
    if arguments.isEmpty then do
      setStatus f .running
      continueSaved E f fuel
    else complain .resumeForcedWithArguments

def concludeResume (f : FiberId) : Except Stop Value → Exec Value
  | .ok (.yieldRequest items true) => do
    setStatus f .forceSuspended
    return .yieldRequest items true
  | .ok (.yieldRequest items false) => do
    modifyFiber f fun b => { b with status := .suspended, closeError := .nil }
    return .tuple items
  | .ok v => do
    modifyFiber f fun b => { b with status := .dead, closeError := .nil }
    return v
  | .error s => do
    setStatus f .dead
    if let .fault (.runtime e) := s then
      modifyFiber f fun b => { b with closeError := e.toValue }
    throw s

def notResumable : Status → Complaint
  | .dead => .resumeDead
  | _ => .resumeNotSuspended

/-- Resumes a flow. A yield gives the tuple of the yielded values, a spent budget the request
itself. -/
def resume (E : Engine) (fuel : Nat) (f : FiberId) (arguments : List Value) : Exec Value := do
  let status ← readFiber f fun b => b.status
  if status.isResumable then
    entering f do concludeResume f (← attempt (runResumed E f fuel arguments status))
  else complain (notResumable status)

def closeFrames (E : Engine) (f : FiberId) : Nat → Exec Unit
  | 0 => throw .exhausted
  | n + 1 => do
    if ← readFiber f fun b => !b.frames.isEmpty then
      closeBlocks E f .nil n
      discard (popFrame f)
      closeFrames E f n

def notClosable : Status → Complaint
  | .main => .closeMain
  | .running => .closeRunning
  | s => .closeState s.text

def closeResult (error : Value) : Value :=
  if error.isNil then .bool true else .tuple [.bool false, error]

def closeSuspended (E : Engine) (fuel : Nat) (f : FiberId) : Exec Value :=
  entering f do
    setStatus f .running
    let r ← attempt (closeFrames E f fuel)
    modifyFiber f fun b => { b with values := #[], frames := #[], savedIp := none, status := .dead }
    match r with
    | .ok () =>
      modifyFiber f fun b => { b with closeError := .nil }
      return .bool true
    | .error (.fault (.runtime e)) =>
      modifyFiber f fun b => { b with closeError := e.toValue }
      return .tuple [.bool false, e.toValue]
    | .error s => throw s

/-- Closes a flow and gives true, or false and an error: that of a finalizer, or for a dead flow
the one it died of. -/
def close (E : Engine) (fuel : Nat) (f : FiberId) : Exec Value := do
  match ← readFiber f fun b => b.status with
  | s@.main | s@.running => complain (notClosable s)
  | .dead => return closeResult (← readFiber f fun b => b.closeError)
  | .notStarted =>
    setStatus f .dead
    return .bool true
  | .suspended | .forceSuspended => closeSuspended E fuel f

def newFiber (function : Value) : Exec CoroutineId := do
  let f : FiberId := ⟨← read fun m => m.fibers.size⟩
  let owner ← newCoroutine (.fiber f)
  modify fun m =>
    { m with fibers := m.fibers.push {
        values := #[function], status := .notStarted, budget := m.options.defaultBudget, owner } }
  return owner

/-- Makes a coroutine of a function. A native function runs once, without stacks of its own. -/
def createCoroutine : Value → Exec CoroutineId
  | .native id => newCoroutine (.callback id)
  | .closure id => newFiber (.closure id)
  | v => fail (.invalidArgument ("cannot create a coroutine from a " ++ v.typeName ++ " value"))

def recycle (co : CoroutineId) (function : Value) : Exec CoroutineId := do
  match ← read fun m => m.heap.coroutine co with
  | .fiber f =>
    let status ← readFiber f fun b => b.status
    if status ≠ .dead then
      fail (.invalidOperation ("cannot recycle a coroutine in state " ++ status.text))
    match function with
    | .closure id =>
      modifyFiber f fun b => { b with values := #[], frames := #[] }
      modify fun m => { m with heap := m.heap.setCoroutine co .recycled }
      newFiber (.closure id)
    | _ => fail (.invalidArgument "a recycled coroutine needs a script function")
  | _ => fail (.invalidOperation "only processor-backed coroutines can be recycled")

def fiberOf (co : CoroutineId) : Exec FiberId := do
  match ← read fun m => m.heap.coroutine co with
  | .fiber f => return f
  | body =>
    fail (.invalidOperation
      ("a " ++ body.kind.text ++ " coroutine cannot be resumed from the host"))

def resumeCoroutine (E : Engine) (site : CallSite) (co : CoroutineId) (arguments : List Value) :
    Exec Value := do
  match ← read fun m => m.heap.coroutine co with
  | .fiber f => E (.resume f arguments)
  | .callback native =>
    modify fun m => { m with heap := m.heap.setCoroutine co .spent }
    E (.invoke native site arguments false)
  | .spent | .recycled => complain .resumeDead

/-- Closes a coroutine. One without stacks of its own has nothing to close. -/
def closeCoroutine (E : Engine) (co : CoroutineId) : Exec Value := do
  match ← read fun m => m.heap.coroutine co with
  | .fiber f => E (.close f)
  | _ => return .bool true

end ScriptMachine.Exec
