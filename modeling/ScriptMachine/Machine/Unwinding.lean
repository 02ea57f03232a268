import ScriptMachine.Debug.Listening
import ScriptMachine.Machine.Calling

namespace ScriptMachine.Exec

/-- Lets a message handler replace an error. If the handler fails, its message is put in front. -/
def handledError (E : Engine) (handler : Value) (e : RuntimeError) : Exec RuntimeError := do
  let outcome ←
    if handler.isCallable then attempt (E (.call handler [.string e.text]))
    else pure (.error (.fault (.complain .handlerNotSet)))
  match outcome with
  | .ok v =>
    let text ← read fun m => m.heap.printText v.toScalar
    return { e with decorated := some text, value := some v.toScalar }
  | .error (.fault (.runtime inner)) =>
    return { e with decorated := some (inner.message ++ "\n" ++ e.text), value := none }
  | .error s => throw s

def reportError (f : FiberId) (e : RuntimeError) (ip : Nat) : Exec Unit := do
  let some d ← read fun m => m.debug.debugger | return
  emit (.failed e.text)
  if d.pausesOnError then listen f ip (← read fun m => m.code.locationAt ip) true

def messageHandlers (b : Fiber) : List Value :=
  b.frames.toList.reverse.filterMap fun frame => frame.handlers.beforeUnwind

/-- Leaves frames until one has an error handler, whose result takes the place of its call. What
the frames have to close is closed on the way, and an error there replaces the one under way. -/
def unwindFrames (E : Engine) (f : FiberId) : Nat → RuntimeError → Exec Resumption
  | 0, _ => throw .exhausted
  | n + 1, e => do
    if ← readFiber f fun b => b.frames.isEmpty then fail (.runtime e)
    match ← attempt (closeBlocks E f e.toValue n) with
    | .error (.fault (.runtime raised)) =>
      let raised := raised.decorate none
      emit (.warned ("finalizer failed while unwinding '" ++ e.text ++ "': " ++ raised.text))
      unwindFrames E f n raised
    | .error s => throw s
    | .ok () =>
      let frame ← popFrame f
      match frame.handlers.onError with
      | some handler =>
        if !frame.isNative then popArguments f
        push f (← E (.invoke handler ⟨f, frame.calledFrom⟩ [e.toValue] false))
        settle (performCall E f n) f frame.returnTo frame.isEntry
      | none => if frame.isEntry then fail (.runtime e) else unwindFrames E f n e

def unwind (E : Engine) (f : FiberId) (fuel : Nat) (e : RuntimeError) (ip : Nat) :
    Exec Resumption := do
  let e := e.decorate (← read fun m => m.code.locationAt ip)
  reportError f e ip
  let handlers ← readFiber f messageHandlers
  let e ← handlers.foldlM (fun e handler => handledError E handler e) e
  unwindFrames E f fuel e

end ScriptMachine.Exec
