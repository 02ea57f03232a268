import ScriptMachine.Machine.Closing

namespace ScriptMachine

structure CallSetup where
  returnTo : Option Nat := none
  isEntry : Bool := false
  handlers : Handlers := {}
  method : Bool := false
  name : Option String := none
  calledBy : Option Nat := none

def CallSetup.byInstruction (ip : Nat) : CallSetup :=
  { returnTo := some (ip + 1), calledBy := some ip }

def maxCallChain : Nat := 100

namespace Exec

/-- Looks at a callee. If it is not a function, something is done with the handler of its calls. -/
def examineCallee (f : FiberId) (name : Option String) (argc : Nat) (next : Value → Exec Nat) : Exec Nat := do
  let callee := (← peek f argc).toScalar
  if callee.isCallable then return argc
  match ← metamethod? callee "__call" with
  | none => complain (.call callee.typeName name)
  | some handler => next handler

/-- Puts the handlers of callable objects below the callee until it is a function, and gives the
new number of arguments. -/
def resolveCallee (f : FiberId) (name : Option String) : Nat → Nat → Exec Nat
  | 0, argc => examineCallee f name argc fun _ => complain .callChain
  | chain + 1, argc => examineCallee f name argc fun handler => do
    modifyFiber f fun b =>
      { b with values := b.values.insertIdxIfInBounds (b.values.size - argc - 1) handler }
    resolveCallee f name chain (argc + 1)

def canReplaceFrame (f : FiberId) (setup : CallSetup) : Exec Bool :=
  read fun m =>
    let b := m.fiber f
    let threshold := m.options.tailCallThreshold
    let deep := (threshold < b.frames.size && 1 < b.frames.size) ||
      (threshold < b.values.size && 1 < b.values.size)
    let plain := b.frames.back?.any fun frame =>
      !frame.isNative && frame.handlers.isEmpty && !frame.hasClosers
    let returns := (setup.returnTo.bind m.code.get?).any fun i => i.op == .ret && i.number == 1
    deep && setup.handlers.isEmpty && plain && returns

/-- Drops the top frame if a call in tail position would only make a deep stack deeper. Callee
and arguments move down, and the call takes over where the frame would have returned to. -/
def replaceFrame (f : FiberId) (argc : Nat) (setup : CallSetup) : Exec CallSetup := do
  if ← canReplaceFrame f setup then
    let moved ← popMany f (argc + 1)
    let frame ← popFrame f
    popArguments f
    pushAll f moved
    return { setup with returnTo := frame.returnTo, isEntry := frame.isEntry }
  else return setup

def applyContinuation (E : Engine) (f : FiberId) (handlers : Handlers) (v : Value)
    (location : Option Location) : Exec Value := do
  match handlers.continuation with
  | none => return v
  | some continuation =>
    if v.isRequest then
      let name ← read fun m => (m.heap.native continuation).name
      complain (.continued v.typeName name)
    else E (.invoke continuation ⟨f, location⟩ [v] false)

/-- Looks at what a call left on the stack: a request for another call is served, a request to
yield suspends the flow, and any other value is its result. -/
def settle (call : Nat → CallSetup → Exec Resumption) (f : FiberId) (returnTo : Option Nat)
    (isEntry : Bool) : Exec Resumption := do
  match ← peek f 0 with
  | .tailCall id =>
    let request ← read fun m => m.heap.tailCall id
    discard (pop f)
    push f request.function
    pushAll f request.arguments
    call request.arguments.length { returnTo, isEntry, handlers := request.handlers }
  | .yieldRequest _ _ =>
    if ← readFiber f fun b => b.status == .main then complain .yieldOutside
    else if ← readFiber f fun b => !b.canYield then complain .yieldAcrossCall
    else
      modifyFiber f fun b => { b with savedIp := returnTo }
      return .yielded
  | _ => return .after returnTo

/-- Calls the function below the arguments on the stack. A script function gets a frame and is
entered; a native function is run. -/
def performCall (E : Engine) (f : FiberId) : Nat → Nat → CallSetup → Exec Resumption
  | 0, _, _ => throw .exhausted
  | n + 1, argc, setup => do
    let argc ← resolveCallee f setup.name maxCallChain argc
    let setup ← replaceFrame f argc setup
    let calledFrom ← read fun m => setup.calledBy.bind m.code.locationAt
    if ← read fun m => decide (m.options.maxCallDepth ≤ (m.fiber f).frames.size) then
      complain .stackOverflow
    let slot := (← height f) - argc - 1
    match ← readFiber f fun b => (b.values.getD slot .nil).toScalar with
    | .closure id =>
      let closure ← read fun m => m.heap.closure id
      push f (.ofNat argc)
      pushFrame f {
        entry := closure.entry, base := slot + argc + 2, returnTo := setup.returnTo,
        names := closure.names, upvalues := closure.cells, handlers := setup.handlers,
        isEntry := setup.isEntry, calledFrom }
      return .jump closure.entry
    | .native id =>
      let arguments ← readFiber f fun b => (b.values.extract (slot + 1) (slot + 1 + argc)).toList
      pushFrame f {
        base := slot, returnTo := setup.returnTo, native := some id, handlers := setup.handlers,
        isEntry := setup.isEntry, calledFrom }
      let v ← E (.invoke id ⟨f, calledFrom⟩ arguments setup.method)
      let v ← applyContinuation E f setup.handlers v calledFrom
      modifyFiber f fun b =>
        { b with frames := b.frames.pop, values := (b.values.shrink slot).push v }
      settle (performCall E f n) f setup.returnTo setup.isEntry
    | _ => internal "callee changed while setting up a call"

def performReturn (E : Engine) (f : FiberId) (fuel : Nat) (i : Instruction) (ip : Nat) :
    Exec Resumption := do
  closeBlocks E f .nil fuel
  let v ←
    if i.number = 0 then pure (.tuple [])
    else if i.number = 1 then pop f
    else internal "RET supports only 0 and 1 ret val scenarios"
  let frame ← popFrame f
  popArguments f
  let location ← read fun m => m.code.locationAt ip
  push f v
  if frame.handlers.continuation.isSome then
    let v ← applyContinuation E f frame.handlers (← pop f) location
    push f v
  settle (performCall E f fuel) f frame.returnTo frame.isEntry

end Exec

end ScriptMachine
