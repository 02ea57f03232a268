import ScriptMachine.Debug.Trace
import ScriptMachine.Machine.Exec

namespace ScriptMachine

def shownStackDepth : Nat := 32

namespace Machine

def watch (m : Machine) (f : FiberId) (name : String) : WatchItem Value :=
  let symbol := m.findSymbol f name
  match m.symbolValue f symbol with
  | .ok v => { name := some name, symbol := some symbol, value := some v }
  | .error e => { name := some name, value := some (.string e.text), isError := true }

def valueRows (m : Machine) (f : FiberId) : List (WatchItem Value) :=
  ((m.fiber f).values.toList.reverse.take shownStackDepth).zipIdx.map fun (v, i) =>
    { address := some i, value := some v }

def localRows (m : Machine) (f : FiberId) : List (WatchItem Value) :=
  match (m.fiber f).scriptFrame? with
  | none => []
  | some frame =>
    (frame.symbols.zip frame.locals.toList).map fun (s, cell) =>
      { name := some s.name, symbol := some s, value := cell.map m.heap.cell }

def threadRows (m : Machine) : List (WatchItem Value) :=
  m.active.reverse.map fun f =>
    let address := (Value.coroutine (m.fiber f).owner).address
    { address := some address, name := some ("coroutine #" ++ hexText 1 address) }

def watchRows (m : Machine) (f : FiberId) (d : Debugger) (ip : Nat) :
    WatchKind → List (WatchItem Value)
  | .callStack => m.callStack f (m.code.locationAt ip)
  | .watches => d.watches.map (m.watch f)
  | .valueStack => m.valueRows f
  | .locals => m.localRows f
  | .threads => m.threadRows

def shownRow (m : Machine) (w : WatchItem Value) : String × WatchItem Snapshot :=
  (w.text m.heap, w.map m.observe)

end Machine

namespace Exec

def modifyDebug (g : DebugState → DebugState) : Exec Unit :=
  modify fun m => { m with debug := g m.debug }

def refresh (f : FiberId) (d : Debugger) (hard : Bool) (ip : Nat) : Exec Unit := do
  WatchKind.all.forM fun kind => do
    if d.shown.contains kind then
      let rows ← read fun m => (m.watchRows f d ip kind).map m.shownRow
      emit (.watched kind rows)
  if hard then emit (.breakpoints (← read fun m => m.debug.breakpoints))

def toggleBreakpoint (p : Position) (state : Option Bool) : Exec Bool := do
  let (found, s) ← read fun m =>
    m.debug.toggleBreakpoint (m.code.breakableLocations p.source) p state
  modifyDebug fun _ => s
  return found

def resetBreakpoints (source : UInt32) (lines : List UInt32) : Exec (List UInt32) := do
  let (kept, s) ← read fun m => m.debug.resetBreakpoints (m.code.breakableLocations source) lines
  modifyDebug fun _ => s
  return kept

def perform (f : FiberId) (d : Debugger) (ip : Nat) : DebugAction → Exec Unit
  | .toggleBreakpoint p => change p none
  | .setBreakpoint p => change p (some true)
  | .clearBreakpoint p => change p (some false)
  | .resetBreakpoints source lines => do
    let _ ← resetBreakpoints source lines
    refresh f d true ip
  | .refresh => refresh f d false ip
  | .hardRefresh => refresh f d true ip
  | _ => pure ()
where
  change (p : Position) (state : Option Bool) : Exec Unit := do
    let _ ← toggleBreakpoint p state
    refresh f d true ip

def askDebugger (f : FiberId) (d : Debugger) (ip depth : Nat) (l : Option Location) :
    List DebugAction → Exec Unit
  | [] => do
    emit (.paused ip l)
    modifyDebug fun s => s.resumeBy .run ip depth l
  | action :: rest => do
    emit (.paused ip l)
    modifyDebug fun s => { s with debugger := s.debugger.map fun d => { d with actions := rest } }
    if action.resumes then modifyDebug fun s => s.resumeBy action ip depth l
    else
      perform f d ip action
      askDebugger f d ip depth l rest

def pollPause (d : Debugger) : Exec Bool := do
  modifyDebug fun s => { s with debugger := some { d with pauses := d.pauses.tail } }
  return d.pauses.headD false

/-- Pauses the program if a step is done, a breakpoint is reached or the debugger asks for it. -/
def listen (f : FiberId) (ip : Nat) (l : Option Location) (force : Bool) : Exec Unit := do
  let some d ← read fun m => m.debug.debugger | return
  let depth ← readFiber f fun b => b.frames.size
  let requested ← if force then pure true else pollPause d
  modifyDebug fun s =>
    let reached := l.any s.breakpoints.contains && s.isElsewhere l
    if requested || reached then { s with action := .codeStepIn, target := none } else s
  if ← read fun m => m.debug.keepsRunning ip depth l then modifyDebug fun s => s.follow l
  else
    refresh f d false ip
    askDebugger f d ip depth l d.actions

end Exec

end ScriptMachine
