import ScriptMachine.Debug.Event

namespace ScriptMachine

structure Position where
  source : UInt32
  line : UInt32
  column : UInt32
deriving DecidableEq, Repr

inductive DebugAction where
  | run
  | stepIn
  | stepOver
  | stepOut
  | codeStepIn
  | codeStepOver
  | codeStepOut
  | toggleBreakpoint (p : Position)
  | setBreakpoint (p : Position)
  | clearBreakpoint (p : Position)
  | resetBreakpoints (source : UInt32) (lines : List UInt32)
  | refresh
  | hardRefresh
  | none
deriving DecidableEq, Repr

def DebugAction.words : List (String × DebugAction) := [
  ("run", run), ("in", stepIn), ("over", stepOver), ("out", stepOut), ("bin", codeStepIn),
  ("bover", codeStepOver), ("bout", codeStepOut), ("refresh", refresh), ("hard", hardRefresh),
  ("none", none)]

def DebugAction.resumes : DebugAction → Bool
  | run | stepIn | stepOver | stepOut | codeStepIn | codeStepOver | codeStepOut => true
  | _ => false

/-- The answers of a debugger: what it does at each pause and whether it wants one before each
instruction. When they are used up it lets the program run. -/
structure Debugger where
  actions : List DebugAction := []
  pauses : List Bool := []
  watches : List String := []
  shown : List WatchKind := WatchKind.all
  lineBased : Bool := false
  pausesOnError : Bool := false

/-- The state of debugging. Breakpoints outlive the debugger that set them. -/
structure DebugState where
  debugger : Option Debugger := none
  enabled : Bool := false
  lineBased : Bool := false
  breakpoints : List Location := []
  /-- How the program was last resumed. A new debugger pauses at the first instruction. -/
  action : DebugAction := .codeStepIn
  target : Option Nat := none
  depthAtStep : Nat := 0
  lastLocation : Option Location := none

namespace DebugState

def attach (s : DebugState) (d : Debugger) : DebugState :=
  { s with
    debugger := some d, enabled := true, lineBased := d.lineBased, action := .codeStepIn,
    target := none, lastLocation := none }

def detach (s : DebugState) : DebugState := { breakpoints := s.breakpoints }

def enable (s : DebugState) (on : Bool) : DebugState :=
  { s with enabled := on && s.debugger.isSome }

def isElsewhere (s : DebugState) (l : Option Location) : Bool :=
  match l, s.lastLocation with
  | some l, some last =>
    if s.lineBased then l.source != last.source || l.fromLine != last.fromLine else l != last
  | none, some _ => false
  | l, none => l.isSome

def keepsRunning (s : DebugState) (ip depth : Nat) (l : Option Location) : Bool :=
  match s.action with
  | .run => true
  | .codeStepOver => s.target != some ip
  | .codeStepOut | .stepOut => s.depthAtStep ≤ depth
  | .stepIn => s.depthAtStep ≤ depth && (l.isNone || l == s.lastLocation)
  | .stepOver => l.isNone || l == s.lastLocation || s.depthAtStep < depth
  | _ => false

def follow (s : DebugState) (l : Option Location) : DebugState :=
  if s.action = .run ∧ s.lineBased then { s with lastLocation := l } else s

def applyBreakpoint (breakpoints : List Location) (state : Option Bool) (l : Location) :
    List Location :=
  let on := state.getD (!breakpoints.contains l)
  if on then breakpoints.insert l else breakpoints.erase l

def nearest? (p : Position) (locations : List Location) : Option Location :=
  let distances := locations.filterMap fun l =>
    (l.distance? p.source p.line p.column).map fun d => (d, l)
  (distances.foldl (fun best e =>
    match best with
    | some b => if e.1 < b.1 then some e else some b
    | none => some e) none).map Prod.snd

/-- Changes the breakpoints on the locations that contain a position, or on the nearest one. Answers
whether there is such a location. -/
def toggleBreakpoint (s : DebugState) (breakable : List Location) (p : Position)
    (state : Option Bool) : Bool × DebugState :=
  let containing := breakable.filter fun l => l.includes p.source p.line p.column
  let chosen := if containing.isEmpty then (nearest? p breakable).toList else containing
  (!chosen.isEmpty, { s with
    breakpoints := chosen.foldl (fun bs l => applyBreakpoint bs state l) s.breakpoints })

/-- Leaves breakpoints on exactly the locations that start on one of the lines. Answers the lines
that have got one. -/
def resetBreakpoints (s : DebugState) (breakable : List Location) (lines : List UInt32) :
    List UInt32 × DebugState :=
  (((breakable.map fun l => l.fromLine).filter lines.contains).eraseDups, { s with
    breakpoints := breakable.foldl
      (fun bs l => applyBreakpoint bs (some (lines.contains l.fromLine)) l) s.breakpoints })

def resumeBy (s : DebugState) (action : DebugAction) (ip depth : Nat) (l : Option Location) :
    DebugState :=
  match action with
  | .stepIn | .stepOver | .stepOut | .codeStepOut =>
    { s with action, lastLocation := l, depthAtStep := depth }
  | .codeStepIn => { s with action, target := none }
  | .codeStepOver => { s with action, target := some (ip + 1) }
  | .run => { s with action, lastLocation := l, target := none }
  | _ => s

end DebugState

end ScriptMachine
