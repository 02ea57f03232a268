import ScriptMachine.Fault.Basic

namespace ScriptMachine

structure Options where
  checkThreadAccess : Bool := true
  /-- Stack depth, in calls or values, past which calls in tail position reuse their frame. -/
  tailCallThreshold : Nat := 65536
  maxCallDepth : Nat := 131072
  defaultBudget : Nat := 0
  registerLibrary : Bool := true
deriving DecidableEq, Repr

namespace Options

def leastCallDepth : Nat := 16

def setTailCallThreshold (o : Options) (n : Nat) : Except Fault Options :=
  if n = 0 then
    throw (.configuration "tail_call_optimization_threshold must be at least 1")
  else return { o with tailCallThreshold := n }

def setMaxCallDepth (o : Options) (n : Nat) : Except Fault Options :=
  if n < leastCallDepth then
    throw (.configuration ("max_call_depth must be at least " ++ toString leastCallDepth))
  else return { o with maxCallDepth := n }

/-- Accepts the settings if each of them is in range; the threshold is looked at first. -/
def validate (o : Options) : Except Fault Options := do
  let o ← o.setTailCallThreshold o.tailCallThreshold
  o.setMaxCallDepth o.maxCallDepth

end Options

end ScriptMachine
