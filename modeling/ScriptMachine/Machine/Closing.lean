import ScriptMachine.Machine.Request

namespace ScriptMachine.Exec

/-- Closes a value with the error that is under way. Nil and false need no closing. -/
def closeValue (E : Engine) (s : Symbol) (v error : Value) : Exec Unit := do
  if v.isTruthy then
    match ← metamethod? v "__close" with
    | some handler => discard (E (.call handler [v, error]))
    | none => complain (.notClosable s.name)

/-- Empties the slot of a variable that waits to be closed, and gives its value. -/
def takeClosable (f : FiberId) (s : Symbol) : Exec (Option Value) := do
  let frame ← topFrame f
  if s.index ∈ frame.pending then
    let v ← read fun m => frame.localValue m.heap s.index
    modifyFrame f fun frame =>
      { frame.setLocal s.index none with pending := frame.pending.erase s.index }
    return some v
  else return none

def closeSymbol (E : Engine) (f : FiberId) (s : Symbol) (error : Value) : Exec Unit := do
  match ← takeClosable f s with
  | some v => closeValue E s v error
  | none => pure ()

def closeSymbols (E : Engine) (f : FiberId) (ss : List Symbol) (error : Value) : Exec Unit :=
  ss.reverse.forM fun s => closeSymbol E f s error

/-- Closes the innermost block. Each variable is taken off the list before it is closed, so that
after a failure the others still wait. -/
def closeBlock (E : Engine) (f : FiberId) (error : Value) : Nat → Exec Unit
  | 0 => throw .exhausted
  | n + 1 => do
    match (← topFrame f).blocks with
    | [] => pure ()
    | [] :: outer => modifyFrame f fun frame => { frame with blocks := outer }
    | (s :: rest) :: outer =>
      modifyFrame f fun frame => { frame with blocks := rest :: outer }
      closeSymbol E f s error
      closeBlock E f error n

def closeBlocks (E : Engine) (f : FiberId) (error : Value) : Nat → Exec Unit
  | 0 => throw .exhausted
  | n + 1 => do
    if (← topFrame f).blocks.isEmpty then pure ()
    else
      closeBlock E f error n
      closeBlocks E f error n

end ScriptMachine.Exec
