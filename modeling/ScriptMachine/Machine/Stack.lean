import ScriptMachine.Machine.Exec

namespace ScriptMachine.Exec

def underflow {α : Type} : Exec α := internal "value stack underflow"

def push (f : FiberId) (v : Value) : Exec Unit :=
  modifyFiber f fun b => { b with values := b.values.push v }

def pushAll (f : FiberId) (vs : List Value) : Exec Unit :=
  modifyFiber f fun b => { b with values := b.values.appendList vs }

def height (f : FiberId) : Exec Nat := readFiber f fun b => b.values.size

def truncate (f : FiberId) (n : Nat) : Exec Unit :=
  modifyFiber f fun b => { b with values := b.values.shrink n }

def pop (f : FiberId) : Exec Value := do
  match ← readFiber f fun b => b.values.back? with
  | none => underflow
  | some v =>
    modifyFiber f fun b => { b with values := b.values.pop }
    return v

def peek (f : FiberId) (depth : Nat) : Exec Value := do
  let size ← height f
  if depth < size then readFiber f fun b => b.values.getD (size - 1 - depth) .nil
  else internal ("value stack peek(" ++ toString depth ++ ") past the bottom")

def poke (f : FiberId) (depth : Nat) (v : Value) : Exec Unit := do
  let _ ← peek f depth
  modifyFiber f fun b =>
    { b with values := b.values.setIfInBounds (b.values.size - 1 - depth) v }

def drop (f : FiberId) (n : Nat) : Exec Unit := do
  let size ← height f
  if size < n then underflow else truncate f (size - n)

def popMany (f : FiberId) (n : Nat) : Exec (List Value) := do
  let size ← height f
  if size < n then underflow
  else
    let taken ← readFiber f fun b => (b.values.extract (size - n) size).toList
    truncate f (size - n)
    return taken

def topFrame (f : FiberId) : Exec Frame := do
  match ← readFiber f fun b => b.frames.back? with
  | some frame => return frame
  | none => internal "call stack is empty"

def modifyFrame (f : FiberId) (g : Frame → Frame) : Exec Unit :=
  modifyFiber f fun b => { b with frames := b.frames.modify (b.frames.size - 1) g }

def pushFrame (f : FiberId) (frame : Frame) : Exec Unit :=
  modifyFiber f fun b => { b with frames := b.frames.push frame }

def popFrame (f : FiberId) : Exec Frame := do
  let frame ← topFrame f
  modifyFiber f fun b =>
    { b with frames := b.frames.pop, values := b.values.shrink frame.base }
  return frame

def countLimit : Nat := UInt64.size

def countOf (x : Number) : Nat :=
  match x.binary? with
  | some b => if b.negative then 0 else b.whole
  | none => if 0 < x then countLimit else 0

/-- Pops the argument count below a script frame, the arguments and the callee. -/
def popArguments (f : FiberId) : Exec Unit := do
  match ← pop f with
  | .number x =>
    if 0 ≤ x then
      if countOf x < countLimit then drop f (countOf x + 1) else throw .crash
    else internal "expected an argument count on the stack, found number"
  | v => internal ("expected an argument count on the stack, found " ++ v.typeName)

end ScriptMachine.Exec
