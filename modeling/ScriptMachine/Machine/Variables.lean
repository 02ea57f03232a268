import ScriptMachine.Machine.Closing

namespace ScriptMachine.Exec

def symbolOf (i : Instruction) : Exec Symbol :=
  match i.symbol with
  | some s => return s
  | none => internal (i.op.name ++ " without a symbol")

def noUpvalue {α : Type} (s : Symbol) : Exec α := internal ("no upvalue for " ++ s.text)

def loadLocal (f : FiberId) (i : Instruction) : Exec Unit := do
  let s ← symbolOf i
  let frame ← topFrame f
  let v ← read fun m => frame.localValue m.heap s.index
  push f v

def loadUpvalue (f : FiberId) (i : Instruction) : Exec Unit := do
  let s ← symbolOf i
  match (← topFrame f).upvalues[s.index]? with
  | some cell => push f (← readCell cell)
  | none => noUpvalue s

/-- The part of a value that a store takes: an item of a tuple, or the value itself as the only
item. -/
def storedItem (v : Value) (item : Nat) : Value :=
  match v with
  | .tuple items => ((items[item]?).getD .nil).toScalar
  | v => if item = 0 then v.toScalar else .nil

def storedValue (f : FiberId) (i : Instruction) : Exec Value :=
  return storedItem (← peek f i.count) i.count2

/-- The cell of a local of the top frame, a new one if the slot is empty. -/
def localCell (f : FiberId) (index : Nat) : Exec CellId := do
  modifyFrame f fun frame => frame.reserve index
  match (← topFrame f).local? index with
  | some cell => return cell
  | none =>
    let cell ← newCell .nil
    modifyFrame f fun frame => frame.setLocal index (some cell)
    return cell

/-- What has to hold, and to be closed, before a to-be-closed local gets a new value. -/
def prepareToBeClosed (E : Engine) (f : FiberId) (s : Symbol) (v : Value) : Exec Unit := do
  if v.isTruthy && (← metamethod? v "__close").isNone then complain (.notClosable s.name)
  let frame ← topFrame f
  let previous ← read fun m => frame.localValue m.heap s.index
  if previous.isTruthy && !previous.rawEquals v then closeValue E s previous .nil

def assignLocal (E : Engine) (f : FiberId) (s : Symbol) (v : Value) : Exec Unit := do
  if s.isToBeClosed then prepareToBeClosed E f s v
  discard (topFrame f)
  writeCell (← localCell f s.index) v
  if s.isToBeClosed then modifyFrame f fun frame => frame.addPending [s.index]

def storeLocal (E : Engine) (f : FiberId) (i : Instruction) : Exec Unit := do
  let s ← symbolOf i
  assignLocal E f s (← storedValue f i)

def storeUpvalue (f : FiberId) (i : Instruction) : Exec Unit := do
  let s ← symbolOf i
  let v ← storedValue f i
  match (← topFrame f).upvalues[s.index]? with
  | some cell => writeCell cell v
  | none => noUpvalue s

def stackedArguments (f : FiberId) : Exec (List Value) := do
  let base := (← topFrame f).base
  match ← readFiber f fun b => if base = 0 then none else b.values[base - 1]? with
  | some (.number x) =>
    let argc := countOf x
    if argc < base then
      readFiber f fun b => (b.values.extract (base - 1 - argc) (base - 1)).toList
    else throw .crash
  | _ => internal "ARGS without an argument count"

def parameterValue (arguments : List Value) (position : Nat) (parameter : Symbol) : Value :=
  if parameter.name = variadicName then .tuple ((arguments.drop position).map Value.toScalar)
  else ((arguments[position]?).getD .nil).toScalar

def bindArguments (E : Engine) (f : FiberId) (i : Instruction) : Exec Unit := do
  let arguments := Value.spread (← stackedArguments f)
  i.symbolList.zipIdx.forM fun (s, position) =>
    assignLocal E f s (parameterValue arguments position s)

def capture (f : FiberId) : Symbol → Exec CellId
  | .localVar _ index _ _ => localCell f index
  | s@(.upvalue _ index) => do
    match (← topFrame f).upvalues[index]? with
    | some cell => return cell
    | none => noUpvalue s
  | .defaultEnvironment => do newCell (.table (← read Machine.globals))
  | s@(.global ..) => internal ("cannot capture global " ++ s.text)

def makeClosure (f : FiberId) (i : Instruction) : Exec Value := do
  discard (topFrame f)
  let cells ← i.symbolList.mapM (capture f)
  newClosure { entry := i.count, names := i.symbolList.map Symbol.name, cells := cells.toArray }

def beginFunction (f : FiberId) (i : Instruction) : Exec Unit := do
  discard (topFrame f)
  let closers := if i.number2 < 0 then [] else
    i.symbolList.filter fun s => s.isToBeClosed && (s.index : Int) ≤ i.number2.toInt
  modifyFrame f fun frame =>
    { frame with
      symbols := i.symbolList, locals := Array.replicate i.count none,
      blocks := [closers.reverse], pending := [] }.addPending (closers.map Symbol.index)

/-- Enters a block: what an earlier pass left in its slots is closed and cleared. -/
def enterBlock (E : Engine) (f : FiberId) (i : Instruction) : Exec Unit := do
  closeSymbols E f i.symbolList .nil
  discard (topFrame f)
  modifyFrame f fun frame =>
    let frame := (frame.clear i.number i.number2).addPending (i.symbolList.map Symbol.index)
    { frame with blocks := i.symbolList.reverse :: frame.blocks }

def clearSlots (f : FiberId) (i : Instruction) : Exec Unit := do
  discard (topFrame f)
  modifyFrame f fun frame => frame.clear i.number i.number2

def leaveBlock (E : Engine) (f : FiberId) (fuel : Nat) (i : Instruction) : Exec Unit := do
  closeBlock E f .nil fuel
  clearSlots f i

def cleanSlots (E : Engine) (f : FiberId) (i : Instruction) : Exec Unit := do
  closeSymbols E f i.symbolList .nil
  clearSlots f i

end ScriptMachine.Exec
