import ScriptMachine.Machine.Indexing

namespace ScriptMachine.Exec

def mapTop (f : FiberId) (g : Value → Exec Value) : Exec Flow := do
  let v ← peek f 0
  poke f 0 (← g v)
  return .next

def swap (f : FiberId) (a b : Nat) : Exec Flow := do
  let size ← height f
  if size ≤ a ∨ size ≤ b then internal "SWAP past the bottom of the stack"
  else
    let x ← peek f a
    let y ← peek f b
    poke f a y
    poke f b x
    return .next

def conditionalNot (f : FiberId) : Exec Flow := do
  let v := (← pop f).toScalar
  match (← pop f).toScalar with
  | .bool negated => result f (.bool (negated != v.isTruthy))
  | _ => internal "CNOT had non-bool arg"

def increment (f : FiberId) (offset : Nat) : Exec Flow := do
  let step := (← peek f offset).toNumber?
  match (← peek f 0).toNumber?, step with
  | some a, some b =>
    poke f 0 (.number (a + b))
    return .next
  | _, _ => internal "INCR on non-numbers"

def tableOnTop (f : FiberId) : Exec TableId := do
  match ← peek f 0 with
  | .table t => return t
  | _ => internal "Unexpected type in table ctor"

def initPair (f : FiberId) : Exec Flow := do
  let v := (← pop f).toScalar
  let key ← pop f
  setIndex (← tableOnTop f) key v
  return .next

def initNext (f : FiberId) (last : Bool) : Exec Flow := do
  let v ← pop f
  modifyTable (← tableOnTop f) fun t => t.fill last v
  return .next

def jumpIf (condition : Bool) (target : Nat) : Flow :=
  if condition then .transfer (.jump target) else .next

/-- Jumps and keeps the value on top if it is as true as given, else drops it. -/
def jumpOrPop (f : FiberId) (truth : Bool) (target : Nat) : Exec Flow := do
  if (← peek f 0).toScalar.isTruthy = truth then return .transfer (.jump target)
  else
    discard (pop f)
    return .next

def loopNumber (f : FiberId) (depth : Nat) : Exec Number := do
  match ← attempt (peek f depth) with
  | .ok (.number x) => return x
  | _ => internal "JFOR on non-numbers"

def jumpIfDone (f : FiberId) (target : Nat) : Exec Flow := do
  let v ← loopNumber f 0
  let step ← loopNumber f 1
  let limit ← loopNumber f 2
  return jumpIf (if 0 < step then !(v ≤ limit) else !(limit ≤ v)) target

def thenNext (x : Exec Unit) : Exec Flow := do
  x
  return .next

def execute (E : Engine) (f : FiberId) (fuel ip : Nat) (i : Instruction) : Exec Flow :=
  match i.op with
  | .nop | .debug | .preamble => return .next
  | .invalid => internal ("Invalid opcode: " ++ i.name.getD "")
  | .pop => thenNext (drop f i.count)
  | .copy => do result f (← peek f i.count)
  | .swap => swap f i.count i.count2
  | .literal =>
    match i.value with
    | some v => result f v
    | none => internal "LITERAL without a value"
  | .makeTuple => do result f (.tuple (Value.pack (← popMany f i.count)).toList)
  | .expandTuple => do thenNext (pushAll f (← peek f i.count).toList)
  | .scalar => mapTop f fun v => return v.toScalar
  | .toBool => mapTop f fun v => return .bool v.toScalar.isTruthy
  | .not => mapTop f fun v => return .bool (!v.toScalar.isTruthy)
  | .conditionalNot => conditionalNot f
  | .toNumber => mapTop f fun v =>
    match v.toNumber? with
    | some x => return .number x
    | none => complain (.ofLoopStage i.number)
  | .increment => increment f i.count
  | .closure => do result f (← makeClosure f i)
  | .newTable => do result f (← newTable)
  | .initPair => initPair f
  | .initNext => initNext f (i.number != 0)
  | .loadLocal => thenNext (loadLocal f i)
  | .loadUpvalue => thenNext (loadUpvalue f i)
  | .storeLocal => thenNext (storeLocal E f i)
  | .storeUpvalue => thenNext (storeUpvalue f i)
  | .getIndex mode => getIndex E f fuel ip mode i
  | .setIndex mode => setIndexed E f fuel ip mode i
  | .beginFunction => thenNext (beginFunction f i)
  | .bindArguments => thenNext (bindArguments E f i)
  | .enter => thenNext (enterBlock E f i)
  | .leave | .exit => thenNext (leaveBlock E f fuel i)
  | .clean => thenNext (cleanSlots E f i)
  | .call | .methodCall => do
    let setup := { CallSetup.byInstruction ip with method := i.op == .methodCall, name := i.name }
    return .transfer (← performCall E f fuel i.count setup)
  | .ret => do return .transfer (← performReturn E f fuel i ip)
  | .jump => return .transfer (.jump i.count)
  | .jumpIfFalse => do return jumpIf (!(← pop f).toScalar.isTruthy) i.count
  | .jumpIfNil => do return jumpIf (← pop f).toScalar.isVoid i.count
  | .jumpIfTrueOrPop => jumpOrPop f true i.count
  | .jumpIfFalseOrPop => jumpOrPop f false i.count
  | .jumpIfDone => jumpIfDone f i.count
  | .prepareIterator => thenNext (prepareIterator E f)
  | .updateIterator => thenNext (updateIterator f)
  | .arith op => arithmetic E f fuel ip op
  | .neg => negate E f fuel ip
  | .len => length E f fuel ip
  | .concat => concatenate E f fuel ip
  | .eq => equal E f fuel ip
  | .less => less E f fuel ip
  | .lessEq => lessEqual E f fuel ip
  | .bitwise op => bitwise E f fuel ip op
  | .bitNot => bitNot E f fuel ip

end ScriptMachine.Exec
