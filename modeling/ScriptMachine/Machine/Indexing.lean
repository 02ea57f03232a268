import ScriptMachine.Machine.Operators
import ScriptMachine.Machine.Variables

namespace ScriptMachine

def maxMetaHops : Nat := 100

namespace Exec

def popObjectAndKey (f : FiberId) (i : Instruction) : Exec (Value × Value) := do
  let key ← match i.value with
    | some v => pure v
    | none => pop f
  let object ← pop f
  return (object.toScalar, key.toScalar)

inductive Access where
  | here
  | via (handler : Value)

/-- One step of an access to an object. It ends at a table that holds the key, or has no
handler. -/
def accessStep (object key : Value) (mode : Indexing) (event : String) : Exec Access := do
  let handler ← metamethod? object event
  match object, handler with
  | .table t, handler =>
    if mode ≠ .list && !((← table t).get key).isNil then return .here
    match handler with
    | some h => return .via h
    | none => if mode = .list then complain .multiIndexTable else return .here
  | _, some h => return .via h
  | _, none => complain (.ofIndexing object key)

section

variable (E : Engine) (f : FiberId) (fuel ip : Nat) (mode : Indexing)

def readThrough (key : Value) : Nat → Value → Exec Flow
  | 0, _ => complain .loopInGet
  | hops + 1, object => do
    match ← accessStep object key mode "__index", object with
    | .here, .table t => result f ((← table t).get key)
    | .here, _ => complain (.ofIndexing object key)
    | .via handler, _ =>
      if handler.isCallable then
        if mode = .list then complain .multiIndexMetamethod
        callHandler E f fuel ip handler [object, key]
      else readThrough key hops handler

/-- Writes a key of an object. The result of a handler takes the place of the value on top of
the stack. -/
def writeThrough (key v : Value) : Nat → Value → Exec Flow
  | 0, _ => complain .loopInSet
  | hops + 1, object => do
    match ← accessStep object key mode "__newindex", object with
    | .here, .table t =>
      setIndex t key v
      return .next
    | .here, _ => complain (.ofIndexing object key)
    | .via handler, _ =>
      if handler.isCallable then
        if mode = .list then complain .multiIndexMetamethod
        discard (pop f)
        callHandler E f fuel ip handler [object, key, v]
      else writeThrough key v hops handler

def getIndex (i : Instruction) : Exec Flow := do
  let (object, key) ← popObjectAndKey f i
  readThrough E f fuel ip mode key maxMetaHops object

def setIndexed (i : Instruction) : Exec Flow := do
  let (object, key) ← popObjectAndKey f i
  let v ← storedValue f i
  writeThrough E f fuel ip mode key v maxMetaHops object

end

def triple (items : List Value) : List Value := (items ++ List.replicate 3 Value.nil).take 3

/-- Makes the values of a generic loop from what its list gave: an object with an iterator
supplies its own, a plain table is traversed. -/
def prepareIterator (E : Engine) (f : FiberId) : Exec Unit := do
  let items := triple (← pop f).toList
  let subject := items.headD .nil
  if subject.isCallable then push f (.tuple items)
  else
    match ← metamethod? subject "__iterator", subject with
    | some (.tuple produced), _ => push f (.tuple (triple produced))
    | some iterator, _ => push f (.tuple (triple (← E (.call iterator items)).toList))
    | none, .table _ =>
      if (← metamethod? subject "__call").isNone then
        let next ← newBuiltin "next" .next
        push f (.tuple [.native next, subject, .nil])
      else push f (.tuple items)
    | none, _ => push f (.tuple items)

def updateIterator (f : FiberId) : Exec Unit := do
  let v := (← peek f 0).toScalar
  let items := triple (← peek f 1).toList
  poke f 1 (.tuple (items.set 2 v))

end Exec

end ScriptMachine
