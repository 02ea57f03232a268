import ScriptMachine.Arguments
import ScriptMachine.Machine.Unwinding

namespace ScriptMachine.Library

open Exec

/-- A request for a call whose result gets true in front, and which an error replaces by false
and the error. -/
def guardedCall (name : String) (function : Value) (arguments : List Value)
    (handler : Option Value) : Exec Value := do
  let continuation ← newBuiltin name (.withStatus true)
  let onError ← newBuiltin name (.withStatus false)
  newTailCall {
    function, arguments
    handlers := { continuation := some continuation, onError := some onError,
                  beforeUnwind := handler } }

/-- Runs a native function under protection. Its own requests are passed on only if they can be
guarded. -/
def protectNative (E : Engine) (site : CallSite) (name : String) (f : NativeId)
    (arguments : List Value) (handler : Option Value) : Exec Value := do
  match ← E (.invoke f site arguments false) with
  | .tailCall id =>
    let request ← read fun m => m.heap.tailCall id
    if request.handlers.continuation.isSome || request.handlers.onError.isSome then
      complain (.notCallableDirectly name)
    else guardedCall name request.function request.arguments handler
  | .yieldRequest _ _ => complain (.notCallableDirectly name)
  | v => return .pack [.bool true, v]

def caught (E : Engine) (site : CallSite) (handler : Option Value) (e : RuntimeError) :
    Exec Value := do
  let e := e.decorate site.location
  let e ← match handler with
    | some h => handledError E h e
    | none => pure e
  return .tuple [.bool false, e.toValue]

def protectedCall (E : Engine) (site : CallSite) (name : String) (function : Value)
    (arguments : List Value) (handler : Option Value) : Exec Value :=
  match function with
  | .native f => do
    match ← attempt (protectNative E site name f arguments handler) with
    | .error (.fault (.runtime e)) => caught E site handler e
    | r => finish r
  | .closure _ => guardedCall name function arguments handler
  | _ => return .tuple [.bool false, .string ("attempt to " ++ name ++ " a non-function")]

def pcall (E : Engine) (site : CallSite) (a : Arguments) : Exec Value :=
  protectedCall E site "pcall" (a.get 0) (a.skip 1) none

def xpcall (E : Engine) (site : CallSite) (a : Arguments) : Exec Value := do
  let handler := a.get 1
  if !handler.isNil && !handler.isCallable then
    complain (.badArgument 2 "xpcall" "function or nil expected")
  protectedCall E site "xpcall" (a.get 0) (a.skip 2) (if handler.isNil then none else some handler)

def errorLevel (a : Arguments) : Exec Int64 := do
  match a.get 1 with
  | .nil => return 1
  | v =>
    match v.toInteger? with
    | some n => return n
    | none => complain (.badArgument 2 "error" "number expected")

/-- Raises its first argument. Only strings get a location, and only at a positive level. -/
def error (site : CallSite) (a : Arguments) : Exec Value := do
  let level ← errorLevel a
  let e ← read fun m => m.heap.raise (a.get 0)
  match a.get 0 with
  | .string _ =>
    if 0 < level then
      let location ← read fun m =>
        m.locationAtLevel site.fiber site.location level.toInt.toNat
      fail (.runtime (e.decorate location))
    else fail (.runtime { e with plain := true })
  | _ => fail (.runtime { e with plain := true })

def assert (a : Arguments) : Exec Value := do
  if (a.get 0).isTruthy then return .pack a.values
  match a.get 1 with
  | .nil => complain .assertion
  | message => raise message

def withStatus (ok : Bool) (a : Arguments) : Value := .tuple (.bool ok :: a.values)

end ScriptMachine.Library
