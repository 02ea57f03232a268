import ScriptMachine.Fault.Complaint
import ScriptMachine.Location
import ScriptMachine.Value.Basic

namespace ScriptMachine

structure RuntimeError where
  message : String
  /-- The message behind the location that raised it, once that is known. -/
  decorated : Option String := none
  value : Option Value := none
  plain : Bool := false
deriving Inhabited

namespace RuntimeError

def ofComplaint (c : Complaint) : RuntimeError := { message := c.message }

def text (e : RuntimeError) : String := e.decorated.getD e.message

/-- Puts a location in front of the message. This happens once. -/
def decorate (location : Option Location) (e : RuntimeError) : RuntimeError :=
  match e.decorated, location with
  | some _, _ => e
  | none, some l =>
    if e.plain then { e with decorated := some e.message }
    else { e with decorated := some (l.text ++ ": " ++ e.message) }
  | none, none => { e with decorated := some e.message }

/-- What a protected call hands to the script: the raised value unless it was a string, whose
place the decorated message takes. -/
def toValue (e : RuntimeError) : Value :=
  match e.value with
  | none | some (.string _) => .string e.text
  | some v => v

end RuntimeError

/-- Why an operation failed. Only runtime errors are visible to scripts. -/
inductive Fault where
  | runtime (e : RuntimeError)
  /-- Code or state that well-formed input never produces. -/
  | internal (message : String)
  | invalidOperation (message : String)
  | invalidArgument (message : String)
  | chunk (message : String)
  | configuration (message : String)
deriving Inhabited

namespace Fault

def complain (c : Complaint) : Fault := .runtime (.ofComplaint c)

def text : Fault → String
  | runtime e => e.text
  | internal m => "internal error: " ++ m
  | invalidOperation m => "invalid operation: " ++ m
  | invalidArgument m => "invalid argument: " ++ m
  | chunk m => "bad binary chunk: " ++ m
  | configuration m => "invalid configuration: " ++ m

def kind : Fault → String
  | runtime _ => "runtime"
  | internal _ => "internal"
  | invalidOperation _ => "invalid_operation"
  | invalidArgument _ => "invalid_argument"
  | chunk _ => "chunk"
  | configuration _ => "config"

def ofKind (kind message : String) : Fault :=
  match kind with
  | "internal" => internal message
  | "invalid_operation" => invalidOperation message
  | "invalid_argument" => invalidArgument message
  | "chunk" => chunk message
  | "config" => configuration message
  | _ => runtime { message }

def runtime? : Fault → Option RuntimeError
  | runtime e => some e
  | _ => none

end Fault

namespace Complaint

/-- Complains about the operand that is to blame: the first one that is no number. -/
def ofArithmetic (l : Value) (r : Option Value) : Complaint :=
  match r with
  | some r => arithmetic (if l.toNumber?.isSome then r else l).typeName
  | none => arithmetic l.typeName

def ofConcatenation (l r : Value) : Complaint :=
  concatenate (if l.toText?.isSome then r else l).typeName

def ofComparison (l r : Value) : Complaint := compare l.typeName r.typeName

def ofIndexing (object key : Value) : Complaint :=
  match key with
  | .string s => index object.typeName (some s)
  | _ => index object.typeName none

def ofBitwise (v : Value) : Complaint :=
  if v.toNumber?.isSome then noInteger else bitwise v.typeName

def ofLoopStage (stage : Int32) : Complaint :=
  if stage = 1 then forInitial
  else if stage = 2 then forStep
  else if stage = 3 then forLimit
  else notANumber

end Complaint

end ScriptMachine
