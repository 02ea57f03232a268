import ScriptMachine.Fault.Basic

namespace ScriptMachine.Value

def toNumber (v : Value) : Except Fault Number :=
  match v.toNumber? with
  | some x => return x
  | none => throw (.invalidArgument ("cannot convert a " ++ v.typeName ++ " to a number"))

def toText (v : Value) : Except Fault String :=
  match v.toText? with
  | some s => return s
  | none => throw (.invalidArgument ("cannot convert a " ++ v.typeName ++ " to a string"))

end ScriptMachine.Value
