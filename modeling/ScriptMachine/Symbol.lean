namespace ScriptMachine

def environmentName : String := "_ENV"

def variadicName : String := "..."

/-- A resolved variable. Locals and upvalues are numbered slots; a global is a field of the table
that another symbol denotes. -/
inductive Symbol where
  | localVar (name : String) (index : Nat) (constant toBeClosed : Bool)
  | upvalue (name : String) (index : Nat)
  | global (name : String) (environment : Symbol)
  | defaultEnvironment
deriving DecidableEq, Repr

namespace Symbol

def kind : Symbol → UInt8
  | localVar .. => 0
  | upvalue .. => 1
  | global .. => 2
  | defaultEnvironment => 3

def name : Symbol → String
  | localVar name .. => name
  | upvalue name _ => name
  | global name _ => name
  | defaultEnvironment => environmentName

def index : Symbol → Nat
  | localVar _ index .. => index
  | upvalue _ index => index
  | global .. | defaultEnvironment => 0

/-- The attributes of a local as bits: one for constant, two for to-be-closed. -/
def attributes : Symbol → UInt8
  | localVar _ _ constant toBeClosed => (if constant then 1 else 0) + if toBeClosed then 2 else 0
  | _ => 0

def isToBeClosed : Symbol → Bool
  | localVar _ _ _ toBeClosed => toBeClosed
  | _ => false

def environment? : Symbol → Option Symbol
  | global _ environment => some environment
  | _ => none

def localWithBits (name : String) (index : Nat) (bits : UInt8) : Symbol :=
  .localVar name index (bits &&& 1 != 0) (bits &&& 2 != 0)

def text : Symbol → String
  | localVar name index .. => name ++ " : local / " ++ toString index
  | upvalue name index => name ++ " : upvalue / " ++ toString index
  | global name environment => name ++ " : global / " ++ environment.name
  | defaultEnvironment => environmentName ++ " : default env"

end Symbol

end ScriptMachine
