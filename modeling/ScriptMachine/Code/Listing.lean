import ScriptMachine.Code.Basic

namespace ScriptMachine.Code

def headerText (i : Instruction) : String :=
  let kind := if i.number2 = 0 then "chunk" else if i.number2 = 1 then "function" else "?"
  "== " ++ i.name.getD "<?>" ++ " ==  (" ++ kind ++ ", " ++ toString i.number.toInt ++
    " instructions)\n"

def instructionText (h : Heap) (last : Option Location) (ip : Nat) (i : Instruction) :
    String × Option Location :=
  let header := if i.op = .preamble then headerText i else ""
  let line := Instruction.addressText ip ++ "  " ++ i.text h ++ "\n"
  match i.location with
  | some l =>
    if last = some l then (header ++ line, last)
    else (header ++ "          ; " ++ l.text ++ "\n" ++ line, some l)
  | none => (header ++ line, last)

def listing (h : Heap) (c : Code) (start stop : Nat) : String :=
  ((c.instructions.toList.zipIdx.take stop).drop start).foldl
    (fun (acc : String × Option Location) (i, ip) =>
      let (t, last) := instructionText h acc.2 ip i
      (acc.1 ++ t, last)) ("", none) |>.1

end ScriptMachine.Code
