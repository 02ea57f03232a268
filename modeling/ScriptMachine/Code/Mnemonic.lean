import ScriptMachine.Code.Emission

namespace ScriptMachine.Mnemonic

def numbered : List (String × Opcode) := [
  ("pop", .pop), ("copy", .copy), ("ret", .ret), ("mktuple", .makeTuple), ("incr", .increment),
  ("tonum", .toNumber), ("exptuple", .expandTuple)]

def plain : List (String × Opcode) := [
  ("tinitn", .initPair), ("scalar", .scalar), ("iterprep", .prepareIterator),
  ("iterupd", .updateIterator)]

def flagged : List (String × Opcode) := [("newtable", .newTable), ("tiniti", .initNext)]

def worded : List (String × (String → Instruction)) := [
  ("nop", .nop), ("debug", .debug), ("invalid", .invalid)]

def blocks : List (String × (Block → Instruction)) := [
  ("enter", .enter), ("leave", .leave), ("exit", .exit), ("clean", .clean)]

def indexing : String → Indexing
  | "n" => .named
  | "l" => .list
  | _ => .plain

end ScriptMachine.Mnemonic
