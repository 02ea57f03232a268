import ScriptMachine.Code.Emission

namespace ScriptMachine

inductive Directive where
  | emit (instructions : List Instruction)
  | load (s : Symbol)
  | store (s : Symbol) (offset item : Int32)
  | raw (i : Instruction)
  | jumpTo (op : Opcode) (label : String)
  | label (name : String)
  | finish (ip : Nat)
  | patch (ip target : Nat)
  | source (l : Option Location) (body : List Directive)

/-- The result of assembling lines: an answer per line, the addresses of the labels and the jumps
that still wait for theirs, in order. -/
structure Assembly where
  code : Code
  answers : Array (Except Fault (Option Nat)) := #[]
  labels : List (String × Nat) := []
  waiting : Array (Nat × String) := #[]

namespace Assembly

def answer (a : Assembly) (n : Option Nat) (code : Code) : Assembly :=
  { a with code, answers := a.answers.push (.ok n) }

def answerResult (a : Assembly) (r : Except Fault (Option Nat × Code)) : Assembly :=
  match r with
  | .ok (n, code) => a.answer n code
  | .error f => { a with answers := a.answers.push (.error f) }

mutual

def line (a : Assembly) : Directive → Assembly
  | .emit is => a.answer a.code.size (a.code.emitAll is)
  | .load s => a.answerResult ((a.code.emitLoad s).map fun (n, c) => (some n, c))
  | .store s offset item =>
    a.answerResult ((a.code.emitStore s offset item).map fun (n, c) => (some n, c))
  | .raw i => a.answer a.code.size (a.code.append i)
  | .jumpTo op label =>
    { a with waiting := a.waiting.push (a.code.size, label) }.answer a.code.size
      (a.code.emit (.numbered op (-1)))
  | .label name => { a with labels := (name, a.code.size) :: a.labels }.answer none a.code
  | .finish ip => a.answerResult ((a.code.finishFunction ip).map (none, ·))
  | .patch ip target => a.answerResult ((a.code.setTarget ip (Int32.ofNat target)).map (none, ·))
  | .source l body =>
    let outer := a.code.current
    let a := lines { a with code := { a.code with current := l } } body
    { a with code := { a.code with current := outer } }

def lines (a : Assembly) : List Directive → Assembly
  | [] => a
  | d :: ds => lines (line a d) ds

end

def link (a : Assembly) : Code × List Fault :=
  a.waiting.foldl (fun (code, faults) (ip, label) =>
    match a.labels.lookup label with
    | none => (code, faults ++ [.internal ("unknown label " ++ label)])
    | some target =>
      match code.setTarget ip (Int32.ofNat target) with
      | .ok code => (code, faults)
      | .error f => (code, faults ++ [f])) (a.code, [])

def faults (a : Assembly) : List Fault :=
  a.answers.toList.filterMap fun
    | .error f => some f
    | .ok _ => none

end Assembly

structure Assembled where
  code : Code
  answers : List (Except Fault (Option Nat))
  faults : List Fault

def Code.assemble (c : Code) (body : List Directive) : Assembled :=
  let a := Assembly.lines { code := c } body
  let (code, late) := a.link
  ⟨code, a.answers.toList, a.faults ++ late⟩

structure FunctionSource where
  name : String
  locals : List Symbol
  parameters : Nat
  lastOfRoot : Int32
  body : List Directive

def Code.assembleFunction (c : Code) (f : FunctionSource) : Nat × Assembled :=
  let entry := c.size
  let start := c.emitAll [.preamble f.name false, .beginFunction f.locals f.lastOfRoot,
    .bindArguments (f.locals.take f.parameters)]
  let a := start.assemble f.body
  match a.code.finishFunction entry with
  | .ok code => (entry, { a with code })
  | .error fault => (entry, { a with faults := a.faults ++ [fault] })

end ScriptMachine
