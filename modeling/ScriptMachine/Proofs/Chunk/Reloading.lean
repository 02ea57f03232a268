import ScriptMachine.Proofs.Chunk.RoundTrip
import ScriptMachine.Proofs.Machine.Preserving
import ScriptMachine.Session

namespace ScriptMachine

namespace Chunk

variable {known : List Symbol} {base newBase length : Nat} {environment : Value} {source : UInt32}

section Moving

/-- The lengths, counts and slots of an instruction, and the distance of a code address from the
base, fit the fields that they are written to. -/
structure Writable (base : Nat) (i : Instruction) : Prop where
  distance : i.op.fields.address = true → -2 ^ 31 ≤ i.number.toInt - base
  symbol : ∀ s ∈ mentioned i, s.Fits
  count : i.op.fields.symbols = true → i.symbolList.length < 2 ^ 31
  name : i.op.fields.name = true → (i.name.getD "").utf8ByteSize < 2 ^ 32
  value : i.op.fields.value = true → ∀ s, i.value = some (.string s) → s.utf8ByteSize < 2 ^ 32

/-- What a reader asks of an instruction that moves with its function from one base to another: a
code address lies in the function, also at its new place, and environments do not nest too deep. -/
structure Movable (base newBase length : Nat) (i : Instruction) : Prop where
  address : i.op.fields.address = true → base ≤ i.number.toInt ∧
    i.number.toInt ≤ base + length ∧ i.number.toInt - base + newBase < 2 ^ 31
  depth : ∀ s ∈ mentioned i, s.depth ≤ maxEnvironmentDepth

theorem Movable.fits {i : Instruction} (h : Movable base newBase length i) (hw : Writable base i) :
    Fits base newBase length i where
  address := h.address
  symbol s hs := ⟨hw.symbol s hs, h.depth s hs⟩
  count := hw.count
  name := hw.name
  value := hw.value

theorem Writable.sized {i : Instruction} (h : Writable base i) : Sized i where
  symbol s hs := (h.symbol s hs).named
  count := h.count
  name := h.name
  value := h.value

/-- A chunk is read exactly if every instruction of its function can be moved to the new base. -/
theorem decode_encode_iff {c target : Code} {address : Nat} {hasUpvalues : Bool} {bytes : Bytes}
    {body : List Instruction} (hbase : functionAt c address = .ok base)
    (hbody : functionBody c base = .ok body) (hencode : encode c address hasUpvalues = .ok bytes)
    (hsize : base < 2 ^ 31) (hw : ∀ i ∈ body, Writable base i)
    (hcount : (symbolTable body).length < 2 ^ 31) (source : UInt32) (environment : Value) :
    (∃ r, decode bytes target source environment = .ok r) ↔
      ∀ i ∈ body, Movable base target.size (body.length - 1) i := by
  have hsymbols := forall_mem_symbolTable (P := Symbol.Fits) (fun _ _ h => h.2)
    fun i hi => (hw i hi).symbol
  rw [decode_ok_iff (decides_readFunction hbase hbody hencode hcount fun i hi => (hw i hi).sized),
    resolveAll_iff (closed_symbolTable body) hcount hsymbols]
  have hholds {i : Instruction} (hi : i ∈ body) (hused : i.op.fields.address = true) :=
    holds_iff (p := ⟨target.size, body.length - 1⟩) hsize ((hw i hi).distance hused)
  constructor
  · rintro ⟨hdepth, haddress⟩ i hi
    exact ⟨fun hused => (hholds hi hused).1 (haddress i hi hused),
      fun s hs => hdepth s (mem_symbolTable hi hs)⟩
  · intro h
    refine ⟨?_, fun i hi hused => (hholds hi hused).2 ((h i hi).address hused)⟩
    exact forall_mem_symbolTable (P := fun s => s.depth ≤ maxEnvironmentDepth)
      (fun _ _ h => (Nat.le_succ _).trans h) fun i hi => (h i hi).depth

end Moving

end Chunk

def Closure.Paired (c : Closure) : Prop := c.names.length = c.cells.size

theorem Closure.names_eq {c : Closure} (hpaired : c.Paired) (hnodup : c.names.Nodup)
    (h : c.captures ≠ .others) :
    c.names = if c.captures = .environment then [environmentName] else [] := by
  unfold captures at h ⊢
  by_cases hempty : c.cells.isEmpty = true
  · rw [if_pos hempty] at h ⊢
    rw [if_neg nofun]
    exact List.eq_nil_of_length_eq_zero (hpaired.trans (Array.isEmpty_iff_size_eq_zero.1 hempty))
  · rw [if_neg hempty] at h ⊢
    by_cases hall : c.names.all (· == environmentName) = true
    · rw [if_pos hall, if_pos rfl]
      have hone : c.names = List.replicate c.names.length environmentName :=
        List.eq_replicate_iff.2 ⟨rfl, by simpa using hall⟩
      have hpos : c.names.length ≠ 0 := fun h0 =>
        hempty (Array.isEmpty_iff_size_eq_zero.2 (hpaired.symm.trans h0))
      rw [hone, List.nodup_replicate] at hnodup
      rw [hone, show c.names.length = 1 by omega]
      rfl
    · exact absurd (if_neg hall) h

namespace Session

open Exec

theorem dump_apply (m : Machine) (id : ClosureId) : (dump (.closure id) m).1 =
    if (m.heap.closure id).captures = .others then
      .error (.fault (.invalidArgument "function has upvalues other than _ENV"))
    else (Chunk.encode m.code (m.heap.closure id).entry
      ((m.heap.closure id).captures = .environment)).mapError .fault := by
  unfold dump
  dsimp only
  rw [bind_ok (show read (fun m => m.heap.closure id) m = (.ok _, m) from rfl)]
  by_cases hothers : (m.heap.closure id).captures = .others
  · rw [if_pos hothers, if_pos hothers]
    rfl
  · rw [if_neg hothers, if_neg hothers, bind_ok (show read Machine.code m = (.ok _, m) from rfl)]
    cases Chunk.encode m.code _ _ <;> rfl

theorem encode_of_dump {m : Machine} {id : ClosureId} {bytes : Chunk.Bytes}
    (h : (dump (.closure id) m).1 = .ok bytes) : (m.heap.closure id).captures ≠ .others ∧
      Chunk.encode m.code (m.heap.closure id).entry
        ((m.heap.closure id).captures = .environment) = .ok bytes := by
  rw [dump_apply] at h
  split at h
  · cases h
  · refine ⟨‹_›, ?_⟩
    cases hencode : Chunk.encode m.code _ _ <;> rw [hencode] at h <;> cases h
    rfl

theorem exists_makeClosure (entry : Nat) (environment : Bool) (m : Machine) : ∃ id m',
    makeClosure entry environment m = (.ok (.closure id), m') ∧ (m'.heap.closure id).names =
      if environment then [environmentName] else [] := by
  cases environment with
  | true =>
    refine ⟨_, _, rfl, ?_⟩
    simp [Heap.closure]
  | false =>
    refine ⟨_, _, rfl, ?_⟩
    simp [Heap.closure]

theorem load_apply (bytes : Chunk.Bytes) (m : Machine) : load bytes m =
    match Chunk.decode bytes m.code m.nextSource (.table m.globals) with
    | .ok (loaded, code) => makeClosure loaded.entry loaded.hasUpvalues
        { m with nextSource := m.nextSource + 1, code }
    | .error e => (.error (.fault e), { m with nextSource := m.nextSource + 1 }) := by
  unfold load
  rw [bind_ok (show nextSource m = (.ok m.nextSource, { m with nextSource := m.nextSource + 1 })
    from rfl), bind_ok (show (get : Exec Machine) _ = (.ok _, _) from rfl)]
  cases Chunk.decode bytes m.code m.nextSource (.table m.globals) <;> rfl

/-- A dumped function can be loaded by exactly those machines to whose code it can be moved, and
it has the names of its variables there. -/
theorem load_dump_iff {m target : Machine} {id : ClosureId} {bytes : Chunk.Bytes} {base : Nat}
    {body : List Instruction} (hdump : (dump (.closure id) m).1 = .ok bytes)
    (hbase : Chunk.functionAt m.code (m.heap.closure id).entry = .ok base)
    (hbody : Chunk.functionBody m.code base = .ok body) (hsize : base < 2 ^ 31)
    (hwritable : ∀ i ∈ body, Chunk.Writable base i)
    (hcount : (Chunk.symbolTable body).length < 2 ^ 31)
    (hpaired : (m.heap.closure id).Paired) (hnodup : (m.heap.closure id).names.Nodup) :
    (∃ id' m', load bytes target = (.ok (.closure id'), m') ∧
      (m'.heap.closure id').names = (m.heap.closure id).names) ↔
    ∀ i ∈ body, Chunk.Movable base target.code.size (body.length - 1) i := by
  obtain ⟨hcaptures, hencode⟩ := encode_of_dump hdump
  have hiff : (∃ r, Chunk.decode bytes target.code target.nextSource (.table target.globals) = .ok r) ↔
      ∀ i ∈ body, Chunk.Movable base target.code.size (body.length - 1) i :=
    Chunk.decode_encode_iff hbase hbody hencode hsize hwritable hcount _ _
  rw [← hiff]
  constructor
  · rintro ⟨id', m', hload, -⟩
    rw [load_apply] at hload
    split at hload
    · exact ⟨_, ‹_›⟩
    · cases hload
  · intro hmovable
    rw [load_apply, Chunk.decode_of_reads (Chunk.reads_readFunction hbase hbody hencode
      (fun i hi => (hiff.1 hmovable i hi).fits (hwritable i hi)) hcount)]
    obtain ⟨id', m', hmake, hnames⟩ := exists_makeClosure _ _ _
    refine ⟨id', m', hmake, hnames.trans ?_⟩
    rw [Closure.names_eq hpaired hnodup hcaptures]
    simp

/-- A machine with two functions, of which the second one makes closures of the first. -/
def lending : Machine where
  code.instructions := #[{ op := .preamble, number := 1, name := some "lent" },
    { op := .ret, number := 0 }, { op := .preamble, number := 2, name := some "lender" },
    { op := .closure, number := 0, symbols := some [] }, { op := .ret, number := 1 }]
  heap.tables := #[{}]
  heap.cells := #[.table ⟨0⟩]
  heap.closures := #[{ entry := 0, names := [environmentName], cells := #[⟨0⟩] },
    { entry := 2, names := [environmentName], cells := #[⟨0⟩] }]

theorem writable_lending {base : Nat} (hbase : base < 2 ^ 31) :
    ∀ i ∈ lending.code.instructions.toList, Chunk.Writable base i := by
  intro i hi
  simp only [lending, List.mem_cons, List.not_mem_nil, or_false] at hi
  refine ⟨?distance, ?symbol, ?count, ?name, ?value⟩
  case distance =>
    rcases hi with rfl | rfl | rfl | rfl | rfl <;> simp [Opcode.fields]
    omega
  case name => rcases hi with rfl | rfl | rfl | rfl | rfl <;> simp [Opcode.fields] <;> decide
  all_goals
    rcases hi with rfl | rfl | rfl | rfl | rfl <;>
      simp [Chunk.mentioned, Opcode.fields, Instruction.symbolList]

theorem load_dump_lent : ∃ bytes, (dump (.closure ⟨0⟩) lending).1 = .ok bytes ∧
    (∀ i ∈ lending.code.instructions.toList.take 2, Chunk.Movable 0 5 1 i) ∧
    ∃ id m, load bytes lending = (.ok (.closure id), m) ∧
      (m.heap.closure id).names = [environmentName] := by
  obtain ⟨bytes, hbytes⟩ : ∃ bytes, Chunk.encode lending.code 0 true = .ok bytes := ⟨_, rfl⟩
  have hdump : (dump (.closure ⟨0⟩) lending).1 = .ok bytes := by
    rw [dump_apply]
    exact congrArg (Except.mapError Stop.fault) hbytes
  have hmovable : ∀ i ∈ lending.code.instructions.toList.take 2, Chunk.Movable 0 5 1 i := by
    intro i hi
    simp only [lending, List.take, List.mem_cons, List.not_mem_nil, or_false] at hi
    rcases hi with rfl | rfl <;> constructor <;>
      simp [Chunk.mentioned, Opcode.fields, Instruction.symbolList]
  have hbody : Chunk.functionBody lending.code 0 =
      .ok (lending.code.instructions.toList.take 2) := rfl
  exact ⟨bytes, hdump, hmovable, (load_dump_iff hdump rfl hbody (by decide)
    (fun i hi => writable_lending (by decide) i (List.mem_of_mem_take hi)) (by decide) rfl
    (by decide)).2 hmovable⟩

/-- The function that refers to the other one can be dumped, but it cannot be loaded anywhere. -/
theorem load_lending : ∃ bytes, (dump (.closure ⟨1⟩) lending).1 = .ok bytes ∧
    ∀ target id, (load bytes target).1 ≠ .ok (.closure id) := by
  obtain ⟨bytes, hbytes⟩ : ∃ bytes, Chunk.encode lending.code 2 true = .ok bytes := ⟨_, rfl⟩
  refine ⟨bytes, ?_, fun target id hload => ?_⟩
  · rw [dump_apply]
    exact congrArg (Except.mapError Stop.fault) hbytes
  · have hbody : Chunk.functionBody lending.code 2 =
        .ok (lending.code.instructions.toList.drop 2) := rfl
    rw [load_apply] at hload
    split at hload
    · have hmovable := (Chunk.decode_encode_iff rfl hbody hbytes (by decide)
        (fun i hi => writable_lending (by decide) i (List.mem_of_mem_drop hi)) (by decide) _ _).1
          ⟨_, ‹_›⟩
      have haddress := ((hmovable _ (.tail _ (.head _))).address rfl).1
      exact absurd haddress (by decide)
    · cases hload

end Session

end ScriptMachine
