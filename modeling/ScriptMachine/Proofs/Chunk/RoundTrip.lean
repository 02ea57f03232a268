import ScriptMachine.Proofs.Chunk.Symbols

namespace ScriptMachine

open Instruction

theorem Opcode.ofByte?_byte (op : Opcode) : ofByte? op.byte = some op := by
  cases op with
  | setIndex mode => cases mode <;> rfl
  | getIndex mode => cases mode <;> rfl
  | arith op => cases op <;> rfl
  | bitwise op => cases op <;> rfl
  | _ => rfl

namespace Chunk

variable {known : List Symbol} {base newBase length address n : Nat} {environment : Value}
  {source : UInt32} {body : List Instruction} {bytes : Bytes} {i : Instruction} {c target : Code}
  {hasUpvalues : Bool} {p : Placement}

/-- A constant as it is read back: a table stands for the environment. -/
def constant (environment : Value) : Value → Value
  | .table _ => environment
  | v => v

/-- An instruction as it is read back. Addresses move with the function from one base to another,
fields that the operation does not read are dropped, and so is an empty name. -/
def relocated (base newBase : Nat) (environment : Value) (source : UInt32) (i : Instruction) :
    Instruction where
  op := i.op
  number :=
    if i.op.fields.address then .ofInt (i.number.toInt - base + newBase)
    else if i.op.fields.number then i.number else 0
  number2 := if i.op.fields.number2 then i.number2 else 0
  value := if i.op.fields.value then i.value.map (constant environment) else none
  symbol := if i.op.fields.symbol then i.symbol else none
  symbols := if i.op.fields.symbols then i.symbols else none
  name := if i.op.fields.name then i.name.filter (!·.isEmpty) else none
  location := some (.synthetic source)

/-- What an instruction of a function has to keep to for a chunk to hold it: addresses lie in the
function, at its old and at its new place, and lengths, counts and slots fit their fields. -/
structure Fits (base newBase length : Nat) (i : Instruction) : Prop where
  address : i.op.fields.address = true → base ≤ i.number.toInt ∧
    i.number.toInt ≤ base + length ∧ i.number.toInt - base + newBase < 2 ^ 31
  symbol : ∀ s ∈ mentioned i, s.Fits ∧ s.depth ≤ maxEnvironmentDepth
  count : i.op.fields.symbols = true → i.symbolList.length < 2 ^ 31
  name : i.op.fields.name = true → (i.name.getD "").utf8ByteSize < 2 ^ 32
  value : i.op.fields.value = true → ∀ s, i.value = some (.string s) → s.utf8ByteSize < 2 ^ 32

def reloaded (base newBase : Nat) (environment : Value) (source : UInt32) (i : Instruction) :
    Instruction :=
  { relocated base newBase environment source i with
    number :=
      if i.op.fields.address then .ofNat newBase + (i.number - .ofNat base)
      else if i.op.fields.number then i.number else 0
    symbol := if i.op.fields.symbol then i.symbol.map Symbol.narrow else none
    symbols := if i.op.fields.symbols then i.symbols.map (·.map Symbol.narrow) else none }

/-- The lengths and counts of an instruction fit the fields that they are written to. -/
structure Sized (i : Instruction) : Prop where
  symbol : ∀ s ∈ mentioned i, s.Named
  count : i.op.fields.symbols = true → i.symbolList.length < 2 ^ 31
  name : i.op.fields.name = true → (i.name.getD "").utf8ByteSize < 2 ^ 32
  value : i.op.fields.value = true → ∀ s, i.value = some (.string s) → s.utf8ByteSize < 2 ^ 32

theorem reads_readValue? {v : Option Value} (h : writeValue v = .ok bytes)
    (hs : ∀ s, v = some (.string s) → s.utf8ByteSize < 2 ^ 32) :
    Reads (readValue? environment) bytes (v.map (constant environment)) := by
  unfold readValue?
  cases v with
  | none =>
    cases h
    exact (reads_readByte 0).bind_nil (Reads.pure none)
  | some v =>
    cases v with
    | nil =>
      cases h
      exact (reads_readByte 1).bind ((reads_readByte 0).bind_nil (Reads.pure _))
    | bool b =>
      cases h
      refine (reads_readByte 1).bind ((reads_readByte 1).bind ((reads_readByte _).bind_nil ?_))
      cases b <;> exact Reads.pure _
    | number x =>
      cases h
      refine (reads_readByte 1).bind ((reads_readByte 2).bind
        ((reads_readNat x.bits.toNat_lt).bind_nil ?_))
      rw [Nat.toUInt64_eq, UInt64.ofNat_toNat]
      exact Reads.pure _
    | string s =>
      cases h
      exact (reads_readByte 1).bind ((reads_readByte 3).bind
        ((reads_readString (hs s rfl)).bind_nil (Reads.pure _)))
    | table id =>
      cases h
      exact (reads_readByte 1).bind ((reads_readByte 4).bind_nil (Reads.pure _))
    | _ => cases h

theorem reads_readName? {name : Option String} (h : (name.getD "").utf8ByteSize < 2 ^ 32) :
    Reads readName? (writeString (name.getD "")) (name.filter (!·.isEmpty)) := by
  refine (reads_readString h).bind_nil ?_
  cases name with
  | none => exact Reads.pure none
  | some s =>
    rw [Option.getD_some, Option.filter_some]
    cases s.isEmpty <;> exact Reads.pure _

/-- The address that lies this far from a base is in the function that is placed there. -/
def Placement.Holds (p : Placement) (relative : Int32) : Prop :=
  0 ≤ relative.toInt ∧ relative.toInt ≤ p.length ∧ relative.toInt + p.base < 2 ^ 31

theorem decides_placement (p : Placement) (relative : Int32) :
    Decides (p.Holds relative) (p.resolve relative) [] (.ofNat p.base + relative) := by
  have hmax : Int32.maxValue.toInt.toNat = 2 ^ 31 - 1 := by decide
  have hlt := relative.toInt_lt
  unfold Placement.resolve Placement.Holds
  split
  · rename_i hoffset
    rw [hoffset]
    exact ⟨fun h => ((Int.negSucc_not_nonneg _).1 h.1).elim, fun _ => .bad _⟩
  · rename_i offset hoffset
    have hoffset : relative.toInt = offset := hoffset
    rw [hoffset] at hlt ⊢
    have hrelative : relative = .ofNat offset := by
      rw [← Int32.toInt_inj, hoffset, Int32.toInt_ofNat_of_lt (Int.ofNat_lt.1 hlt)]
    split
    · exact ⟨fun h => by omega, fun _ => .bad _⟩
    · split
      · rw [hrelative, ← Int32.ofNat_add]
        exact (Reads.pure _).decides (by omega)
      · exact ⟨fun h => by omega, fun _ => .bad _⟩

theorem reads_ifUsed {α : Type} {used : Bool} {absent a : α} {item : Reader α}
    (h : used = true → Reads item bytes a) :
    Reads (ifUsed used absent item) (when used bytes) (if used then a else absent) := by
  cases used with
  | true => exact h rfl
  | false => exact Reads.pure absent

/-- The bytes of an instruction, given those of its constant. -/
def layout (known : List Symbol) (base : Nat) (i : Instruction) (value : Bytes) : Bytes :=
  [i.op.byte] ++ ((when i.op.fields.address (writeInt (i.number - .ofNat base)) ++
    when i.op.fields.number (writeInt i.number)) ++
    (when i.op.fields.number2 (writeInt i.number2) ++
    (when i.op.fields.name (writeString (i.name.getD "")) ++
    (when i.op.fields.value value ++
    (when i.op.fields.symbol (writeInt (symbolNumber known i.symbol)) ++
    when i.op.fields.symbols (writeSymbols known i.symbols))))))

theorem exists_layout (h : writeInstruction known base i = .ok bytes) : ∃ value,
      (i.op.fields.value = true → writeValue i.value = .ok value) ∧
        bytes = layout known base i value := by
  unfold writeInstruction at h
  cases hused : i.op.fields.value with
  | false =>
    refine ⟨[], nofun, ?_⟩
    simp only [hused] at h
    cases h
    simp [layout, hused, when]
  | true =>
    simp only [hused, if_true] at h
    cases hv : writeValue i.value with
    | error e => rw [hv] at h; cases h
    | ok value =>
      rw [hv] at h
      refine ⟨value, fun _ => rfl, ?_⟩
      cases h
      simp [layout, hused, when]

def readNumber (p : Placement) (fields : Fields) : Reader Int32 :=
  if fields.address then readInt >>= p.resolve else ifUsed fields.number 0 readInt

theorem number_of_address {op : Opcode} (h : op.fields.address = true) :
    op.fields.number = false := by
  cases op <;> first | rfl | cases h

variable (environment source) in
theorem decides_readNumber (p : Placement) (i : Instruction) :
    Decides (i.op.fields.address = true → p.Holds (i.number - .ofNat base))
      (readNumber p i.op.fields)
      (when i.op.fields.address (writeInt (i.number - .ofNat base)) ++
        when i.op.fields.number (writeInt i.number))
      (reloaded base p.base environment source i).number := by
  simp only [readNumber, reloaded]
  cases haddress : i.op.fields.address with
  | true =>
    rw [number_of_address haddress]
    simp only [when, if_true, Bool.false_eq_true, if_false, forall_const]
    exact .after (reads_readInt _) (decides_placement p _)
  | false => exact (reads_ifUsed fun _ => reads_readInt _).decides nofun

theorem readInstruction_eq (p : Placement) (environment : Value) (symbols : Array Symbol)
    (location : Location) : readInstruction p environment symbols location = (do
      let byte ← readByte
      match Opcode.ofByte? byte with
      | none => bad ("unknown opcode: " ++ toString byte.toNat)
      | some op =>
        let number ← readNumber p op.fields
        let number2 ← ifUsed op.fields.number2 0 readInt
        let name ← ifUsed op.fields.name none readName?
        let value ← ifUsed op.fields.value none (readValue? environment)
        let symbol ← ifUsed op.fields.symbol none (readSymbol? symbols)
        let symbolList ← ifUsed op.fields.symbols none (readSymbols? symbols)
        return { op, number, number2, value, symbol, symbols := symbolList, name,
                 location := some location }) := by
  unfold readInstruction readNumber
  refine bind_congr fun byte => ?_
  cases Opcode.ofByte? byte with
  | none => rfl
  | some op =>
    dsimp only
    split
    · rw [bind_assoc]
    · rfl

theorem decides_readInstruction (hlen : known.length < 2 ^ 31)
    (hknown : ∀ s ∈ mentioned i, s ∈ known) (hsized : Sized i)
    (h : writeInstruction known base i = .ok bytes) :
    Decides (i.op.fields.address = true → p.Holds (i.number - .ofNat base))
      (readInstruction p environment (known.map Symbol.narrow).toArray (.synthetic source)) bytes
      (reloaded base p.base environment source i) := by
  obtain ⟨value, hvalue, rfl⟩ := exists_layout h
  obtain ⟨hsymbol, hsymbols⟩ := forall_mentioned hknown
  rw [readInstruction_eq]
  refine .after (reads_readByte _) ?_
  rw [Opcode.ofByte?_byte]
  refine (decides_readNumber environment source p i).before ?_
  refine (reads_ifUsed fun _ => reads_readInt _).bind ?_
  refine (reads_ifUsed fun hused => reads_readName? (hsized.name hused)).bind ?_
  refine (reads_ifUsed fun hused => reads_readValue? (hvalue hused) (hsized.value hused)).bind ?_
  refine (reads_ifUsed fun _ => reads_readSymbol? hsymbol hlen).bind ?_
  exact (reads_ifUsed fun hused => reads_readSymbols? hsymbols (hsized.count hused) hlen).map _

theorem reads_header (flag : UInt8) :
    Reads readHeader (littleEndian 8 magic ++ (writeInt version ++ [flag])) (flag != 0) := by
  have hmagic := reads_readBytes (littleEndian 8 magic)
  rw [length_littleEndian] at hmagic
  refine Reads.get_bind fun rest offset => ?_
  have htake : (littleEndian 8 magic ++ (writeInt version ++ [flag]) ++ rest).take 8 =
      littleEndian 8 magic := by
    rw [List.append_assoc]
    exact List.take_left' (length_littleEndian 8 magic)
  simp only [htake, ne_eq, not_true_eq_false, if_false]
  exact hmagic.bind ((reads_readInt version).bind ((reads_readByte _).map _))

theorem reads_readRequired (h : n < 2 ^ 31) (message : String) :
    Reads (readRequired message) (writeCount n) n :=
  (reads_readCount? h).bind_nil (Reads.pure n)

theorem decides_readBody {code : List Bytes} (hlen : known.length < 2 ^ 31)
    (hknown : ∀ i ∈ body, ∀ s ∈ mentioned i, s ∈ known) (hsized : ∀ i ∈ body, Sized i)
    (h : body.mapM (writeInstruction known base) = .ok code) :
    Decides (∀ i ∈ body, i.op.fields.address = true → p.Holds (i.number - .ofNat base))
      (readMany (readInstruction p environment (known.map Symbol.narrow).toArray
        (.synthetic source)) body.length) code.flatten
      (body.map (reloaded base p.base environment source)) := by
  have hwritten := (List.forall₂_and_left (p := fun i => (∀ s ∈ mentioned i, s ∈ known) ∧
    Sized i) body code).2 ⟨fun i hi => ⟨hknown i hi, hsized i hi⟩, forall₂_of_mapM h⟩
  exact decides_readMany (hwritten.imp fun i bytes hi =>
    decides_readInstruction hlen hi.1.1 hi.1.2 hi.2)

theorem op_of_findPreamble {ip : Nat} (h : findPreamble c n ip = some base) :
    (c.get? base).map op = some .preamble := by
  induction n generalizing ip with
  | zero => cases h
  | succ n ih =>
    unfold findPreamble at h
    split at h
    · rename_i hop
      cases h
      exact hop
    · exact ih h
    · cases h

theorem op_of_functionAt (h : functionAt c address = .ok base) :
    (c.get? base).map op = some .preamble := by
  unfold functionAt at h
  split at h
  · rename_i hfind
    cases h
    exact op_of_findPreamble hfind
  · cases h

theorem functionBody_ok (h : functionBody c base = .ok body) :
    (∀ d < body.length, body[d]? = c.get? (base + d)) ∧ 0 < body.length ∧
      base + body.length ≤ c.size ∧ body.length - 1 < 2 ^ 31 := by
  have hcount : ((c.get? base).map count).getD 0 < 2 ^ 31 := by
    cases c.get? base with
    | none => exact Nat.two_pow_pos 31
    | some i =>
      have := i.number.toInt_lt
      simp only [Option.map_some, Option.getD_some, count]
      omega
  simp only [functionBody] at h
  generalize ((c.get? base).map count).getD 0 = n at h hcount
  split at h
  · rename_i hlt
    unfold Code.size at hlt ⊢
    cases h
    have hsize : (c.instructions.extract base (base + n + 1)).toList.length = n + 1 := by
      rw [Array.length_toList, Array.size_extract]
      omega
    refine ⟨fun d hd => ?_, by omega, by omega, by omega⟩
    rw [Array.getElem?_toList, Array.getElem?_extract, if_pos (by omega)]
    rfl
  · cases h

theorem functionBody_eq (h : functionBody c base = .ok body) :
    body.head? = c.get? base ∧ 0 < body.length ∧ body.length - 1 < 2 ^ 31 := by
  obtain ⟨hget, hpos, -, hlen⟩ := functionBody_ok h
  exact ⟨(List.head?_eq_getElem? ..).trans (hget 0 hpos), hpos, hlen⟩

theorem foldl_append_eq (is : List Instruction) (c : Code) : is.foldl Code.append c =
    { c with instructions := c.instructions ++ is.toArray } := by
  induction is generalizing c with
  | nil => simp
  | cons i is ih => simp [ih, Code.append]

theorem exists_code (hbase : functionAt c address = .ok base)
    (hbody : functionBody c base = .ok body) (h : encode c address hasUpvalues = .ok bytes) :
    ∃ code, body.mapM (writeInstruction (symbolTable body) base) = .ok code ∧
      bytes = (littleEndian 8 magic ++ (writeInt version ++ [if hasUpvalues then 1 else 0])) ++
        (writeCount (body.length - 1) ++ (writeCount (symbolTable body).length ++
        ((symbolTable body).flatMap (writeSymbol (symbolTable body)) ++ code.flatten))) := by
  cases hcode : body.mapM (writeInstruction (symbolTable body) base) with
  | error e =>
    simp only [encode, hbase, hbody, hcode, bind, Except.bind, reduceCtorEq] at h
  | ok code =>
    refine ⟨code, rfl, ?_⟩
    simp only [encode, hbase, hbody, hcode, bind, Except.bind, pure, Except.pure,
      Except.ok.injEq] at h
    rw [← h]
    simp

section Functions

variable {c : Code} {address : Nat} {hasUpvalues : Bool} {bytes : Bytes} {body : List Instruction}
  (hbase : functionAt c address = .ok base) (hbody : functionBody c base = .ok body)
  (hencode : encode c address hasUpvalues = .ok bytes)
  (hcount : (symbolTable body).length < 2 ^ 31)
include hbase hbody hencode hcount

/-- A function that was written is read back if its symbols can be put together again and its
addresses lie in it at its new place, and otherwise not at all. -/
theorem decides_readFunction (hsized : ∀ i ∈ body, Sized i) :
    Decides ((∃ ss, resolveAll ((symbolTable body).map (record (symbolTable body))) = .ok ss) ∧
        ∀ i ∈ body, i.op.fields.address = true →
          Placement.Holds ⟨newBase, body.length - 1⟩ (i.number - .ofNat base))
      (readFunction newBase source environment) bytes
      (hasUpvalues, body.map (reloaded base newBase environment source)) := by
  obtain ⟨code, hcode, rfl⟩ := exists_code hbase hbody hencode
  obtain ⟨hhead, hpos, hlen⟩ := functionBody_eq hbody
  have hheader : Reads readHeader (littleEndian 8 magic ++ (writeInt version ++
      [if hasUpvalues then 1 else 0])) hasUpvalues := by
    have hflag := reads_header (if hasUpvalues then 1 else 0)
    cases hasUpvalues <;> exact hflag
  have hnames := forall_mem_symbolTable (P := Symbol.Named)
    (fun _ _ h => (List.forall_mem_cons.1 h).2) fun i hi => (hsized i hi).symbol
  have hrecords : Reads (readMany readSymbolRecord (symbolTable body).length)
      ((symbolTable body).flatMap (writeSymbol (symbolTable body)))
      ((symbolTable body).map (record (symbolTable body))) :=
    reads_readMany fun s hs => writeSymbol_eq (symbolTable body) s ▸
      reads_write (hnames s hs s s.mem_chain)
  have hresolve : Decides
      (∃ ss, resolveAll ((symbolTable body).map (record (symbolTable body))) = .ok ss)
      (liftM (resolveAll ((symbolTable body).map (record (symbolTable body)))) : Reader _) []
      ((symbolTable body).map Symbol.narrow) := by
    cases hss : resolveAll ((symbolTable body).map (record (symbolTable body))) with
    | error e =>
      refine ⟨?_, fun _ _ _ => ⟨e, rfl⟩⟩
      rintro ⟨_, ⟨⟩⟩
    | ok ss =>
      obtain rfl := eq_narrow_of_resolveAll (closed_symbolTable body) hcount hss
      exact Reads.decides (fun _ _ => rfl) ⟨_, rfl⟩
  have hpreamble : ((body.map (reloaded base newBase environment source)).head?.map
      op) = some .preamble := by
    rw [List.head?_map, hhead, Option.map_map]
    exact op_of_functionAt hbase
  unfold readFunction
  refine .after hheader (.after (reads_readRequired hlen _) (.after (reads_readRequired hcount _)
    (.after hrecords ?_)))
  rw [← List.nil_append code.flatten]
  refine hresolve.bind ?_
  rw [Nat.sub_add_cancel hpos]
  refine (decides_readBody hcount (fun i hi s hs => mem_symbolTable hi hs) hsized hcode).before_nil ?_
  simp only [hpreamble, ne_eq, not_true_eq_false, if_false]
  exact Reads.pure _

end Functions

theorem Fits.sized (h : Fits base newBase length i) : Sized i where
  symbol s hs := (h.symbol s hs).1.named
  count := h.count
  name := h.name
  value := h.value

theorem holds_iff {n : Int32} (hbase : base < 2 ^ 31) (hdistance : -2 ^ 31 ≤ n.toInt - base) :
    p.Holds (n - .ofNat base) ↔
      base ≤ n.toInt ∧ n.toInt ≤ base + p.length ∧ n.toInt - base + p.base < 2 ^ 31 := by
  have hn := n.toInt_lt
  have hsub : (n - Int32.ofNat base).toInt = n.toInt - base := by
    rw [Int32.toInt_sub, Int32.toInt_ofNat_of_lt hbase]
    exact Int.bmod_eq_of_le (by omega) (by omega)
  rw [Placement.Holds, hsub]
  omega

theorem reloaded_eq (h : Fits base newBase length i) :
    reloaded base newBase environment source i = relocated base newBase environment source i := by
  have hnumber : Int32.ofNat newBase + (i.number - .ofNat base) =
      .ofInt (i.number.toInt - base + newBase) := by
    rw [Int32.ofInt_add, Int32.ofInt_sub, Int32.ofInt_toInt, Int32.ofInt_eq_ofNat,
      Int32.ofInt_eq_ofNat, Int32.add_comm]
  have hnarrow : ∀ s ∈ mentioned i, s.narrow = s := fun s hs => (h.symbol s hs).1.narrow_eq
  have hsymbol : i.symbol.map Symbol.narrow = i.symbol := by
    cases hs : i.symbol with
    | none => rfl
    | some s => exact congrArg some (hnarrow s (by simp [mentioned, hs]))
  have hsymbols : i.symbols.map (·.map Symbol.narrow) = i.symbols := by
    cases hss : i.symbols with
    | none => rfl
    | some ss =>
      refine congrArg some ((List.map_congr_left fun s hs => hnarrow s ?_).trans ss.map_id)
      simp [mentioned, symbolList, hss, hs]
  simp only [reloaded, relocated, hnumber, hsymbol, hsymbols]

theorem reads_readFunction (hbase : functionAt c address = .ok base)
    (hbody : functionBody c base = .ok body) (hencode : encode c address hasUpvalues = .ok bytes)
    (hfits : ∀ i ∈ body, Fits base newBase (body.length - 1) i)
    (hcount : (symbolTable body).length < 2 ^ 31) :
    Reads (readFunction newBase source environment) bytes
      (hasUpvalues, body.map (relocated base newBase environment source)) := by
  have hsymbols := forall_mem_symbolTable (P := fun s => s.Fits ∧ s.depth ≤ maxEnvironmentDepth)
    (fun _ _ h => ⟨h.1.2, (Nat.le_succ _).trans h.2⟩) fun i hi => (hfits i hi).symbol
  have hdecides : Decides _ (readFunction newBase source environment) bytes _ :=
    decides_readFunction hbase hbody hencode hcount fun i hi => (hfits i hi).sized
  have hread := hdecides.1
    ⟨(resolveAll_iff (closed_symbolTable body) hcount fun s hs => (hsymbols s hs).1).2
      fun s hs => (hsymbols s hs).2, fun i hi hused => ?_⟩
  · rwa [List.map_congr_left fun i hi => reloaded_eq (hfits i hi)] at hread
  · have haddress := (hfits i hi).address hused
    have hn := i.number.toInt_lt
    exact (holds_iff (by omega) (by omega)).2 haddress

theorem decode_of_reads
    (h : Reads (readFunction target.size source environment) bytes (hasUpvalues, body)) :
    decode bytes target source environment = .ok (⟨target.size, body.length, hasUpvalues⟩,
      { target with instructions := target.instructions ++ body.toArray }) := by
  have hrun := h [] 0
  rw [List.append_nil] at hrun
  simp only [decode, hrun, bind, Except.bind, foldl_append_eq]
  rfl

theorem decode_ok_iff {p : Prop} {r : Bool × List Instruction}
    (h : Decides p (readFunction target.size source environment) bytes r) :
    (∃ r, decode bytes target source environment = .ok r) ↔ p := by
  refine ⟨fun ⟨r, hr⟩ => by_contra fun hp => ?_, fun hp => ⟨_, decode_of_reads (h.1 hp)⟩⟩
  obtain ⟨e, he⟩ := h.2 hp [] 0
  rw [List.append_nil] at he
  simp only [decode, he, bind, Except.bind, reduceCtorEq] at hr

/-- Reading back an encoded function appends it to the code, moved to its new base. -/
theorem decode_encode {c target : Code} {address : Nat} {hasUpvalues : Bool} {bytes : Bytes}
    {body : List Instruction} (hbase : functionAt c address = .ok base)
    (hbody : functionBody c base = .ok body) (hencode : encode c address hasUpvalues = .ok bytes)
    (hfits : ∀ i ∈ body, Fits base target.size (body.length - 1) i)
    (hcount : (symbolTable body).length < 2 ^ 31) (source : UInt32) (environment : Value) :
    decode bytes target source environment = .ok (⟨target.size, body.length, hasUpvalues⟩,
      { target with instructions := target.instructions ++
          (body.map (relocated base target.size environment source)).toArray }) := by
  rw [decode_of_reads (reads_readFunction hbase hbody hencode hfits hcount), List.length_map]

/-- Behind a nop, a function that loads a table and a global and jumps to its end. -/
def jumping : Code where
  instructions := #[{ op := .nop },
    { op := .preamble, number := 4, name := some "f" },
    { op := .literal, value := some (.table ⟨3⟩) },
    { op := .loadLocal, symbol := some (.global "x" (.upvalue "_ENV" 0)) },
    { op := .jump, number := 5 },
    { op := .ret, number := 1, number2 := 9 }]

theorem fits_jumping : ∀ i ∈ jumping.instructions.toList.drop 1, Fits 1 2 4 i := by
  intro i hi
  simp only [jumping, List.drop, List.mem_cons, List.not_mem_nil, or_false] at hi
  rcases hi with rfl | rfl | rfl | rfl | rfl <;> constructor <;>
    simp [mentioned, Opcode.fields, Symbol.Fits, Symbol.depth, Symbol.index,
      symbolList] <;> decide

theorem exists_jumping (environment : Value) : ∃ bytes, encode jumping 0 true = .ok bytes ∧
    functionBody jumping 1 = .ok (jumping.instructions.toList.drop 1) ∧
    decode bytes { instructions := #[{ op := .debug }, { op := .debug }] } 7 environment =
      .ok (⟨2, 5, true⟩, { instructions := #[{ op := .debug }, { op := .debug }] ++
        ((jumping.instructions.toList.drop 1).map (relocated 1 2 environment 7)).toArray }) := by
  obtain ⟨bytes, hbytes⟩ : ∃ bytes, encode jumping 0 true = .ok bytes := ⟨_, rfl⟩
  have hbody : functionBody jumping 1 = .ok (jumping.instructions.toList.drop 1) := rfl
  have hdecode : decode bytes { instructions := #[{ op := .debug }, { op := .debug }] } 7 environment = _ :=
    decode_of_reads (reads_readFunction rfl hbody hbytes fits_jumping (by decide))
  exact ⟨bytes, hbytes, hbody, hdecode⟩

theorem decode_jumping : (∀ i ∈ jumping.instructions.toList.drop 1, Fits 1 2 4 i) ∧
    ∃ bytes, encode jumping 0 true = .ok bytes ∧
      decode bytes { instructions := #[{ op := .debug }, { op := .debug }] } 7 (.bool true) =
        .ok (⟨2, 5, true⟩, { instructions := #[{ op := .debug }, { op := .debug },
          { op := .preamble, number := 4, name := some "f", location := some (.synthetic 7) },
          { op := .literal, value := some (.bool true), location := some (.synthetic 7) },
          { op := .loadLocal, symbol := some (.global "x" (.upvalue "_ENV" 0)),
            location := some (.synthetic 7) },
          { op := .jump, number := 6, location := some (.synthetic 7) },
          { op := .ret, number := 1, location := some (.synthetic 7) }] }) := by
  obtain ⟨bytes, hbytes, hbody, -⟩ := exists_jumping (.bool true)
  refine ⟨fits_jumping, bytes, hbytes, ?_⟩
  have hfits : ∀ i ∈ jumping.instructions.toList.drop 1,
      Fits 1 (Code.size { instructions := #[{ op := .debug }, { op := .debug }] })
        ((jumping.instructions.toList.drop 1).length - 1) i := fits_jumping
  refine (decode_encode rfl hbody hbytes hfits (by decide) 7 (.bool true)).trans ?_
  rfl

end Chunk

end ScriptMachine
