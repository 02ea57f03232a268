import ScriptMachine.Proofs.Chunk.Validating

namespace ScriptMachine

namespace Symbol

theorem chain_narrow (s : Symbol) : s.narrow.chain = s.chain.map narrow := by
  induction s with
  | global name environment ih => simp [narrow, chain, ih]
  | _ => rfl

theorem environment?_narrow (s : Symbol) : s.narrow.environment? = s.environment?.map narrow := by
  cases s <;> rfl

end Symbol

namespace Chunk

open ScriptMachine.Symbol Instruction

variable {known : List Symbol} {base newBase length : Nat} {environment : Value} {source : UInt32}
  {i : Instruction} {s : Symbol}

section Tables

variable {is is' : List Instruction} {x : Symbol}

theorem chain_subset (h : ClosedUpTo known none) (hs : s ∈ known) : s.chain ⊆ known := by
  induction s with
  | global name environment ih =>
    have henv := (h _ hs environment rfl).resolve_right nofun
    exact List.cons_subset.2 ⟨hs, ih henv⟩
  | _ => exact List.cons_subset.2 ⟨hs, List.nil_subset _⟩

theorem mem_iff_of_closed (h : ClosedUpTo known none) (hs : s ∈ known) :
    x ∈ known ↔ x ∈ known ∨ x ∈ s.chain :=
  ⟨.inl, fun hx => hx.elim id fun hx => chain_subset h hs hx⟩

theorem mem_addSymbol_iff (h : ClosedUpTo known (some s)) :
    x ∈ addSymbol known s ↔ x ∈ known ∨ x ∈ s.chain := by
  induction s generalizing known with
  | global name environment ih =>
    unfold addSymbol
    split
    · rename_i hs
      exact mem_iff_of_closed (h.of_mem hs) hs
    · rw [ih h.concat]
      simp [chain, or_assoc]
  | _ =>
    unfold addSymbol
    split
    · rename_i hs
      exact mem_iff_of_closed (h.of_mem hs) hs
    · exact List.mem_append

theorem mem_foldl_addSymbol_iff {ss : List Symbol} (h : ClosedUpTo known none) :
    x ∈ ss.foldl addSymbol known ↔ x ∈ known ∨ ∃ s ∈ ss, x ∈ s.chain := by
  induction ss generalizing known with
  | nil => simp
  | cons s ss ih =>
    have hs : ClosedUpTo known (some s) := fun y hy e he => .inl ((h y hy e he).resolve_right nofun)
    rw [List.foldl_cons, ih hs.addSymbol, mem_addSymbol_iff hs]
    simp only [List.mem_cons, exists_eq_or_imp, or_assoc]

/-- The table holds exactly the symbols that are mentioned and the environments behind them. -/
theorem mem_symbolTable_iff : x ∈ symbolTable is ↔ ∃ s ∈ is.flatMap mentioned, x ∈ s.chain := by
  have hclosed : ClosedUpTo [] none := nofun
  rw [symbolTable_eq, mem_foldl_addSymbol_iff hclosed]
  simp

theorem nodup_addSymbol (h : known.Nodup) (s : Symbol) : (addSymbol known s).Nodup := by
  have hconcat {known : List Symbol} {s : Symbol} (h : known.Nodup) (hs : s ∉ known) :
      (known ++ [s]).Nodup := List.concat_eq_append ▸ h.concat hs
  induction s generalizing known with
  | global name environment ih =>
    unfold addSymbol
    split
    · exact h
    · exact ih (hconcat h ‹_›)
  | _ =>
    unfold addSymbol
    split
    · exact h
    · exact hconcat h ‹_›

theorem nodup_symbolTable (is : List Instruction) : (symbolTable is).Nodup := by
  have hfold (ss known : List Symbol) (h : known.Nodup) : (ss.foldl addSymbol known).Nodup := by
    induction ss generalizing known with
    | nil => exact h
    | cons s ss ih => exact ih _ (nodup_addSymbol h s)
  rw [symbolTable_eq]
  exact hfold _ [] List.nodup_nil

theorem addSymbol_narrow {table : List Symbol} (hinj : Set.InjOn narrow {s | s ∈ table})
    (hknown : known ⊆ table) (hs : s.chain ⊆ table) :
    addSymbol (known.map narrow) s.narrow = (addSymbol known s).map narrow := by
  have hiff {known : List Symbol} (hknown : known ⊆ table) {s : Symbol} (hs : s ∈ table) :
      s.narrow ∈ known.map narrow ↔ s ∈ known := by
    refine ⟨fun h => ?_, List.mem_map_of_mem⟩
    obtain ⟨x, hx, heq⟩ := List.mem_map.1 h
    exact hinj (hknown hx) hs heq ▸ hx
  induction s generalizing known with
  | global name environment ih =>
    obtain ⟨hself, hrest⟩ := List.cons_subset.1 hs
    have hglobal := hiff hknown hself
    rw [narrow] at hglobal ⊢
    unfold addSymbol
    by_cases h : global name environment ∈ known
    · rw [if_pos h, if_pos (hglobal.2 h)]
    · rw [if_neg h, if_neg (mt hglobal.1 h)]
      have hconcat : known ++ [global name environment] ⊆ table :=
        List.append_subset.2 ⟨hknown, List.cons_subset.2 ⟨hself, List.nil_subset _⟩⟩
      rw [← ih hconcat hrest, List.map_append]
      rfl
  | localVar | upvalue | defaultEnvironment =>
    have hself := hiff hknown (hs (mem_chain _))
    rw [narrow] at hself ⊢
    unfold addSymbol
    simp only [hself]
    split
    · rfl
    · rw [List.map_append]
      rfl

theorem symbolTable_narrow (hmentioned : is'.flatMap mentioned = (is.flatMap mentioned).map narrow)
    (hinj : Set.InjOn narrow {s | s ∈ symbolTable is}) :
    symbolTable is' = (symbolTable is).map narrow := by
  have hfold (ss known : List Symbol) (hknown : known ⊆ symbolTable is)
      (hss : ∀ s ∈ ss, s.chain ⊆ symbolTable is) :
      (ss.map narrow).foldl addSymbol (known.map narrow) =
        (ss.foldl addSymbol known).map narrow := by
    induction ss generalizing known with
    | nil => rfl
    | cons s ss ih =>
      obtain ⟨hs, hss⟩ := List.forall_mem_cons.1 hss
      rw [List.map_cons, List.foldl_cons, List.foldl_cons, addSymbol_narrow hinj hknown hs]
      have hadded : ∀ x ∈ addSymbol known s, x.chain ⊆ symbolTable is :=
        forall_mem_addSymbol (fun _ _ h => (List.cons_subset.1 h).2) hs fun x hx =>
          chain_subset (closed_symbolTable is) (hknown hx)
      exact ih _ (fun x hx => hadded x hx (mem_chain x)) hss
  rw [symbolTable_eq is', hmentioned, symbolTable_eq is]
  refine hfold _ [] (List.nil_subset _) fun s hs x hx => ?_
  exact mem_symbolTable_iff.2 ⟨s, hs, hx⟩

/-- Narrowing keeps the symbols of a table apart if it does not make the table shorter. -/
theorem length_symbolTable_narrow
    (hmentioned : is'.flatMap mentioned = (is.flatMap mentioned).map narrow) :
    (symbolTable is').length ≤ (symbolTable is).length ∧
      ((symbolTable is').length = (symbolTable is).length →
        Set.InjOn narrow {s | s ∈ symbolTable is}) := by
  have himage : (symbolTable is').toFinset = (symbolTable is).toFinset.image narrow := by
    ext x
    simp only [List.mem_toFinset, Finset.mem_image, mem_symbolTable_iff, hmentioned, List.mem_map]
    constructor
    · rintro ⟨_, ⟨s, hs, rfl⟩, hx⟩
      rw [chain_narrow] at hx
      obtain ⟨y, hy, rfl⟩ := List.mem_map.1 hx
      exact ⟨y, ⟨s, hs, hy⟩, rfl⟩
    · rintro ⟨y, ⟨s, hs, hy⟩, rfl⟩
      exact ⟨s.narrow, ⟨s, hs, rfl⟩, chain_narrow s ▸ List.mem_map_of_mem hy⟩
  have hcard (is : List Instruction) : (symbolTable is).toFinset.card = (symbolTable is).length :=
    List.toFinset_card_of_nodup (nodup_symbolTable is)
  rw [← hcard is, ← hcard is', himage]
  refine ⟨Finset.card_image_le, fun h => ?_⟩
  have hinj := Finset.card_image_iff.1 h
  rwa [List.coe_toFinset] at hinj

end Tables

theorem ofNat_mod (n : Nat) : Int32.ofNat (n % 2 ^ 32) = Int32.ofNat n := by
  rw [← Int32.toInt_inj, Int32.toInt_ofNat', Int32.toInt_ofNat']
  push_cast
  exact Int.emod_bmod _ _

section Writing

theorem idxOf?_map {α β : Type} [BEq α] [LawfulBEq α] [BEq β] [LawfulBEq β] {f : α → β}
    {l : List α} {a : α} (h : ∀ x ∈ l, f x = f a → x = a) : (l.map f).idxOf? (f a) = l.idxOf? a := by
  induction l with
  | nil => rfl
  | cons x l ih =>
    obtain ⟨hx, hl⟩ := List.forall_mem_cons.1 h
    have hsame : (f x == f a) = (x == a) := by
      rw [Bool.eq_iff_iff, beq_iff_eq, beq_iff_eq]
      exact ⟨hx, congrArg f⟩
    rw [List.map_cons, List.idxOf?_cons, List.idxOf?_cons, hsame, ih hl]

variable (hinj : Set.InjOn narrow {s | s ∈ known})
include hinj

theorem symbolNumber_narrow {s : Option Symbol} (hs : ∀ x, s = some x → x ∈ known) :
    symbolNumber (known.map narrow) (s.map narrow) = symbolNumber known s := by
  cases s with
  | none => rfl
  | some x =>
    have hidx : (known.map narrow).idxOf? x.narrow = known.idxOf? x :=
      idxOf?_map fun y hy h => hinj hy (hs x rfl) h
    simp only [symbolNumber, Option.map_some, Option.bind_some, hidx]

theorem writeSymbols_narrow {ss : Option (List Symbol)} (hss : ∀ x ∈ ss.getD [], x ∈ known) :
    writeSymbols (known.map narrow) (ss.map (·.map narrow)) = writeSymbols known ss := by
  cases ss with
  | none => rfl
  | some ss =>
    have hitems : (ss.map narrow).flatMap (fun s =>
        writeInt (symbolNumber (known.map narrow) (some s))) =
        ss.flatMap fun s => writeInt (symbolNumber known (some s)) := by
      rw [List.flatMap_map]
      refine List.flatMap_congr fun s hs => ?_
      rw [← symbolNumber_narrow hinj (s := some s) (by rintro _ ⟨⟩; exact hss s hs)]
      rfl
    simp only [Option.map_some, writeSymbols, List.length_map, hitems]

theorem writeSymbol_narrow (hclosed : ClosedUpTo known none) (hs : s ∈ known) :
    writeSymbol (known.map narrow) s.narrow = writeSymbol known s := by
  have henv : symbolNumber (known.map narrow) s.narrow.environment? =
      symbolNumber known s.environment? := by
    rw [environment?_narrow]
    exact symbolNumber_narrow hinj fun e he => (hclosed s hs e he).resolve_right nofun
  have hindex : Int32.ofNat s.narrow.index = Int32.ofNat s.index := by
    cases s <;> first | rfl | exact ofNat_mod _
  have hkind : s.narrow.kind = s.kind := by cases s <;> rfl
  have hname : s.narrow.name = s.name := by cases s <;> rfl
  have hattributes : s.narrow.attributes = s.attributes := by cases s <;> rfl
  simp only [writeSymbol, henv, hindex, hkind, hname, hattributes]

omit hinj

theorem writeValue_constant (t : TableId) (v : Option Value) :
    writeValue (v.map (constant (.table t))) = writeValue v := by
  cases v with
  | none => rfl
  | some v => cases v <;> rfl

theorem getD_filter (name : Option String) :
    (name.filter (!·.isEmpty)).getD "" = name.getD "" := by
  cases name with
  | none => rfl
  | some s =>
    by_cases hs : s.isEmpty = true
    · rw [String.isEmpty_iff.1 hs]
      rfl
    · simp [Option.filter, hs]

include hinj in
theorem writeInstruction_reloaded (hknown : ∀ s ∈ mentioned i, s ∈ known) (t : TableId) :
    writeInstruction (known.map narrow) newBase (reloaded base newBase (.table t) source i) =
      writeInstruction known base i := by
  obtain ⟨hsymbol, hsymbols⟩ := forall_mentioned hknown
  have hwhen {used : Bool} {a b : Bytes} (h : used = true → a = b) : when used a = when used b := by
    cases used with
    | true => exact h rfl
    | false => rfl
  have haddress : when i.op.fields.address (writeInt
      ((reloaded base newBase (.table t) source i).number - .ofNat newBase)) =
      when i.op.fields.address (writeInt (i.number - .ofNat base)) := by
    refine hwhen fun hused => ?_
    simp only [reloaded, hused, if_true]
    rw [Int32.add_comm, Int32.add_sub_cancel]
  have hnumber : when i.op.fields.number (writeInt
      (reloaded base newBase (.table t) source i).number) =
      when i.op.fields.number (writeInt i.number) := by
    refine hwhen fun hused => ?_
    have hplain : ¬i.op.fields.address = true := fun h => by simp [number_of_address h] at hused
    simp only [reloaded, hplain, hused, if_true]
    rfl
  have hnumber2 : when i.op.fields.number2 (writeInt
      (reloaded base newBase (.table t) source i).number2) =
      when i.op.fields.number2 (writeInt i.number2) :=
    hwhen fun hused => by simp only [reloaded, relocated, hused, if_true]
  have hname : when i.op.fields.name (writeString
      ((reloaded base newBase (.table t) source i).name.getD "")) =
      when i.op.fields.name (writeString (i.name.getD "")) :=
    hwhen fun hused => by simp only [reloaded, relocated, hused, if_true, getD_filter]
  have hvalue (hused : i.op.fields.value = true) :
      writeValue (reloaded base newBase (.table t) source i).value = writeValue i.value := by
    simp only [reloaded, relocated, hused, if_true, writeValue_constant]
  have hone : when i.op.fields.symbol (writeInt (symbolNumber (known.map narrow)
      (reloaded base newBase (.table t) source i).symbol)) =
      when i.op.fields.symbol (writeInt (symbolNumber known i.symbol)) :=
    hwhen fun hused => by
      simp only [reloaded, hused, if_true, symbolNumber_narrow hinj hsymbol]
  have hlist : when i.op.fields.symbols (writeSymbols (known.map narrow)
      (reloaded base newBase (.table t) source i).symbols) =
      when i.op.fields.symbols (writeSymbols known i.symbols) :=
    hwhen fun hused => by
      simp only [reloaded, hused, if_true, writeSymbols_narrow hinj hsymbols]
  have hop : (reloaded base newBase (.table t) source i).op = i.op := rfl
  simp only [writeInstruction, hop, haddress, hnumber, hnumber2, hname, hone, hlist]
  split
  · rw [hvalue ‹_›]
  · rfl

end Writing

section Redumping

/-- Symbols stand only in the fields that the operation uses. -/
structure Frugal (i : Instruction) : Prop where
  symbol : i.op.fields.symbol = false → i.symbol = none
  symbols : i.op.fields.symbols = false → i.symbols = none

theorem mentioned_reloaded (h : Frugal i) :
    mentioned (reloaded base newBase environment source i) = (mentioned i).map narrow := by
  have hsymbol : (reloaded base newBase environment source i).symbol = i.symbol.map narrow := by
    simp only [reloaded]
    cases hused : i.op.fields.symbol with
    | true => rfl
    | false => rw [h.symbol hused]; rfl
  have hsymbols : (reloaded base newBase environment source i).symbolList =
      i.symbolList.map narrow := by
    simp only [reloaded, symbolList]
    cases hused : i.op.fields.symbols with
    | true => cases i.symbols <;> rfl
    | false => rw [h.symbols hused]; rfl
  rw [mentioned, mentioned, hsymbol, hsymbols, List.map_append]
  cases i.symbol <;> rfl

theorem flatMap_mentioned_reloaded {body : List Instruction} (h : ∀ i ∈ body, Frugal i)
    (base newBase : Nat) (environment : Value) (source : UInt32) :
    (body.map (reloaded base newBase environment source)).flatMap mentioned =
      (body.flatMap mentioned).map narrow := by
  rw [List.flatMap_map, List.map_flatMap]
  exact List.flatMap_congr fun i hi => mentioned_reloaded (h i hi)

theorem length_functionBody {c : Code} {body : List Instruction}
    (h : functionBody c base = .ok body) :
    body.length = (body.head?.map count).getD 0 + 1 := by
  rw [(functionBody_eq h).1]
  simp only [functionBody] at h
  generalize ((c.get? base).map count).getD 0 = n at h ⊢
  split at h
  · rename_i hlt
    unfold Code.size at hlt
    cases h
    rw [Array.length_toList, Array.size_extract]
    omega
  · cases h

section Appended

variable {target : Code} {body : List Instruction}

def appended (target : Code) (body : List Instruction) : Code :=
  { target with instructions := target.instructions ++ body.toArray }

theorem size_appended (target : Code) (body : List Instruction) :
    (appended target body).size = target.size + body.length := by
  simp [appended, Code.size]

theorem get?_appended (target : Code) (body : List Instruction) :
    (appended target body).get? target.size = body.head? := by
  simp only [appended, Code.get?, Code.size, Array.getElem?_append_right le_rfl, Nat.sub_self,
    List.getElem?_toArray, List.head?_eq_getElem?]

theorem functionAt_appended (h : body.head?.map op = some .preamble) :
    functionAt (appended target body) target.size = .ok target.size := by
  simp only [functionAt, findPreamble, get?_appended, h]
  rfl

theorem functionBody_appended (target : Code) (body : List Instruction) :
    functionBody (appended target body) target.size =
      if (body.head?.map count).getD 0 < body.length then
        .ok (body.take ((body.head?.map count).getD 0 + 1))
      else .error (.invalidArgument ("function at base_address " ++ toString target.size ++
        " runs past the end of the code")) := by
  simp only [functionBody, get?_appended, size_appended, Nat.add_lt_add_iff_left]
  split
  · simp only [appended, Code.size, Array.toList_extract, Array.toList_append,
      List.extract_eq_take_drop, Nat.add_assoc, Nat.add_sub_cancel_left]
    rw [← Array.length_toList, List.drop_left]
    rfl
  · rfl

end Appended

section Reloaded

variable {c target c' : Code} {address : Nat} {hasUpvalues : Bool} {bytes : Bytes}
  {body : List Instruction} {loaded : Loaded} {t : TableId}

section Decoded

variable (hbase : functionAt c address = .ok base) (hbody : functionBody c base = .ok body)
  (hencode : encode c address hasUpvalues = .ok bytes) (hsized : ∀ i ∈ body, Sized i)
  (hcount : (symbolTable body).length < 2 ^ 31)
  (hdecode : decode bytes target source environment = .ok (loaded, c'))
include hbase hbody hencode hsized hcount hdecode

theorem reads_of_decode : Reads (readFunction target.size source environment) bytes
    (hasUpvalues, body.map (reloaded base target.size environment source)) := by
  have hdecides : Decides _ (readFunction target.size source environment) bytes
      (hasUpvalues, body.map (reloaded base target.size environment source)) :=
    decides_readFunction hbase hbody hencode hcount hsized
  exact hdecides.1 ((decode_ok_iff hdecides).1 ⟨_, hdecode⟩)

theorem eq_of_decode : loaded = ⟨target.size, body.length, hasUpvalues⟩ ∧
    c' = appended target (body.map (reloaded base target.size environment source)) := by
  rw [decode_of_reads (reads_of_decode hbase hbody hencode hsized hcount hdecode),
    List.length_map] at hdecode
  cases hdecode
  exact ⟨rfl, rfl⟩

end Decoded

theorem count_reloaded (hop : i.op = .preamble) (base newBase : Nat) (environment : Value)
    (source : UInt32) : (reloaded base newBase environment source i).count = i.count := by
  have haddress : i.op.fields.address = false := by rw [hop]; rfl
  have hused : i.op.fields.number = true := by rw [hop]; rfl
  simp only [reloaded, count, haddress, hused, Bool.false_eq_true, if_false, if_true]

theorem function_appended (hbase : functionAt c address = .ok base)
    (hbody : functionBody c base = .ok body) (target : Code) (environment : Value)
    (source : UInt32) :
    functionAt (appended target (body.map (reloaded base target.size environment source)))
        target.size = .ok target.size ∧
      functionBody (appended target (body.map (reloaded base target.size environment source)))
        target.size = .ok (body.map (reloaded base target.size environment source)) := by
  have hop := op_of_functionAt hbase
  rw [← (functionBody_eq hbody).1] at hop
  constructor
  · refine functionAt_appended ?_
    rw [List.head?_map, Option.map_map]
    exact hop
  · have hlength : (body.map (reloaded base target.size environment source)).length =
        ((body.map (reloaded base target.size environment source)).head?.map
          count).getD 0 + 1 := by
      rw [List.length_map, length_functionBody hbody, List.head?_map, Option.map_map]
      cases hi : body.head? with
      | none => rw [Option.map_none, Option.map_none]
      | some i =>
        rw [hi, Option.map_some, Option.some.injEq] at hop
        have hcount := count_reloaded hop base target.size environment source
        simp only [Option.map_some, Option.getD_some, Function.comp, hcount]
    rw [functionBody_appended, if_pos (by omega), ← hlength, List.take_length]

theorem mapM_map_eq {ε α β γ : Type} {f : β → Except ε γ} {g : α → Except ε γ} {r : α → β}
    {l : List α} (h : ∀ a ∈ l, f (r a) = g a) : (l.map r).mapM f = l.mapM g := by
  induction l with
  | nil => rfl
  | cons a l ih =>
    obtain ⟨ha, hl⟩ := List.forall_mem_cons.1 h
    rw [List.map_cons, List.mapM_cons, List.mapM_cons, ha, ih hl]

theorem encode_appended (hbase : functionAt c address = .ok base)
    (hbody : functionBody c base = .ok body) (hencode : encode c address hasUpvalues = .ok bytes)
    (hfrugal : ∀ i ∈ body, Frugal i) (hinj : Set.InjOn narrow {s | s ∈ symbolTable body}) :
    encode (appended target (body.map (reloaded base target.size (.table t) source)))
      target.size hasUpvalues = .ok bytes := by
  obtain ⟨hbase', hbody'⟩ := function_appended hbase hbody target (.table t) source
  have htable := symbolTable_narrow
    (flatMap_mentioned_reloaded hfrugal base target.size (.table t) source) hinj
  have hcode : (body.map (reloaded base target.size (.table t) source)).mapM
      (writeInstruction ((symbolTable body).map narrow) target.size) =
      body.mapM (writeInstruction (symbolTable body) base) :=
    mapM_map_eq fun i hi => writeInstruction_reloaded hinj (fun s hs => mem_symbolTable hi hs) t
  have hrecords : ((symbolTable body).map narrow).flatMap
      (writeSymbol ((symbolTable body).map narrow)) =
      (symbolTable body).flatMap (writeSymbol (symbolTable body)) := by
    rw [List.flatMap_map]
    exact List.flatMap_congr fun s hs => writeSymbol_narrow hinj (closed_symbolTable body) hs
  rw [← hencode]
  simp only [encode, hbase, hbody, hbase', hbody', bind, Except.bind, htable, hcode, hrecords,
    List.length_map]

theorem injOn_of_encode (hbase : functionAt c address = .ok base)
    (hbody : functionBody c base = .ok body) (hencode : encode c address hasUpvalues = .ok bytes)
    (hfrugal : ∀ i ∈ body, Frugal i) (hcount : (symbolTable body).length < 2 ^ 31)
    (h : encode (appended target (body.map (reloaded base target.size (.table t) source)))
      target.size hasUpvalues = .ok bytes) : Set.InjOn narrow {s | s ∈ symbolTable body} := by
  obtain ⟨hbase', hbody'⟩ := function_appended hbase hbody target (.table t) source
  obtain ⟨hle, hinj⟩ := length_symbolTable_narrow
    (flatMap_mentioned_reloaded hfrugal base target.size (.table t) source)
  obtain ⟨code, -, hbytes⟩ := exists_code hbase hbody hencode
  obtain ⟨code', -, hbytes'⟩ := exists_code hbase' hbody' h
  rw [hbytes, List.length_map] at hbytes'
  -- The number of symbols stands at the same place in both chunks.
  have hrest := List.append_cancel_left (List.append_cancel_left hbytes')
  have hfield : writeCount (symbolTable body).length = writeCount _ :=
    List.append_inj_left hrest (by rw [writeCount, writeCount, length_littleEndian,
      length_littleEndian])
  have hvalue := congrArg ofLittleEndian hfield
  rw [writeCount, writeCount, ofLittleEndian_littleEndian (by omega),
    ofLittleEndian_littleEndian (by omega)] at hvalue
  exact hinj hvalue.symm

end Reloaded

/-- A function that was loaded from a chunk has the very same chunk, exactly if no two of its
symbols become one when only 32 bits of their slots are kept. -/
theorem redump_iff {c target c' : Code} {address : Nat} {hasUpvalues : Bool} {bytes : Bytes}
    {body : List Instruction} {loaded : Loaded} {t : TableId}
    (hbase : functionAt c address = .ok base) (hbody : functionBody c base = .ok body)
    (hencode : encode c address hasUpvalues = .ok bytes) (hfrugal : ∀ i ∈ body, Frugal i)
    (hsized : ∀ i ∈ body, Sized i) (hcount : (symbolTable body).length < 2 ^ 31)
    (hdecode : decode bytes target source (.table t) = .ok (loaded, c')) :
    encode c' loaded.entry hasUpvalues = .ok bytes ↔
      Set.InjOn narrow {s | s ∈ symbolTable body} := by
  obtain ⟨rfl, rfl⟩ := eq_of_decode hbase hbody hencode hsized hcount hdecode
  exact ⟨injOn_of_encode hbase hbody hencode hfrugal hcount,
    encode_appended hbase hbody hencode hfrugal⟩

theorem frugal_jumping : ∀ i ∈ jumping.instructions.toList.drop 1, Frugal i := by
  intro i hi
  simp only [jumping, List.drop, List.mem_cons, List.not_mem_nil, or_false] at hi
  rcases hi with rfl | rfl | rfl | rfl | rfl <;> constructor <;> simp [Opcode.fields]

theorem sized_jumping : ∀ i ∈ jumping.instructions.toList.drop 1, Sized i :=
  fun i hi => (fits_jumping i hi).sized

theorem redump_jumping : (∀ i ∈ jumping.instructions.toList.drop 1, Frugal i ∧ Sized i) ∧
    ∃ bytes loaded c', encode jumping 0 true = .ok bytes ∧
      decode bytes { instructions := #[{ op := .debug }, { op := .debug }] } 7 (.table ⟨5⟩) =
        .ok (loaded, c') ∧ encode c' loaded.entry true = .ok bytes := by
  obtain ⟨bytes, hbytes, hbody, hdecode⟩ := exists_jumping (.table ⟨5⟩)
  have hnarrow : ∀ s ∈ symbolTable (jumping.instructions.toList.drop 1), s.narrow = s := by decide
  refine ⟨fun i hi => ⟨frugal_jumping i hi, sized_jumping i hi⟩, bytes, _, _, hbytes, hdecode,
    (redump_iff rfl hbody hbytes frugal_jumping sized_jumping (by decide) hdecode).2 ?_⟩
  intro a ha b hb h
  rwa [hnarrow a ha, hnarrow b hb] at h

/-- A function that loads two locals, whose slots are told apart by a bit that no chunk holds. -/
def colliding : Code where
  instructions := #[{ op := .preamble, number := 3 },
    { op := .loadLocal, symbol := some (.localVar "x" 0 false false) },
    { op := .loadLocal, symbol := some (.localVar "x" (2 ^ 32) false false) },
    { op := .ret }]

theorem eq_ok_of_toOption {ε α : Type} {x : Except ε α} {a : α} (h : x.toOption = some a) :
    x = .ok a := by
  cases x with
  | error e => cases h
  | ok b => exact congrArg _ (Option.some.inj h)

/-- Loading makes one symbol of the two, and the second chunk is shorter. -/
theorem redump_colliding : (∀ i ∈ colliding.instructions.toList, Frugal i) ∧
    ∃ bytes loaded c' bytes', encode colliding 0 false = .ok bytes ∧
      decode bytes colliding 0 (.table ⟨0⟩) = .ok (loaded, c') ∧
      encode c' loaded.entry false = .ok bytes' ∧ bytes'.length < bytes.length := by
  constructor
  · intro i hi
    simp only [colliding, List.mem_cons, List.not_mem_nil, or_false] at hi
    rcases hi with rfl | rfl | rfl | rfl <;> constructor <;> simp [Opcode.fields]
  · have hrun : ((encode colliding 0 false).toOption.bind fun bytes =>
        (decode bytes colliding 0 (.table ⟨0⟩)).toOption.bind fun r =>
          (encode r.2 r.1.entry false).toOption.map fun bytes' =>
            decide (bytes'.length < bytes.length)) = some true := by decide +kernel
    obtain ⟨bytes, hbytes, hrun⟩ := Option.bind_eq_some_iff.1 hrun
    obtain ⟨⟨loaded, c'⟩, hdecode, hrun⟩ := Option.bind_eq_some_iff.1 hrun
    obtain ⟨bytes', hbytes', hlt⟩ := Option.map_eq_some_iff.1 hrun
    exact ⟨bytes, loaded, c', bytes', eq_ok_of_toOption hbytes, eq_ok_of_toOption hdecode,
      eq_ok_of_toOption hbytes', of_decide_eq_true hlt⟩

/-- The instructions that a chunk was loaded to. -/
def Loaded.body (l : Loaded) (c : Code) : List Instruction :=
  (c.instructions.toList.drop l.entry).take l.count

theorem prefix_appended (c : Code) (body : List Instruction) :
    c.instructions.toList <+: (appended c body).instructions.toList := by
  simp [appended]

/-- The code that a loaded function stands in, whatever has been added to it since. -/
theorem eq_appended_of_decode {bytes : Bytes} {target c' later : Code} {loaded : Loaded}
    (hdecode : decode bytes target source environment = .ok (loaded, c'))
    (hlater : c'.instructions.toList <+: later.instructions.toList) :
    ∃ target' body tail, later = appended target' (body ++ tail) ∧ loaded.entry = target'.size ∧
      loaded.count = body.length ∧ loaded.body c' = body ∧
      ∃ i is, body = i :: is ∧ i.op = .preamble := by
  obtain ⟨p, -, body, -, -, rfl, rfl, hvalid⟩ := exists_validated hdecode
  obtain ⟨tail, htail⟩ := hlater
  refine ⟨{ target with current := later.current }, body, tail, ?_, rfl, hvalid.length.symm, ?_, ?_⟩
  · obtain ⟨instructions, current⟩ := later
    simp only [Array.toList_append] at htail
    simp [appended, ← Array.toList_inj, ← htail]
  · simp [Loaded.body, Code.size, hvalid.length]
  · cases body with
    | nil => cases hvalid.preamble
    | cons i is => exact ⟨i, is, rfl, Option.some.inj hvalid.preamble⟩

/-- The length in the preamble decides what is dumped of a loaded function, wherever the code has
grown to since: all of it and nothing else exactly if it is the number of instructions loaded. A
smaller one cuts the function off, a larger one takes in what stands behind it. -/
theorem redumped_body_iff {bytes : Bytes} {target c' later : Code} {loaded : Loaded}
    (hdecode : decode bytes target source environment = .ok (loaded, c'))
    (hlater : c'.instructions.toList <+: later.instructions.toList) :
    functionAt later loaded.entry = .ok loaded.entry ∧ ∃ n,
      (later.get? loaded.entry).map Instruction.count = some n ∧
      (functionBody later loaded.entry = .ok (loaded.body c') ↔ n + 1 = loaded.count) ∧
      (n + 1 < loaded.count →
        functionBody later loaded.entry = .ok ((loaded.body c').take (n + 1))) ∧
      (loaded.count ≤ n → ∀ body, functionBody later loaded.entry = .ok body →
        ∃ i rest, body = loaded.body c' ++ i :: rest) := by
  obtain ⟨target, body, tail, rfl, hentry, hcount, hbody, i, is, rfl, hop⟩ :=
    eq_appended_of_decode hdecode hlater
  rw [hentry, hcount, hbody, functionBody_appended, get?_appended]
  generalize hown : i :: is = own
  have hhead : ((own ++ tail).head?.map Instruction.count).getD 0 = i.count := by rw [← hown]; rfl
  rw [hhead, List.length_append]
  refine ⟨functionAt_appended ?_, i.count, ?_, ⟨fun h => ?_, fun h => ?_⟩, fun hlt => ?_,
    fun hle b hb => ?_⟩
  · rw [← hown]
    exact congrArg some hop
  · rw [← hown]
    rfl
  · split at h
    · have hlen := congrArg List.length (Except.ok.inj h)
      rw [List.length_take, List.length_append] at hlen
      omega
    · cases h
  · rw [if_pos (by omega), List.take_left' h.symm]
  · rw [if_pos (by omega), List.take_append_of_le_length hlt.le]
  · split at hb
    · cases hb
      rw [List.take_append, List.take_of_length_le (by omega)]
      cases tail with
      | nil => simp at *; omega
      | cons x xs =>
        rw [Nat.succ_sub hle, List.take_succ_cons]
        exact ⟨_, _, rfl⟩
    · cases hb

theorem redumped_jumping : ∃ bytes loaded c', encode jumping 0 true = .ok bytes ∧
    decode bytes { instructions := #[{ op := .debug }, { op := .debug }] } 7 .nil =
      .ok (loaded, c') ∧
    functionBody (appended c' [{ op := .debug }]) loaded.entry = .ok (loaded.body c') := by
  obtain ⟨bytes, hbytes, -, hdecode⟩ := exists_jumping .nil
  refine ⟨bytes, _, _, hbytes, hdecode, ?_⟩
  obtain ⟨-, n, hn, hiff, -⟩ := redumped_body_iff hdecode (prefix_appended _ [{ op := .debug }])
  cases Option.some.inj hn
  exact hiff.2 rfl

/-- A chunk of two instructions whose preamble says that none follows it. -/
def shortened : Bytes :=
  (Preface.mk 0 1 []).write ++ [0x15, 0, 0, 0, 0, 1, 0, 0, 0, 0, 0, 0, 0, 0, 0x1a, 0, 0, 0, 0]

/-- Both are loaded, and one of them is dumped again. -/
theorem redumped_shortened : (decode shortened {} 0 .nil).toOption.map (fun r =>
    (r.1, (functionBody r.2 r.1.entry).toOption.map List.length)) =
      some (⟨0, 2, false⟩, some 1) := by
  decide +kernel

end Redumping

end Chunk

end ScriptMachine
