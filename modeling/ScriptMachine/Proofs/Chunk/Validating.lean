import ScriptMachine.Proofs.Chunk.Reloading

namespace ScriptMachine

namespace Chunk

variable {α β : Type}

/-- Whenever the reader succeeds, it has taken bytes off the front that belong to its value, and
whenever it fails, the chunk is to blame. -/
def Obeys {α : Type} (r : Reader α) (Q : α → Bytes → Prop) : Prop :=
  ∀ c, match r.run c with
    | .ok (a, c') => ∃ bytes, c.rest = bytes ++ c'.rest ∧ Q a bytes
    | .error e => ∃ message, e = .chunk message

namespace Obeys

variable {α β : Type} {r : Reader α} {Q Q' : α → Bytes → Prop} {R : β → Bytes → Prop}

theorem pure {a : α} (h : Q a []) : Obeys (pure a) Q := fun _ => ⟨[], rfl, h⟩

theorem bad (message : String) : Obeys (bad message) Q := fun _ => ⟨message, rfl⟩

theorem bind {f : α → Reader β} (hr : Obeys r Q)
    (hf : ∀ a bytes, Q a bytes → Obeys (f a) fun b bytes' => R b (bytes ++ bytes')) :
    Obeys (r >>= f) R := by
  intro c
  have h := hr c
  rw [StateT.run_bind]
  rcases hrun : r.run c with e | ⟨a, c'⟩ <;> rw [hrun] at h
  · exact h
  · obtain ⟨bytes, hrest, hQ⟩ := h
    have h' := hf a bytes hQ c'
    change match (f a).run c' with
      | .ok (b, c'') => ∃ bytes, c.rest = bytes ++ c''.rest ∧ R b bytes
      | .error e => ∃ message, e = .chunk message
    rcases hrun' : (f a).run c' with e | ⟨b, c''⟩ <;> rw [hrun'] at h'
    · exact h'
    · obtain ⟨bytes', hrest', hR⟩ := h'
      exact ⟨bytes ++ bytes', by rw [hrest, hrest', List.append_assoc], hR⟩

theorem mono (hr : Obeys r Q) (h : ∀ a bytes, Q a bytes → Q' a bytes) : Obeys r Q' := by
  intro c
  have hc := hr c
  rcases hrun : r.run c with e | ⟨a, c'⟩ <;> rw [hrun] at hc
  · exact hc
  · obtain ⟨bytes, hrest, hQ⟩ := hc
    exact ⟨bytes, hrest, h a bytes hQ⟩

theorem ite {p : Prop} [Decidable p] {r' : Reader α} (h : p → Obeys r Q) (h' : ¬p → Obeys r' Q) :
    Obeys (if p then r else r') Q := by
  split
  · exact h ‹_›
  · exact h' ‹_›

theorem halt {f : α → Reader β} (message : String) : Obeys (Chunk.bad message >>= f) R :=
  fun _ => ⟨message, rfl⟩

end Obeys

section Parts

variable {item : Reader α}

theorem littleEndian_ofLittleEndian (bytes : Bytes) :
    littleEndian bytes.length (ofLittleEndian bytes) = bytes := by
  induction bytes with
  | nil => rfl
  | cons b bytes ih =>
    have hlow : (b.toNat + 256 * ofLittleEndian bytes).toUInt8 = b := by
      rw [Nat.toUInt8_eq, UInt8.ofNat_eq_iff_mod_eq_toNat]
      have := b.toNat_lt
      omega
    have hhigh : (b.toNat + 256 * ofLittleEndian bytes) / 256 = ofLittleEndian bytes := by
      have := b.toNat_lt
      omega
    rw [List.length_cons, ofLittleEndian, littleEndian, hlow, hhigh, ih]

theorem ofLittleEndian_lt (bytes : Bytes) : ofLittleEndian bytes < 256 ^ bytes.length := by
  induction bytes with
  | nil => exact Nat.one_pos
  | cons b bytes ih =>
    have := b.toNat_lt
    rw [ofLittleEndian, List.length_cons, pow_succ]
    omega

theorem obeys_readBytes (n : Nat) :
    Obeys (readBytes n) fun taken bytes => taken = bytes ∧ bytes.length = n := by
  intro c
  have hrun : (readBytes n).run c = if (c.rest.take n).length < n then
      .error (.chunk ("unexpected end of data: need " ++ toString n ++ " bytes at offset " ++
        toString c.offset))
    else .ok (c.rest.take n, ⟨c.rest.drop n, c.offset + n⟩) := by
    simp only [readBytes, StateT.run, bind, StateT.bind, get, getThe, MonadStateOf.get, StateT.get,
      Except.bind, Except.pure, pure]
    split <;> rfl
  rw [hrun]
  split_ifs with hlen
  · exact ⟨_, rfl⟩
  · refine ⟨c.rest.take n, (List.take_append_drop n c.rest).symm, rfl, ?_⟩
    have := List.length_take_le n c.rest
    omega

theorem obeys_readNat (width : Nat) :
    Obeys (readNat width) fun n bytes => bytes = littleEndian width n ∧ n < 256 ^ width := by
  refine (obeys_readBytes width).bind fun taken bytes h => .pure ?_
  obtain ⟨rfl, rfl⟩ := h
  rw [List.append_nil]
  exact ⟨(littleEndian_ofLittleEndian taken).symm, ofLittleEndian_lt taken⟩

theorem obeys_readByte : Obeys readByte fun b bytes => bytes = [b] := by
  refine (obeys_readNat 1).bind fun n bytes h => .pure ?_
  obtain ⟨rfl, -⟩ := h
  rfl

theorem obeys_readInt : Obeys readInt fun n bytes => bytes = writeInt n := by
  refine (obeys_readNat 4).bind fun n bytes h => .pure ?_
  obtain ⟨rfl, hn⟩ := h
  have hsame : n.toUInt32.toInt32.toUInt32.toNat = n := by
    rw [UInt32.toUInt32_toInt32, Nat.toUInt32_eq, UInt32.toNat_ofNat_of_lt' hn]
  rw [List.append_nil, writeInt, hsame]

theorem obeys_readCount? : Obeys readCount? fun n? bytes =>
    ∀ n, n? = some n → bytes = writeCount n ∧ n < 2 ^ 31 := by
  refine obeys_readInt.bind fun n bytes h => ?_
  subst h
  split
  · rename_i k hk
    refine .pure fun _ hsome => ?_
    cases hsome
    have hlt : k < 2 ^ 31 := by
      have := n.toInt_lt
      rw [hk] at this
      exact Int.ofNat_lt.1 this
    have hn : n = .ofNat k := by
      rw [← Int32.toInt_inj, hk, Int32.toInt_ofNat_of_lt hlt]
      rfl
    rw [List.append_nil, writeCount_eq_writeInt hlt, hn]
    exact ⟨rfl, hlt⟩
  · exact .pure nofun

theorem obeys_readRequired (message : String) : Obeys (readRequired message) fun n bytes =>
    bytes = writeCount n ∧ n < 2 ^ 31 := by
  refine obeys_readCount?.bind fun n? bytes h => ?_
  split
  · refine .pure ?_
    rw [List.append_nil]
    exact h _ rfl
  · exact .bad _

theorem obeys_readString : Obeys readString fun s bytes =>
    bytes = writeString s ∧ s.utf8ByteSize < 2 ^ 32 := by
  refine (obeys_readNat 4).bind fun n bytes hn => (obeys_readBytes n).bind fun taken bytes' h => ?_
  obtain ⟨rfl, hn⟩ := hn
  obtain ⟨rfl, hlen⟩ := h
  split
  · rename_i s hs
    have hbytes : s.toByteArray.data.toList = taken := by
      unfold String.fromUTF8? at hs
      split at hs
      · cases hs
        rfl
      · cases hs
    have hsize : s.utf8ByteSize = n := (congrArg List.length hbytes).trans hlen
    have hlist : s.toUTF8.toList = taken := (toList_eq _).trans hbytes
    refine .pure ⟨?_, hsize ▸ hn⟩
    rw [List.append_nil, writeString, hlist, hlen, writeCount]
  · exact .bad _

theorem obeys_readMany {Q : α → Bytes → Prop} (h : Obeys item Q) (n : Nat) :
    Obeys (readMany item n) fun items bytes => items.length = n ∧
      ∃ parts, List.Forall₂ Q items parts ∧ bytes = parts.flatten := by
  induction n with
  | zero => exact .pure ⟨rfl, [], .nil, rfl⟩
  | succ n ih =>
    refine h.bind fun a bytes ha => ih.bind fun items bytes' hitems => .pure ?_
    obtain ⟨hlen, parts, hparts, rfl⟩ := hitems
    refine ⟨congrArg (· + 1) hlen, bytes :: parts, .cons ha hparts, ?_⟩
    rw [List.append_nil, List.flatten_cons]

theorem Obeys.ifUsed {P : α → Prop} {used : Bool} {absent : α}
    (h : used = true → Obeys item fun a _ => P a) (habsent : used = false → P absent) :
    Obeys (ifUsed used absent item) fun a _ => P a := by
  cases used with
  | true => exact h rfl
  | false => exact .pure (habsent rfl)

end Parts

section Records

variable {records : List SymbolRecord} {s : Symbol} {ss : List Symbol} {id n last : Nat}

/-- What a record of the symbol table says, with the records that it refers to. -/
inductive Describes (records : List SymbolRecord) : Nat → Symbol → Prop
  | localVar {id index : Nat} {r : SymbolRecord} (hr : records[id]? = some r) (hkind : r.kind = 0)
      (hindex : r.index.toInt = index) :
      Describes records id (.localWithBits r.name index r.attributes)
  | upvalue {id index : Nat} {r : SymbolRecord} (hr : records[id]? = some r) (hkind : r.kind = 1)
      (hindex : r.index.toInt = index) : Describes records id (.upvalue r.name index)
  | global {id e : Nat} {r : SymbolRecord} {environment : Symbol} (hr : records[id]? = some r)
      (hkind : r.kind = 2) (he : r.environment.toInt = e) (h : Describes records e environment) :
      Describes records id (.global r.name environment)
  | defaultEnvironment {id : Nat} {r : SymbolRecord} (hr : records[id]? = some r)
      (hkind : r.kind = 3) : Describes records id .defaultEnvironment

/-- A record gives the number of its environment. -/
def Refers (records : List SymbolRecord) (id : Nat) (e : Int) : Prop :=
  ∃ r, records[id]? = some r ∧ r.kind = 2 ∧ r.environment.toInt = e

/-- As many environments lie between two records. -/
inductive Leads (records : List SymbolRecord) : Nat → Nat → Nat → Prop
  | refl (id : Nat) : Leads records 0 id id
  | step {n id e last : Nat} (h : Refers records id e) (hrest : Leads records n e last) :
      Leads records (n + 1) id last

/-- The environments of some record cannot be followed to their end. -/
inductive Flawed (records : List SymbolRecord) : Prop
  | cyclic {n id : Nat} (h : Leads records (n + 1) id id)
  | dangling {id : Nat} {e : Int} (h : Refers records id e) (he : e < 0 ∨ records.length ≤ e)
  | deep {id last : Nat} (h : Leads records (maxEnvironmentDepth + 1) id last)

theorem describes_of_resolve (h : resolve records.toArray n id = .ok s) :
    Describes records id s ∧ s.depth < n := by
  induction n generalizing id s with
  | zero => cases h
  | succ n ih =>
    obtain ⟨depth, r, hn, hr, index, hindex, hs⟩ := resolve_cases h
    cases hn
    obtain ⟨hkind, rfl⟩ | ⟨hkind, rfl⟩ | ⟨hkind, e, he, environment, henv, rfl⟩ | ⟨hkind, rfl⟩ := hs
    · exact ⟨.localVar hr hkind hindex, Nat.succ_pos n⟩
    · exact ⟨.upvalue hr hkind hindex, Nat.succ_pos n⟩
    · obtain ⟨hdescribes, hdepth⟩ := ih henv
      exact ⟨.global hr hkind he hdescribes, Nat.succ_lt_succ hdepth⟩
    · exact ⟨.defaultEnvironment hr hkind, Nat.succ_pos n⟩

/-- A symbol is put together only after its environment. -/
theorem resolve_refers {e : Int} (hrefers : Refers records id e)
    (h : resolve records.toArray n id = .ok s) : ∃ depth k : Nat, n = depth + 1 ∧ e = k ∧
      ∃ environment, resolve records.toArray depth k = .ok environment := by
  obtain ⟨r, hr, hkind, rfl⟩ := hrefers
  obtain ⟨depth, r', hn, hr', index, hindex, hs⟩ := resolve_cases h
  cases hr.symm.trans hr'
  obtain ⟨h0, -⟩ | ⟨h1, -⟩ | ⟨-, k, hk, environment, henv, -⟩ | ⟨h3, -⟩ := hs
  · simp [hkind] at h0
  · simp [hkind] at h1
  · exact ⟨depth, k, hn, hk, environment, henv⟩
  · simp [hkind] at h3

theorem lt_of_leads {depth : Nat} (hleads : Leads records n id last)
    (h : resolve records.toArray depth id = .ok s) : n < depth := by
  induction hleads generalizing depth s with
  | refl id =>
    obtain ⟨d, r, rfl, -⟩ := resolve_cases h
    exact Nat.succ_pos d
  | step hrefers _ ih =>
    obtain ⟨d, k, rfl, hk, environment, henv⟩ := resolve_refers hrefers h
    cases Int.ofNat.inj hk
    exact Nat.succ_lt_succ (ih henv)

theorem Leads.trans {n' mid : Nat} (h : Leads records n id mid) (h' : Leads records n' mid last) :
    Leads records (n + n') id last := by
  induction h with
  | refl id => rwa [Nat.zero_add]
  | step hrefers _ ih =>
    rw [Nat.add_right_comm]
    exact .step hrefers (ih h')

theorem Leads.repeat (h : Leads records n id id) (k : Nat) : Leads records (k * n) id id := by
  induction k with
  | zero =>
    rw [Nat.zero_mul]
    exact .refl id
  | succ k ih =>
    rw [Nat.succ_mul]
    exact ih.trans h

theorem Leads.lt_length (h : Leads records (n + 1) id last) : id < records.length := by
  cases h with
  | step hrefers _ =>
    obtain ⟨r, hr, -⟩ := hrefers
    exact (List.getElem?_eq_some_iff.1 hr).1

/-- Environments that cannot be followed to their end are not accepted. -/
theorem not_flawed (h : resolveAll records = .ok ss) : ¬Flawed records := by
  obtain ⟨hlen, hget⟩ := resolve_of_resolveAll h
  have hresolve (id : Nat) (hid : id < records.length) :
      ∃ s, resolve records.toArray (maxEnvironmentDepth + 1) id = .ok s :=
    ⟨_, hget id _ (List.getElem?_eq_getElem (hlen.symm ▸ hid))⟩
  rintro (⟨h⟩ | ⟨h, he⟩ | ⟨h⟩)
  · obtain ⟨s, hs⟩ := hresolve _ h.lt_length
    have hlt := lt_of_leads (h.repeat (maxEnvironmentDepth + 1)) hs
    exact absurd hlt (not_lt.2 (Nat.le_mul_of_pos_right _ (Nat.succ_pos _)))
  · obtain ⟨r, hr, -⟩ := id h
    obtain ⟨s, hs⟩ := hresolve _ (List.getElem?_eq_some_iff.1 hr).1
    obtain ⟨depth, k, -, rfl, environment, henv⟩ := resolve_refers h hs
    obtain ⟨-, r', -, hr', -⟩ := resolve_cases henv
    have hlt := (List.getElem?_eq_some_iff.1 hr').1
    omega
  · obtain ⟨s, hs⟩ := hresolve _ h.lt_length
    exact lt_irrefl _ (lt_of_leads h hs)

theorem describes_of_resolveAll (h : resolveAll records = .ok ss) :
    ∀ s ∈ ss, (∃ id, Describes records id s) ∧ s.depth ≤ maxEnvironmentDepth := by
  intro s hs
  obtain ⟨id, hid⟩ := List.mem_iff_getElem?.1 hs
  obtain ⟨hdescribes, hdepth⟩ := describes_of_resolve ((resolve_of_resolveAll h).2 id s hid)
  exact ⟨⟨id, hdescribes⟩, Nat.le_of_lt_succ hdepth⟩

/-- A failure, if there is one, is the fault of the chunk. -/
def Blames {α : Type} (x : Except Fault α) : Prop :=
  ∀ e, x = .error e → ∃ message, e = .chunk message

theorem Blames.throw (message : String) : Blames (throw (.chunk message) : Except Fault α) := by
  rintro _ ⟨⟩
  exact ⟨message, rfl⟩

theorem Blames.ok (a : α) : Blames (.ok a) := by
  intro e h
  cases h

theorem Blames.bind {x : Except Fault α} {f : α → Except Fault β} (hx : Blames x)
    (hf : ∀ a, Blames (f a)) : Blames (x >>= f) := by
  cases x with
  | error e =>
    rintro _ ⟨⟩
    exact hx e rfl
  | ok a => exact hf a

theorem blames_resolve (n id : Nat) : Blames (resolve records.toArray n id) := by
  induction n generalizing id with
  | zero => exact .throw _
  | succ n ih =>
    unfold resolve
    split
    · exact .throw _
    · split
      · exact .throw _
      · split_ifs
        · exact .ok _
        · exact .ok _
        · split
          · exact .throw _
          · exact (ih _).bind fun _ => .ok _
        · exact .ok _
        · exact .throw _

theorem blames_mapM {f : α → Except Fault β} (hf : ∀ a, Blames (f a)) (l : List α) :
    Blames (l.mapM f) := by
  induction l with
  | nil => exact .ok _
  | cons a l ih =>
    rw [List.mapM_cons]
    exact (hf a).bind fun _ => ih.bind fun _ => .ok _

theorem obeys_resolveAll : Obeys (liftM (resolveAll records)) fun ss bytes =>
    bytes = [] ∧ resolveAll records = .ok ss := by
  intro c
  cases h : resolveAll records with
  | ok ss => exact ⟨[], rfl, rfl, rfl⟩
  | error e => exact blames_mapM (fun id => blames_resolve _ id) _ e h

end Records

section Prefaces

/-- What stands before the instructions of a chunk. -/
structure Preface where
  flag : UInt8
  length : Nat
  records : List SymbolRecord

def Preface.write (p : Preface) : Bytes :=
  (littleEndian 8 magic ++ (writeInt version ++ [p.flag])) ++ (writeCount p.length ++
    (writeCount p.records.length ++ p.records.flatMap SymbolRecord.write))

/-- The counts and the lengths of names fit their fields. -/
structure Preface.Fits (p : Preface) : Prop where
  length : p.length < 2 ^ 31
  count : p.records.length < 2 ^ 31
  name : ∀ r ∈ p.records, r.name.utf8ByteSize < 2 ^ 32

theorem obeys_readSymbolRecord : Obeys readSymbolRecord fun r bytes =>
    bytes = r.write ∧ r.name.utf8ByteSize < 2 ^ 32 := by
  refine obeys_readByte.bind fun kind _ hkind => obeys_readInt.bind fun index _ hindex => ?_
  refine obeys_readString.bind fun name _ hname => ?_
  refine obeys_readByte.bind fun attributes _ hattributes => ?_
  refine obeys_readInt.bind fun environment _ henvironment => .pure ?_
  obtain ⟨rfl, hname⟩ := hname
  subst hkind hindex hattributes henvironment
  exact ⟨by simp [SymbolRecord.write], hname⟩

/-- Reads the header once the magic number is known to be there. -/
def readVersioned : Reader Bool := do
  let _ ← readBytes 8
  if (← readInt) ≠ version then bad "Invalid version"
  return (← readByte) != 0

theorem run_readHeader (c : Cursor) : readHeader.run c =
    if c.rest.take 8 ≠ littleEndian 8 magic then .error (.chunk "Not a tidal chunk")
    else readVersioned.run c := by
  by_cases h : c.rest.take 8 ≠ littleEndian 8 magic
  · rw [if_pos h]
    change (if c.rest.take 8 ≠ littleEndian 8 magic then _ else _ : Reader Bool).run c = _
    rw [if_pos h]
    rfl
  · rw [if_neg h]
    change (if c.rest.take 8 ≠ littleEndian 8 magic then _ else _ : Reader Bool).run c = _
    rw [if_neg h]
    rfl

theorem obeys_readHeader : Obeys readHeader fun hasUpvalues bytes => ∃ flag : UInt8,
    bytes = littleEndian 8 magic ++ (writeInt version ++ [flag]) ∧ hasUpvalues = (flag != 0) := by
  have hversioned : Obeys readVersioned fun hasUpvalues bytes => ∃ first, first.length = 8 ∧
      ∃ flag : UInt8, bytes = first ++ (writeInt version ++ [flag]) ∧
        hasUpvalues = (flag != 0) := by
    refine (obeys_readBytes 8).bind fun first _ hfirst => obeys_readInt.bind fun v _ hv => ?_
    obtain ⟨rfl, hlen⟩ := hfirst
    subst hv
    refine .ite (fun _ => .halt _) fun hv => obeys_readByte.bind fun flag _ hflag => .pure ?_
    subst hflag
    refine ⟨first, hlen, flag, ?_, rfl⟩
    rw [not_not.1 hv, List.append_nil]
  intro c
  have h := hversioned c
  rw [run_readHeader]
  by_cases hmagic : c.rest.take 8 = littleEndian 8 magic
  · rw [if_neg (not_not.2 hmagic)]
    rcases hrun : readVersioned.run c with e | ⟨hasUpvalues, c'⟩ <;> rw [hrun] at h
    · exact h
    · obtain ⟨bytes, hrest, first, hlen, flag, rfl, hflag⟩ := h
      rw [hrest, List.append_assoc, List.take_left' hlen] at hmagic
      exact ⟨_, hrest, flag, by rw [hmagic], hflag⟩
  · rw [if_pos hmagic]
    exact ⟨_, rfl⟩

end Prefaces

section Functions

variable {ss : List Symbol} {bytes : Bytes}

theorem obeys_placement (p : Placement) (relative : Int32) :
    Obeys (p.resolve relative) fun n _ => p.base ≤ n.toInt ∧ n.toInt ≤ p.base + p.length := by
  have hmax : Int32.maxValue.toInt.toNat = 2 ^ 31 - 1 := by decide
  unfold Placement.resolve
  split
  · exact .bad _
  · refine .ite (fun _ => .bad _) fun hoffset => .ite (fun hfits => .pure ?_) fun _ => .bad _
    rw [Int32.toInt_ofNat_of_lt (by omega)]
    omega

theorem obeys_readNumber (p : Placement) (fields : Fields) :
    Obeys (readNumber p fields) fun n _ => fields.address = true →
      p.base ≤ n.toInt ∧ n.toInt ≤ p.base + p.length := by
  refine .ite (fun _ => obeys_readInt.bind fun n _ _ => ?_) fun hused => ?_
  · exact (obeys_placement p n).mono fun _ _ h _ => h
  · exact .ifUsed (fun _ => obeys_readInt.mono fun _ _ _ h => absurd h hused)
      fun _ h => absurd h hused

theorem obeys_readName? : Obeys readName? fun _ _ => True :=
  obeys_readString.bind fun _ _ _ => .pure trivial

theorem obeys_readValue? (environment : Value) : Obeys (readValue? environment) fun _ _ => True := by
  refine obeys_readByte.bind fun _ _ _ => .ite (fun _ => .pure trivial) fun _ => ?_
  refine obeys_readByte.bind fun _ _ _ => .ite (fun _ => .pure trivial) fun _ => ?_
  refine .ite (fun _ => obeys_readByte.bind fun _ _ _ => .pure trivial) fun _ => ?_
  refine .ite (fun _ => (obeys_readNat 8).bind fun _ _ _ => .pure trivial) fun _ => ?_
  refine .ite (fun _ => obeys_readString.bind fun _ _ _ => .pure trivial) fun _ => ?_
  exact .ite (fun _ => .pure trivial) fun _ => .bad _

theorem obeys_readSymbol? : Obeys (readSymbol? ss.toArray) fun s _ => ∀ x, s = some x → x ∈ ss := by
  refine obeys_readInt.bind fun n _ _ => ?_
  split
  · exact .pure nofun
  · split
    · rename_i s hs
      refine .pure fun x hx => ?_
      cases hx
      rw [List.getElem?_toArray] at hs
      exact List.mem_of_getElem? hs
    · exact .bad _

theorem obeys_readSymbols? : Obeys (readSymbols? ss.toArray) fun l _ => ∀ x ∈ l.getD [], x ∈ ss := by
  have hlisted : Obeys (readListedSymbol ss.toArray) fun x _ => x ∈ ss := by
    refine obeys_readSymbol?.bind fun s _ hs => ?_
    split
    · exact .pure (hs _ rfl)
    · exact .bad _
  refine obeys_readCount?.bind fun n? _ _ => ?_
  split
  · refine (obeys_readMany hlisted _).bind fun l _ hl => .pure fun x hx => ?_
    obtain ⟨-, parts, hparts, -⟩ := hl
    exact ((List.forall₂_and_left l parts).1 (hparts.imp fun _ _ h => ⟨h, trivial⟩)).1 x hx
  · exact .pure nofun

/-- The address and the symbols of an instruction belong to its function. -/
structure Belongs (p : Placement) (ss : List Symbol) (i : Instruction) : Prop where
  address : i.op.fields.address = true → p.base ≤ i.number.toInt ∧ i.number.toInt ≤ p.base + p.length
  symbol : ∀ s ∈ mentioned i, s ∈ ss

theorem obeys_readInstruction (p : Placement) (environment : Value) (location : Location) :
    Obeys (readInstruction p environment ss.toArray location) fun i _ => Belongs p ss i := by
  rw [readInstruction_eq]
  refine obeys_readByte.bind fun byte _ _ => ?_
  split
  · exact .bad _
  · refine (obeys_readNumber p _).bind fun number _ hnumber => ?_
    refine (Obeys.ifUsed (P := fun _ => True) (fun _ => obeys_readInt.mono fun _ _ _ => trivial)
      fun _ => trivial).bind fun number2 _ _ => ?_
    refine (Obeys.ifUsed (fun _ => obeys_readName?) fun _ => trivial).bind fun name _ _ => ?_
    refine (Obeys.ifUsed (fun _ => obeys_readValue? environment) fun _ => trivial).bind
      fun value _ _ => ?_
    refine (Obeys.ifUsed (fun _ => obeys_readSymbol?) (by simp)).bind fun symbol _ hsymbol => ?_
    refine (Obeys.ifUsed (fun _ => obeys_readSymbols?) (by simp)).bind fun symbols _ hsymbols => ?_
    refine .pure ⟨hnumber, fun s hs => ?_⟩
    rcases List.mem_append.1 hs with hs | hs
    · exact hsymbol s (Option.mem_toList.1 hs)
    · exact hsymbols s hs

/-- What is known of the instructions of a chunk that has been accepted. -/
structure Validated (p : Preface) (base : Nat) (body : List Instruction) : Prop where
  length : body.length = p.length + 1
  preamble : body.head?.map Instruction.op = some .preamble
  address : ∀ i ∈ body, i.op.fields.address = true →
    base ≤ i.number.toInt ∧ i.number.toInt ≤ base + p.length
  symbol : ∀ i ∈ body, ∀ s ∈ mentioned i,
    (∃ id, Describes p.records id s) ∧ s.depth ≤ maxEnvironmentDepth

theorem obeys_readFunction (base : Nat) (source : UInt32) (environment : Value) :
    Obeys (readFunction base source environment) fun r bytes => ∃ p rest, p.Fits ∧
      bytes = p.write ++ rest ∧ r.1 = (p.flag != 0) ∧ Validated p base r.2 := by
  refine obeys_readHeader.bind fun hasUpvalues _ hheader => ?_
  refine (obeys_readRequired _).bind fun length _ hlength => ?_
  refine (obeys_readRequired _).bind fun count _ hcount => ?_
  refine (obeys_readMany obeys_readSymbolRecord count).bind fun records _ hrecords => ?_
  refine obeys_resolveAll.bind fun ss _ hss => ?_
  refine (obeys_readMany (obeys_readInstruction _ _ _) _).bind fun body bytes hbody => ?_
  refine .ite (fun _ => .halt _) fun hpreamble => .pure ?_
  obtain ⟨flag, rfl, hflag⟩ := hheader
  obtain ⟨rfl, hlength⟩ := hlength
  obtain ⟨rfl, hcount⟩ := hcount
  obtain ⟨rfl, parts, hparts, rfl⟩ := hrecords
  obtain ⟨rfl, hss⟩ := hss
  obtain ⟨hlen, parts', hbody, -⟩ := hbody
  have hwritten : records.flatMap SymbolRecord.write = parts.flatten := by
    rw [List.flatMap_def]
    congr 1
    exact List.forall₂_eq_eq_eq ▸ List.forall₂_map_left_iff.2 (hparts.imp fun _ _ h => h.1.symm)
  have hnames := ((List.forall₂_and_left records parts).1 (hparts.imp fun _ _ h => ⟨h.2, h.1⟩)).1
  have hbelongs := ((List.forall₂_and_left body parts').1
    (hbody.imp fun _ _ h => ⟨h, trivial⟩)).1
  have hsymbols := describes_of_resolveAll hss
  refine ⟨⟨flag, length, records⟩, bytes, ⟨hlength, hcount, hnames⟩, ?_, hflag, hlen,
    not_not.1 hpreamble, fun i hi => (hbelongs i hi).address,
    fun i hi s hs => hsymbols s ((hbelongs i hi).symbol s hs)⟩
  simp [Preface.write, hwritten]

theorem refuses_flawed {p : Preface} (hp : p.Fits) (hflawed : Flawed p.records) (base : Nat)
    (source : UInt32) (environment : Value) :
    Refuses (readFunction base source environment) p.write := by
  have hrecords : Reads (readMany readSymbolRecord p.records.length)
      (p.records.flatMap SymbolRecord.write) (p.records.map id) :=
    reads_readMany fun r hr => reads_write (hp.name r hr)
  rw [List.map_id] at hrecords
  unfold readFunction
  refine .after (reads_header p.flag) (.after (reads_readRequired hp.length _)
    (.after (reads_readRequired hp.count _) ?_))
  rw [← List.append_nil (p.records.flatMap _)]
  refine .after hrecords ?_
  cases hresolve : resolveAll p.records with
  | ok ss => exact absurd hflawed (not_flawed hresolve)
  | error e => exact fun _ _ => ⟨e, rfl⟩

theorem run_bind_ok {r : Reader α} {f : α → Reader β} {c c' : Cursor} {a : α}
    (h : r.run c = .ok (a, c')) : (r >>= f).run c = (f a).run c' := by
  rw [StateT.run_bind, h]
  rfl

theorem decode_eq (bytes : Bytes) (c : Code) (source : UInt32) (environment : Value) :
    decode bytes c source environment =
      match (readFunction c.size source environment).run ⟨bytes, 0⟩ with
      | .ok ((hasUpvalues, body), _) => .ok (⟨c.size, body.length, hasUpvalues⟩,
          { c with instructions := c.instructions ++ body.toArray })
      | .error e => .error e := by
  unfold decode
  rcases (readFunction c.size source environment).run ⟨bytes, 0⟩ with e | ⟨⟨hasUpvalues, body⟩, c'⟩
  · rfl
  · simp only [bind, Except.bind, pure, Except.pure, foldl_append_eq]

theorem decode_unmarked (h : ¬littleEndian 8 magic <+: bytes) (c : Code) (source : UInt32)
    (environment : Value) :
    decode bytes c source environment = .error (.chunk "Not a tidal chunk") := by
  have htake : bytes.take 8 ≠ littleEndian 8 magic := fun htake =>
    h ⟨bytes.drop 8, by rw [← htake, List.take_append_drop]⟩
  rw [decode_eq, readFunction, StateT.run_bind, run_readHeader, if_pos htake]
  rfl

theorem decode_versioned {v : Int32} (hv : v ≠ version) (rest : Bytes) (c : Code) (source : UInt32)
    (environment : Value) :
    decode (littleEndian 8 magic ++ (writeInt v ++ rest)) c source environment =
      .error (.chunk "Invalid version") := by
  have hmagic := reads_readBytes (littleEndian 8 magic)
  rw [length_littleEndian] at hmagic
  have htake : (littleEndian 8 magic ++ (writeInt v ++ rest)).take 8 = littleEndian 8 magic :=
    List.take_left' (length_littleEndian 8 magic)
  have hversioned : readVersioned.run ⟨littleEndian 8 magic ++ (writeInt v ++ rest), 0⟩ =
      .error (.chunk "Invalid version") := by
    rw [readVersioned, run_bind_ok (hmagic _ _), run_bind_ok (reads_readInt v _ _)]
    simp only [hv, ne_eq, not_false_eq_true, if_true]
    rfl
  rw [decode_eq, readFunction, StateT.run_bind, run_readHeader, if_neg (not_not.2 htake),
    hversioned]
  rfl

/-- All that is known of a chunk that was accepted. -/
theorem exists_validated {c c' : Code} {source : UInt32} {environment : Value} {loaded : Loaded}
    (h : decode bytes c source environment = .ok (loaded, c')) :
    ∃ p rest body, p.Fits ∧ bytes = p.write ++ rest ∧
      loaded = ⟨c.size, p.length + 1, p.flag != 0⟩ ∧
      c' = { c with instructions := c.instructions ++ body.toArray } ∧ Validated p c.size body := by
  have hobeys := obeys_readFunction c.size source environment ⟨bytes, 0⟩
  rw [decode_eq] at h
  rcases hrun : (readFunction c.size source environment).run ⟨bytes, 0⟩ with e' | ⟨r, last⟩ <;>
    rw [hrun] at h hobeys <;> cases h
  obtain ⟨taken, hbytes, p, rest, hp, rfl, hflag, hvalid⟩ := hobeys
  refine ⟨p, rest ++ last.rest, r.2, hp, ?_, ?_, rfl, hvalid⟩
  · rw [← List.append_assoc]
    exact hbytes
  · rw [hvalid.length, hflag]

/-- A chunk is either refused, with nothing changed, or appended as a function of its own: as many
instructions as its header says after a preamble, whose code addresses stay among them, and whose
symbols are those of its table. The table is refused if some environments in it cannot be followed
to their end. Before all that, the magic number is looked at, and then the version. -/
theorem decode_validates (bytes : Bytes) (c : Code) (source : UInt32) (environment : Value) :
    (¬littleEndian 8 magic <+: bytes →
      decode bytes c source environment = .error (.chunk "Not a tidal chunk")) ∧
    (∀ v rest, bytes = littleEndian 8 magic ++ (writeInt v ++ rest) → v ≠ version →
      decode bytes c source environment = .error (.chunk "Invalid version")) ∧
    (∀ (p : Preface) (rest : Bytes), p.Fits → bytes = p.write ++ rest → Flawed p.records →
      ∃ message, decode bytes c source environment = .error (.chunk message)) ∧
    (∀ e, decode bytes c source environment = .error e → ∃ message, e = .chunk message) ∧
    (∀ loaded c', decode bytes c source environment = .ok (loaded, c') → ∃ p rest body, p.Fits ∧
      bytes = p.write ++ rest ∧ loaded = ⟨c.size, p.length + 1, p.flag != 0⟩ ∧
      c' = { c with instructions := c.instructions ++ body.toArray } ∧ Validated p c.size body) ∧
    ∀ m : Machine, (Session.load bytes m).2.code = m.code ∨ ∃ loaded,
      decode bytes m.code m.nextSource (.table m.globals) =
        .ok (loaded, (Session.load bytes m).2.code) := by
  have hobeys := obeys_readFunction c.size source environment ⟨bytes, 0⟩
  have hblames (e : Fault) (h : decode bytes c source environment = .error e) :
      ∃ message, e = .chunk message := by
    rw [decode_eq] at h
    rcases hrun : (readFunction c.size source environment).run ⟨bytes, 0⟩ with e' | r <;>
      rw [hrun] at h hobeys <;> cases h
    exact hobeys
  refine ⟨fun h => decode_unmarked h c source environment, ?_, fun p rest hp hbytes hflawed => ?_,
    hblames, fun loaded c' h => ?_, fun m => ?_⟩
  · rintro v rest rfl hv
    exact decode_versioned hv rest c source environment
  · obtain ⟨e, he⟩ := refuses_flawed hp hflawed c.size source environment rest 0
    have hdecode : decode bytes c source environment = .error e := by rw [decode_eq, hbytes, he]
    obtain ⟨message, rfl⟩ := hblames e hdecode
    exact ⟨message, hdecode⟩
  · exact exists_validated h
  · rw [Session.load_apply]
    cases h : decode bytes m.code m.nextSource (.table m.globals) with
    | error e => exact .inl rfl
    | ok r =>
      obtain ⟨⟨entry, count, hasUpvalues⟩, code⟩ := r
      exact .inr ⟨⟨entry, count, hasUpvalues⟩, by cases hasUpvalues <;> rfl⟩

/-- Two globals that are each other's environment. -/
def circular : Preface where
  flag := 0
  length := 0
  records := [⟨2, 0, "x", 0, 1⟩, ⟨2, 0, "y", 0, 0⟩]

theorem flawed_circular : Flawed circular.records := by
  have hcycle : Leads circular.records 2 0 0 :=
    .step ⟨_, rfl, rfl, rfl⟩ (.step ⟨_, rfl, rfl, rfl⟩ (.refl 0))
  exact .cyclic hcycle

theorem decode_circular : Flawed circular.records ∧
    (∃ message, decode (circular.write ++ [0]) jumping 7 .nil = .error (.chunk message)) ∧
    ∃ bytes loaded c', encode jumping 0 true = .ok bytes ∧
      decode bytes { instructions := #[{ op := .debug }, { op := .debug }] } 7 .nil =
        .ok (loaded, c') ∧
      ∃ p rest body, p.Fits ∧ bytes = p.write ++ rest ∧
        loaded = ⟨2, p.length + 1, p.flag != 0⟩ ∧
        c' = { instructions := #[{ op := .debug }, { op := .debug }] ++ body.toArray } ∧
        Validated p 2 body := by
  have hfits : circular.Fits := ⟨by decide, by decide, by simp [circular]; decide⟩
  obtain ⟨bytes, hbytes, -, hdecode⟩ := exists_jumping .nil
  exact ⟨flawed_circular,
    (decode_validates _ jumping 7 .nil).2.2.1 circular [0] hfits rfl flawed_circular,
    bytes, _, _, hbytes, hdecode,
    (decode_validates bytes _ 7 .nil).2.2.2.2.1 _ _ hdecode⟩

end Functions

end Chunk

end ScriptMachine
