import ScriptMachine.Proofs.Chunk.Redumping

namespace ScriptMachine.Chunk

/-- What the reader takes off one input it takes off every input that starts with the same bytes. -/
def Steady {α : Type} (r : Reader α) : Prop := Obeys r fun a bytes => Reads r bytes a

namespace Steady

variable {α β : Type} {r : Reader α} {bytes : Bytes} {a : α}

theorem pure (a : α) : Steady (pure a) := Obeys.pure (Reads.pure a)

theorem bad (message : String) : Steady (bad message : Reader α) := Obeys.bad message

theorem bind {f : α → Reader β} (hr : Steady r) (hf : ∀ a, Steady (f a)) : Steady (r >>= f) :=
  Obeys.bind hr fun a _ h => (hf a).mono fun _ _ => h.bind

theorem map (hr : Steady r) (f : α → β) : Steady (r >>= fun a => Pure.pure (f a)) :=
  hr.bind fun a => pure (f a)

theorem ite {p : Prop} [Decidable p] {r' : Reader α} (h : Steady r) (h' : Steady r') :
    Steady (if p then r else r') := by
  split
  · exact h
  · exact h'

/-- A reader that accepts some bytes refuses whatever they start with, other than themselves. -/
theorem refuses_short (h : Steady r) (hread : Reads r bytes a) {p : Bytes} (hp : p <+: bytes)
    (hne : p ≠ bytes) (offset : Nat) : ∃ message, r.run ⟨p, offset⟩ = .error (.chunk message) := by
  have hrun := h ⟨p, offset⟩
  obtain ⟨rest, rfl⟩ := hp
  rcases hp : r.run ⟨p, offset⟩ with e | ⟨b, c⟩ <;> rw [hp] at hrun
  · obtain ⟨message, rfl⟩ := hrun
    exact ⟨message, rfl⟩
  · obtain ⟨taken, hrest, htaken⟩ := hrun
    -- the same bytes would be taken off the whole, and something would be left of it
    have hshort := htaken (c.rest ++ rest) offset
    have hwhole := hread [] offset
    rw [← List.append_assoc, ← hrest] at hshort
    rw [List.append_nil, hshort] at hwhole
    have hleft : c.rest ++ rest = [] := congrArg (fun r => r.2.rest) (Except.ok.inj hwhole)
    rw [(List.append_eq_nil_iff.1 hleft).2, List.append_nil] at hne
    exact absurd rfl hne

end Steady

section Parts

theorem steady_readNat (width : Nat) : Steady (readNat width) :=
  (obeys_readNat width).mono fun _ _ h => h.1 ▸ reads_readNat h.2

theorem steady_readByte : Steady readByte :=
  obeys_readByte.mono fun b _ h => h ▸ reads_readByte b

theorem steady_readInt : Steady readInt :=
  obeys_readInt.mono fun n _ h => h ▸ reads_readInt n

theorem steady_readString : Steady readString :=
  obeys_readString.mono fun _ _ h => h.1 ▸ reads_readString h.2

theorem steady_readRequired (message : String) : Steady (readRequired message) :=
  (obeys_readRequired message).mono fun _ _ h => h.1 ▸ reads_readRequired h.2 message

theorem steady_readMany {α : Type} {item : Reader α} (h : Steady item) (n : Nat) :
    Steady (readMany item n) := by
  induction n with
  | zero => exact .pure []
  | succ n ih => exact h.bind fun a => ih.map _

theorem steady_readSymbol? (symbols : Array Symbol) : Steady (readSymbol? symbols) := by
  refine steady_readInt.bind fun n => ?_
  split
  · exact .pure none
  · split
    · exact .pure _
    · exact .bad _

theorem steady_readSymbols? (symbols : Array Symbol) : Steady (readSymbols? symbols) := by
  have hcount : Steady readCount? := by
    refine steady_readInt.bind fun n => ?_
    split <;> exact .pure _
  have hlisted : Steady (readListedSymbol symbols) := by
    refine (steady_readSymbol? symbols).bind fun s => ?_
    split
    · exact .pure _
    · exact .bad _
  refine hcount.bind fun n? => ?_
  split
  · exact (steady_readMany hlisted _).map some
  · exact .pure none

theorem steady_readValue? (environment : Value) : Steady (readValue? environment) := by
  refine steady_readByte.bind fun _ => .ite (.pure none) (steady_readByte.bind fun _ => ?_)
  refine .ite (.pure _) (.ite (steady_readByte.map _) (.ite ((steady_readNat 8).map _) ?_))
  exact .ite (steady_readString.map _) (.ite (.pure _) (.bad _))

theorem steady_resolve (p : Placement) (relative : Int32) : Steady (p.resolve relative) := by
  unfold Placement.resolve
  split
  · exact .bad _
  · exact .ite (.bad _) (.ite (.pure _) (.bad _))

theorem steady_readInstruction (p : Placement) (environment : Value) (symbols : Array Symbol)
    (location : Location) : Steady (readInstruction p environment symbols location) := by
  have hused {α : Type} {item : Reader α} (used : Bool) (absent : α) (h : Steady item) :
      Steady (ifUsed used absent item) := .ite h (.pure absent)
  rw [readInstruction_eq]
  refine steady_readByte.bind fun byte => ?_
  split
  · exact .bad _
  · refine (Steady.ite (steady_readInt.bind (steady_resolve p))
      (hused _ _ steady_readInt)).bind fun number => ?_
    refine (hused _ _ steady_readInt).bind fun number2 => ?_
    refine (hused _ _ (steady_readString.map _)).bind fun name => ?_
    refine (hused _ _ (steady_readValue? environment)).bind fun value => ?_
    refine (hused _ _ (steady_readSymbol? symbols)).bind fun symbol => ?_
    exact (hused _ _ (steady_readSymbols? symbols)).map _

theorem steady_readFunction (base : Nat) (source : UInt32) (environment : Value) :
    Steady (readFunction base source environment) := by
  have hheader : Steady readHeader := obeys_readHeader.mono fun _ _ h => by
    obtain ⟨flag, rfl, rfl⟩ := h
    exact reads_header flag
  have hrecord : Steady readSymbolRecord :=
    obeys_readSymbolRecord.mono fun _ _ h => h.1 ▸ reads_write h.2
  refine hheader.bind fun hasUpvalues => (steady_readRequired _).bind fun length => ?_
  refine (steady_readRequired _).bind fun count => ?_
  refine (steady_readMany hrecord count).bind fun records => ?_
  refine Steady.bind (obeys_resolveAll.mono fun ss _ h => ?_) fun ss => ?_
  · rw [h.1, h.2]
    exact fun _ _ => rfl
  · refine (steady_readMany (steady_readInstruction _ _ _ _) _).bind fun body => ?_
    exact .ite (Steady.bind (.bad _) fun _ => .pure _) (.pure _)

end Parts

variable {base : Nat} {environment : Value} {source : UInt32} {c target c' : Code}
  {address : Nat} {hasUpvalues : Bool} {bytes : Bytes} {body : List Instruction} {loaded : Loaded}

theorem decode_append (hdecode : decode bytes target source environment = .ok (loaded, c'))
    (extra : Bytes) : decode (bytes ++ extra) target source environment = .ok (loaded, c') := by
  have hrun := steady_readFunction target.size source environment ⟨bytes, 0⟩
  rw [decode_eq] at hdecode ⊢
  rcases h : (readFunction target.size source environment).run ⟨bytes, 0⟩ with e | ⟨r, rest⟩ <;>
    rw [h] at hdecode hrun
  · cases hdecode
  · obtain ⟨taken, htaken, hread⟩ := hrun
    dsimp only at htaken
    rw [htaken, List.append_assoc, hread]
    exact hdecode

end ScriptMachine.Chunk
