import Mathlib
import ScriptMachine.Chunk.Decode

namespace ScriptMachine.Chunk

/-- The reader takes exactly these bytes off the front of any input and gives the value. -/
def Reads {α : Type} (r : Reader α) (bytes : Bytes) (a : α) : Prop :=
  ∀ rest offset, r.run ⟨bytes ++ rest, offset⟩ = .ok (a, ⟨rest, offset + bytes.length⟩)

namespace Reads

variable {α β : Type} {bytes bytes' : Bytes} {a : α} {b : β} {r : Reader α} {f : α → Reader β}

theorem pure (a : α) : Reads (pure a) [] a := fun _ _ => rfl

theorem bind (hr : Reads r bytes a) (hf : Reads (f a) bytes' b) :
    Reads (r >>= f) (bytes ++ bytes') b := by
  intro rest offset
  rw [StateT.run_bind, List.append_assoc, hr]
  refine (hf rest _).trans ?_
  rw [List.length_append, Nat.add_assoc]

theorem bind_nil (hr : Reads r bytes a) (hf : Reads (f a) [] b) : Reads (r >>= f) bytes b := by
  have h := hr.bind hf
  rwa [List.append_nil] at h

theorem map (hr : Reads r bytes a) (f : α → β) :
    Reads (r >>= fun a => Pure.pure (f a)) bytes (f a) :=
  hr.bind_nil (pure (f a))

theorem get_bind {f : Cursor → Reader α}
    (h : ∀ rest offset, Reads (f ⟨bytes ++ rest, offset⟩) bytes a) :
    Reads (get >>= f) bytes a :=
  fun rest offset => h rest offset rest offset

end Reads

/-- The reader fails on these bytes, whatever follows them. -/
def Refuses {α : Type} (r : Reader α) (bytes : Bytes) : Prop :=
  ∀ rest offset, ∃ e, r.run ⟨bytes ++ rest, offset⟩ = .error e

/-- The reader gives the value for these bytes if the condition holds, and fails on them if not. -/
def Decides {α : Type} (p : Prop) (r : Reader α) (bytes : Bytes) (a : α) : Prop :=
  (p → Reads r bytes a) ∧ (¬p → Refuses r bytes)

section Outcomes

variable {α β : Type} {bytes bytes' : Bytes} {r : Reader α} {f : α → Reader β} {a : α} {b : β}
  {p q : Prop}

theorem Refuses.bad (message : String) : Refuses (bad message : Reader α) bytes :=
  fun _ _ => ⟨_, rfl⟩

theorem Refuses.bind (h : Refuses r bytes) (bytes' : Bytes) :
    Refuses (r >>= f) (bytes ++ bytes') := by
  intro rest offset
  obtain ⟨e, he⟩ := h (bytes' ++ rest) offset
  exact ⟨e, by rw [StateT.run_bind, List.append_assoc, he]; rfl⟩

theorem Refuses.after (hr : Reads r bytes a) (hf : Refuses (f a) bytes') :
    Refuses (r >>= f) (bytes ++ bytes') := by
  intro rest offset
  obtain ⟨e, he⟩ := hf rest (offset + bytes.length)
  exact ⟨e, by rw [StateT.run_bind, List.append_assoc, hr]; exact he⟩

theorem Reads.decides (h : Reads r bytes a) (hp : p) : Decides p r bytes a :=
  ⟨fun _ => h, fun hn => absurd hp hn⟩

theorem Decides.bind (hr : Decides p r bytes a) (hf : Decides q (f a) bytes' b) :
    Decides (p ∧ q) (r >>= f) (bytes ++ bytes') b := by
  refine ⟨fun h => (hr.1 h.1).bind (hf.1 h.2), fun h => ?_⟩
  by_cases hp : p
  · exact .after (hr.1 hp) (hf.2 fun hq => h ⟨hp, hq⟩)
  · exact (hr.2 hp).bind bytes'

theorem Decides.after (hr : Reads r bytes a) (hf : Decides p (f a) bytes' b) :
    Decides p (r >>= f) (bytes ++ bytes') b :=
  ⟨fun hp => hr.bind (hf.1 hp), fun hp => .after hr (hf.2 hp)⟩

theorem Decides.before (hr : Decides p r bytes a) (hf : Reads (f a) bytes' b) :
    Decides p (r >>= f) (bytes ++ bytes') b :=
  ⟨fun hp => (hr.1 hp).bind hf, fun hp => (hr.2 hp).bind bytes'⟩

theorem Decides.before_nil (hr : Decides p r bytes a) (hf : Reads (f a) [] b) :
    Decides p (r >>= f) bytes b := by
  have h := hr.before hf
  rwa [List.append_nil] at h

end Outcomes

section Numbers

variable {n width : Nat}

theorem length_littleEndian (width n : Nat) : (littleEndian width n).length = width := by
  induction width generalizing n with
  | zero => rfl
  | succ width ih => simp [littleEndian, ih]

theorem ofLittleEndian_littleEndian (h : n < 256 ^ width) :
    ofLittleEndian (littleEndian width n) = n := by
  induction width generalizing n with
  | zero => simp_all [littleEndian, ofLittleEndian]
  | succ width ih =>
    have hdiv : n / 256 < 256 ^ width := by
      rw [pow_succ] at h
      exact Nat.div_lt_of_lt_mul (by omega)
    simp only [littleEndian, ofLittleEndian, ih hdiv, Nat.toUInt8_eq, UInt8.toNat_ofNat']
    omega

theorem reads_readBytes (bytes : Bytes) : Reads (readBytes bytes.length) bytes bytes := by
  intro rest offset
  simp [readBytes, StateT.run, bind, StateT.bind, get, getThe, MonadStateOf.get, StateT.get,
    Except.bind, Except.pure, pure, set, StateT.set, StateT.pure]

theorem reads_readNat (h : n < 256 ^ width) : Reads (readNat width) (littleEndian width n) n := by
  have hbytes := reads_readBytes (littleEndian width n)
  rw [length_littleEndian] at hbytes
  have hread := hbytes.map ofLittleEndian
  rwa [ofLittleEndian_littleEndian h] at hread

theorem reads_readByte (b : UInt8) : Reads readByte [b] b := by
  have h : Reads readByte (littleEndian 1 b.toNat) b.toNat.toUInt8 :=
    (reads_readNat b.toNat_lt).map Nat.toUInt8
  simpa [littleEndian] using h

theorem reads_readInt (n : Int32) : Reads readInt (writeInt n) n := by
  have h : Reads readInt (writeInt n) n.toUInt32.toNat.toUInt32.toInt32 :=
    (reads_readNat n.toUInt32.toNat_lt).map fun n => n.toUInt32.toInt32
  simpa using h

theorem writeCount_eq_writeInt (h : n < 2 ^ 31) : writeCount n = writeInt (.ofNat n) := by
  have hn : (Int32.ofNat n).toUInt32.toNat = n := by
    simp
    omega
  rw [writeInt, hn, writeCount]

theorem reads_readCount? (h : n < 2 ^ 31) : Reads readCount? (writeCount n) (some n) := by
  rw [writeCount_eq_writeInt h]
  refine (reads_readInt _).bind_nil ?_
  rw [Int32.toInt_ofNat_of_lt h]
  exact Reads.pure _

theorem reads_readCount?_none : Reads readCount? (writeInt (-1)) none := by
  refine (reads_readInt (-1)).bind_nil ?_
  exact Reads.pure none

end Numbers

section Texts

theorem toList_loop (bytes : ByteArray) (i : Nat) (acc : List UInt8) :
    ByteArray.toList.loop bytes i acc = acc.reverse ++ bytes.data.toList.drop i := by
  fun_induction ByteArray.toList.loop bytes i acc with
  | case1 i acc hlt ih =>
    have hget : bytes.get! i = bytes.data.toList[i] := by
      rw [Array.getElem_toList]
      exact getElem!_pos bytes.data i hlt
    rw [ih, List.reverse_cons, List.append_assoc, hget, List.singleton_append,
      ← List.drop_eq_getElem_cons]
  | case2 i acc hge =>
    rw [List.drop_eq_nil_of_le, List.append_nil]
    exact not_lt.1 hge

theorem toList_eq (bytes : ByteArray) : bytes.toList = bytes.data.toList := by
  rw [ByteArray.toList, toList_loop]
  rfl

theorem reads_readString {s : String} (h : s.utf8ByteSize < 2 ^ 32) :
    Reads readString (writeString s) s := by
  have hbytes : s.toUTF8.toList = s.toByteArray.data.toList := toList_eq _
  have hlen : s.toByteArray.data.toList.length = s.utf8ByteSize := rfl
  simp only [writeString, hbytes]
  refine (reads_readNat (by rw [hlen]; exact h)).bind ?_
  refine (reads_readBytes s.toByteArray.data.toList).bind_nil ?_
  have hvalid : (⟨s.toByteArray.data.toList.toArray⟩ : ByteArray).IsValidUTF8 := s.isValidUTF8
  simp only [String.fromUTF8?, dif_pos hvalid]
  exact Reads.pure s

end Texts

section Many

variable {α β : Type} {item : Reader α} {view : β → α} {xs : List β}

theorem decides_readMany {parts : List Bytes} {p : β → Prop}
    (h : List.Forall₂ (fun x bytes => Decides (p x) item bytes (view x)) xs parts) :
    Decides (∀ x ∈ xs, p x) (readMany item xs.length) parts.flatten (xs.map view) := by
  induction h with
  | nil => exact (Reads.pure []).decides nofun
  | cons hx _ ih =>
    rw [List.forall_mem_cons, List.flatten_cons]
    exact hx.bind (ih.before_nil (Reads.pure _))

theorem reads_readMany {write : β → Bytes} (h : ∀ x ∈ xs, Reads item (write x) (view x)) :
    Reads (readMany item xs.length) (xs.flatMap write) (xs.map view) := by
  refine (decides_readMany (p := fun _ => True) ?_).1 fun _ _ => trivial
  exact List.forall₂_map_right_iff.2 (List.forall₂_same.2 fun x hx => (h x hx).decides trivial)

theorem forall₂_of_mapM {ε : Type} {f : α → Except ε β} {xs : List α} {ys : List β}
    (h : xs.mapM f = .ok ys) : List.Forall₂ (fun x y => f x = .ok y) xs ys := by
  induction xs generalizing ys with
  | nil =>
    cases h
    exact .nil
  | cons x xs ih =>
    rw [List.mapM_cons] at h
    cases hx : f x with
    | error e => rw [hx] at h; cases h
    | ok y =>
      cases hxs : xs.mapM f with
      | error e => rw [hx, hxs] at h; cases h
      | ok ys' =>
        rw [hx, hxs] at h
        cases h
        exact .cons hx (ih hxs)

end Many

end ScriptMachine.Chunk
