import ScriptMachine.Proofs.Table.Map

namespace ScriptMachine.Table

/-- Every entry holds a value or is counted as dead. -/
def Counted (t : Table) : Prop := t.dead + t.live = t.entries.size

/-- The array part does not end in nil. -/
def EndsLive (t : Table) : Prop := t.array.back? ≠ some .nil

/-- What holds of a table between two operations. -/
structure WellFormed (t : Table) : Prop extends Consistent t where
  counted : t.Counted
  endsLive : t.EndsLive

variable {t : Table} {k : Key} {a key v : Value}

section Counted

theorem Counted.overwrite {i : Nat} {old : Value} (ht : t.Counted)
    (hi : t.entries[i]? = some (key, old)) : (t.overwrite i old v).Counted := by
  have hlive := live_overwrite (v := v) hi
  have hsize : (t.overwrite i old v).entries.size = t.entries.size := Array.size_modify
  -- where the count goes down the entry is dead, so that it was counted
  have hle : (t.overwrite i old v).live ≤ (t.overwrite i old v).entries.size :=
    Array.countP_le_size
  have hdead : (t.overwrite i old v).dead = if old.isNil then if v.isNil then t.dead else t.dead - 1
      else if v.isNil then t.dead + 1 else t.dead := by
    unfold Table.overwrite
    cases old.isNil <;> cases v.isNil <;> rfl
  unfold Counted at ht ⊢
  cases hold : old.isNil <;> cases hv : v.isNil <;> simp only [hold, hv] at hlive hdead <;>
    simp at hlive hdead <;> omega

theorem counted_compact (t : Table) : t.compact.Counted := by
  have hlive : t.compact.live = t.live := live_compact t
  have hsize : t.compact.entries.size = t.live :=
    Array.countP_eq_size_filter.symm
  have hdead : t.compact.dead = 0 := rfl
  rw [Counted, hlive, hsize, hdead, Nat.zero_add]

theorem Counted.append (ht : t.Counted) (hv : v.isNil = false) : (t.append k key v).Counted := by
  have hlive : (t.append k key v).live = t.live + 1 := by
    simp [live, Table.append, hv]
  have hsize : (t.append k key v).entries.size = t.entries.size + 1 := Array.size_push _
  have hdead : (t.append k key v).dead = t.dead := rfl
  unfold Counted at ht ⊢
  omega

theorem Counted.setEntry (ht : t.Counted) (hi : t.Indexed) : (t.setEntry k key v).Counted := by
  unfold Table.setEntry
  split
  · rename_i i old hfind
    obtain ⟨key', he, -⟩ := hi.find?_eq_some_iff.1 hfind
    exact ht.overwrite he
  · split
    · exact ht
    · rename_i hv
      refine Counted.append ?_ (Bool.eq_false_iff.2 hv)
      split
      · exact counted_compact t
      · exact ht

theorem Counted.insertEntry (ht : t.Counted) (hi : t.Indexed) : (t.insertEntry a v).Counted := by
  unfold Table.insertEntry
  split
  · exact ht.setEntry hi
  · exact ht

end Counted

section EndsLive

theorem endsLive_pushArray (hv : v ≠ .nil) : (t.pushArray v).EndsLive := by
  simpa [EndsLive, pushArray] using hv

theorem endsLive_trimArray (t : Table) : t.trimArray.EndsLive := by
  obtain ⟨l, hl⟩ : ∃ l : List Value, t.array = l.toArray := ⟨t.array.toList, rfl⟩
  have hback : t.trimArray.array.back? = (l.reverse.dropWhile Value.isNil).head? := by
    simp [trimArray, hl]
  intro h
  rw [hback] at h
  have hnot := List.head?_dropWhile_not Value.isNil l.reverse
  rw [h] at hnot
  simp [Value.isNil] at hnot

end EndsLive

section Absorb

theorem Counted.of_absorbNext? {t' : Table} (ht : t.Counted) (hi : t.Indexed)
    (h : t.absorbNext? = some t') : t'.Counted ∧ t'.EndsLive := by
  obtain ⟨k, i, v, -, hfind, hv, rfl⟩ := absorbNext?_eq_some_iff.1 h
  obtain ⟨key, he, -⟩ := hi.find?_eq_some_iff.1 hfind
  exact ⟨ht.overwrite he, endsLive_pushArray hv⟩

theorem Counted.absorb {n : Nat} (ht : t.Counted) (hi : t.Indexed)
    (hfree : t.FreeBelow t.array.size) (hend : t.EndsLive) :
    (Table.absorb n t).Counted ∧ (Table.absorb n t).EndsLive := by
  induction n generalizing t with
  | zero => exact ⟨ht, hend⟩
  | succ n ih =>
    unfold Table.absorb
    split
    · rename_i t' h
      obtain ⟨hi', hfree', -, -⟩ := hi.of_absorbNext? hfree h
      obtain ⟨ht', hend'⟩ := ht.of_absorbNext? hi h
      exact ih ht' hi' hfree' hend'
    · exact ⟨ht, hend⟩

theorem WellFormed.extend (ht : t.WellFormed) (hv : v ≠ .nil) : (t.extend v).WellFormed := by
  have hcount : (t.pushArray v).Counted := ht.counted
  obtain ⟨hc, hend⟩ := hcount.absorb (n := t.entries.size) ht.toIndexed.pushArray
    ht.freeBelow_pushArray (endsLive_pushArray hv)
  exact ⟨(ht.toConsistent.extend v).1, hc, hend⟩

end Absorb

namespace WellFormed

theorem empty : WellFormed {} := ⟨Follows.empty.toConsistent, rfl, by simp [EndsLive]⟩

theorem insertEntry (ht : t.WellFormed) (ha : isKey a = true)
    (hout : ∀ i, slot? a = some i → t.array.size < i ∨ v = .nil) :
    (t.insertEntry a v).WellFormed := by
  refine ⟨ht.toConsistent.insertEntry ha hout, ht.counted.insertEntry ht.toIndexed, ?_⟩
  rw [EndsLive, array_insertEntry]
  exact ht.endsLive

theorem insert (ht : t.WellFormed) (ha : isKey a = true) (v : Value) :
    (t.insert a v).WellFormed := by
  rcases insert_cases t a v with ⟨h, hout⟩ | ⟨i, -, -, h⟩ | ⟨-, hv, h⟩
  · rw [h]
    exact ht.insertEntry ha fun i hi => (hout i hi).2
  · rw [h]
    exact ⟨ht.setArray i, ht.counted, endsLive_trimArray _⟩
  · have herased : (t.insertEntry a .nil).WellFormed := ht.insertEntry ha fun _ _ => .inr rfl
    rw [h]
    exact herased.extend hv

theorem write (ht : t.WellFormed) (hs : ∀ items, a ≠ .tuple items) (v : Value) :
    (t.insert a v).WellFormed := by
  cases ha : isKey a with
  | true => exact ht.insert ha v
  | false => rwa [insert_of_not_isKey ha hs]

theorem fillOne (ht : t.WellFormed) (v : Value) : (t.fillOne v).WellFormed := by
  have hnext : WellFormed { t with filled := t.filled + 1 } :=
    ⟨⟨⟨ht.isKey_of_mem, ht.position_iff⟩, ht.freeBelow⟩, ht.counted, ht.endsLive⟩
  exact hnext.write (by nofun) v.toScalar

theorem foldl_fillOne (ht : t.WellFormed) (vs : List Value) :
    (vs.foldl Table.fillOne t).WellFormed := by
  induction vs generalizing t with
  | nil => exact ht
  | cons v vs ih => exact ih (ht.fillOne v)

theorem apply (ht : t.WellFormed) (op : Operation) : (op.apply t).WellFormed := by
  cases op with
  | set key v =>
    simp only [Operation.apply, Operation.set_eq]
    cases checkKey key.toScalar with
    | error c => exact ht
    | ok u => exact ht.write (toScalar_ne_tuple key) v
  | setString s v => exact ht.write (a := .string s) (by simp) v
  | setInt n v => exact ht.write (by simp) v
  | push v =>
    simp only [Operation.apply, Table.push]
    split
    · exact ht
    · rename_i hv
      exact ht.extend (mt isNil_iff.2 hv)
  | fill last v =>
    simp only [Operation.apply, fill_eq_foldl]
    exact ht.foldl_fillOne _
  | setMetatable id =>
    exact ⟨⟨⟨ht.isKey_of_mem, ht.position_iff⟩, ht.freeBelow⟩, ht.counted, ht.endsLive⟩

theorem run (ops : List Operation) : (Operation.run ops).1.WellFormed := by
  induction ops using List.reverseRecOn with
  | nil => exact empty
  | append_singleton ops op ih =>
    rw [Operation.run_concat]
    exact ih.apply op

theorem dead_eq (ht : t.WellFormed) : t.dead = t.entries.countP fun e => e.2.isNil := by
  have hsplit : t.entries.size = t.live + t.entries.countP fun e => e.2.isNil := by
    rw [Array.size_eq_countP_add_countP (p := fun e : Value × Value => !e.2.isNil)]
    simp [live]
  have hcount := ht.counted
  unfold Counted at hcount
  omega

theorem eq_nil_of_slot? (ht : t.WellFormed) {e : Value × Value} (he : e ∈ t.entries) {i : Nat}
    (hi : slot? e.1 = some i) (hle : i ≤ t.array.size) : e.2 = .nil := by
  obtain ⟨k, hk⟩ := key?_of_isKey (ht.isKey_of_mem e he)
  rw [← ht.getKey_of_mem he hk]
  exact ht.freeBelow e.1 k i hi hk (Nat.lt_succ_of_le hle)

/-- Nil written under a position where nothing stands changes nothing, not even a dead entry. -/
theorem insertEntry_nil (ht : t.WellFormed) {i : Nat} (hi : slot? a = some i)
    (hle : i ≤ t.array.size) : t.insertEntry a .nil = t := by
  unfold Table.insertEntry setEntry
  split
  · rename_i k hk
    split
    · rename_i j old hfind
      obtain ⟨key, he, -⟩ := ht.find?_eq_some_iff.1 hfind
      have hold : old = .nil := by
        have hget := ht.freeBelow a k i hi hk (Nat.lt_succ_of_le hle)
        rwa [getKey, hfind] at hget
      have hsame : t.entries.modify j (fun e => (e.1, .nil)) = t.entries := by
        refine Array.ext_getElem? fun n => ?_
        rw [Array.getElem?_modify]
        split
        · rename_i hn
          rw [← hn, he, hold]
          rfl
        · rfl
      rw [hold, overwrite, hsame]
      rfl
    · rfl
  · rfl

theorem insert_of_next (ht : t.WellFormed) (hi : slot? a = some t.array.size) (v : Value) :
    t.insert a v = t.push v := by
  have hnone : t.insertEntry a .nil = t := ht.insertEntry_nil hi le_rfl
  unfold Table.insert Table.push
  rw [hi]
  cases hv : v.isNil with
  | true => simp [isNil_iff.1 hv, hnone]
  | false => simp [eraseEntry_eq_insertEntry, hnone]

end WellFormed

namespace Operation

/-- The representation of every table that operations lead to, of any size: the array part does not
end in nil; the index holds the position of each entry under its key, and no two entries share one;
the dead entries are counted, so that reviving one finds a positive count; and no live entry stands
under an integer that belongs to the array part or would extend it. -/
theorem representation (ops : List Operation) :
    (run ops).1.array.back? ≠ some .nil ∧
    (∀ e ∈ (run ops).1.entries, (key? e.1).isSome) ∧
    (∀ k i, (run ops).1.index[k]? = some i ↔
      ∃ e, (run ops).1.entries[i]? = some e ∧ key? e.1 = some k) ∧
    ((run ops).1.entries.toList.map fun e => key? e.1).Nodup ∧
    (run ops).1.dead = ((run ops).1.entries.countP fun e => e.2.isNil) ∧
    (∀ k i, (run ops).1.find? k = some (i, .nil) → 0 < (run ops).1.dead) ∧
    ∀ e ∈ (run ops).1.entries, ∀ x n, e.1 = .number x → x.toInt? = some n → 1 ≤ n →
      n ≤ (run ops).1.array.size + 1 → e.2 = .nil := by
  have ht := WellFormed.run ops
  refine ⟨ht.endsLive, fun e he => ?_, ht.position_iff, ht.nodup_keys, ht.dead_eq,
    fun k i hfind => ?_, fun e he x n hx hn hpos hle => ?_⟩
  · obtain ⟨k, hk⟩ := key?_of_isKey (ht.isKey_of_mem e he)
    rw [hk]
    rfl
  · obtain ⟨key, he, -⟩ := ht.find?_eq_some_iff.1 hfind
    rw [ht.dead_eq]
    exact Array.countP_pos_iff.2 ⟨_, Array.mem_of_getElem? he, rfl⟩
  · obtain ⟨i, rfl⟩ : ∃ i : Nat, n = ((i + 1 : Nat) : Int) := ⟨(n - 1).toNat, by omega⟩
    exact ht.eq_nil_of_slot? he (slot?_eq_some_iff.2 ⟨x, hx, hn⟩) (by omega)

/-- The length of every table that operations lead to is a border: the value there is not nil, and
the next one is. Pushing a value, be it nil, changes the table just as writing it under the next key
does. The bound keeps that key exact as a float. -/
theorem length_is_border (ops : List Operation) (hlen : (run ops).1.length < 2 ^ 53) :
    ((run ops).1.length = 0 ∨ (run ops).1.getInt (run ops).1.length ≠ .nil) ∧
    (run ops).1.getInt ((run ops).1.length + 1) = .nil ∧
    ∀ v, (run ops).1.set (.number (.ofInt ((run ops).1.length + 1))) v =
      .ok ((run ops).1.push v) := by
  have ht := WellFormed.run ops
  generalize (run ops).1 = t at ht hlen
  unfold length at hlen ⊢
  have hnext : slot? (.number (.ofInt (t.array.size + 1))) = some t.array.size :=
    slot?_ofNat (Nat.succ_le_of_lt hlen)
  refine ⟨?_, ?_, fun v => ?_⟩
  · cases hn : t.array.size with
    | zero => exact .inl rfl
    | succ n =>
      have hlast : t.array[n]? = some t.array[n] := Array.getElem?_eq_getElem (by omega)
      have hget : t.getInt ((n + 1 : Nat) : Int) = t.array[n] :=
        get_of_slot? (slot?_ofNat (by omega)) hlast
      have hend := ht.endsLive
      rw [EndsLive, Array.back?_eq_getElem?, hn, Nat.add_sub_cancel, hlast] at hend
      rw [hget]
      exact .inr fun h => hend (congrArg some h)
  · rw [getInt, ht.freeBelow.get hnext (Nat.lt_succ_self _), Array.getElem?_eq_none le_rfl]
    rfl
  · have hkey := isKey_of_slot? hnext
    rw [set_eq, toScalar_of_isKey hkey, ht.insert_of_next hnext]
    simp only [isKey, Bool.not_eq_true'] at hkey
    simp only [checkKey, hkey]
    rfl

/-- Writes after which the entry of the key two has moved to the array part. -/
def migration : List Operation :=
  [setInt 2 (.string "b"), push (.string "a"), setString "z" (.bool true)]

theorem run_migration : (run migration).1.array = #[.string "a", .string "b"] ∧
    (run migration).1.entries = #[(.ofNat 2, .nil), (.string "z", .bool true)] := by
  have hslot : slot? (.number (.ofInt 2)) = some 1 := by decide +kernel
  have hkey : key? (.number (.ofInt 2)) = some (.number 0x4000000000000000) := by decide +kernel
  have hset : apply {} (setInt 2 (.string "b")) = ({} : Table).append (.number 0x4000000000000000)
      (.number (.ofInt 2)) (.string "b") := by
    simp [apply, Table.setInt, insert, hslot, hkey, insertEntry, setEntry, find?, isSparse,
      Value.isNil]
  have hrun : (run migration).1 = apply (apply (apply {} (setInt 2 (.string "b")))
      (push (.string "a"))) (setString "z" (.bool true)) := rfl
  have hnext : key? (.ofNat 2) = some (.number 0x4000000000000000) := hkey
  have htwo : Value.ofNat 2 = .number (.ofInt 2) := rfl
  rw [hrun, hset, htwo]
  simp [apply, Table.push, extend, append, absorb, absorbNext?, hnext, find?, overwrite,
    Value.isNil, Table.setString, setEntry, isSparse]

theorem migration_represented : (run migration).1.array.back? ≠ some .nil ∧
    ∃ e ∈ (run migration).1.entries, e.1 = .ofNat 2 ∧ e.2 = .nil ∧ (run migration).1.dead = 1 := by
  obtain ⟨harray, hentries⟩ := run_migration
  obtain ⟨hend, -, -, -, hdead, -, hmoved⟩ := representation migration
  obtain ⟨v, hv⟩ : ∃ v, (Value.ofNat 2, v) ∈ (run migration).1.entries :=
    ⟨.nil, by simp [hentries]⟩
  have hsize : (2 : Int) ≤ (run migration).1.array.size + 1 := by simp [harray]
  refine ⟨hend, _, hv, rfl, hmoved _ hv _ 2 rfl (by decide +kernel) (by decide) hsize, ?_⟩
  rw [hdead, hentries]
  rfl

theorem migration_bordered : (run migration).1.length < 2 ^ 53 ∧
    (run migration).1.getInt 2 ≠ .nil ∧ (run migration).1.getInt 3 = .nil ∧
    (run migration).1.set (.number (.ofInt 3)) .nil = .ok ((run migration).1.push .nil) := by
  have hsize : (run migration).1.length = 2 := congrArg Array.size run_migration.1
  have hlen : (run migration).1.length < 2 ^ 53 := by
    rw [hsize]
    decide
  obtain ⟨hlast, hnext, hpush⟩ := length_is_border migration hlen
  rw [hsize] at hlast hnext hpush
  exact ⟨hlen, hlast.resolve_left two_ne_zero, hnext, hpush .nil⟩

end Operation

end ScriptMachine.Table
