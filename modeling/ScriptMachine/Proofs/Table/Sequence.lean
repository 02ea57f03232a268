import ScriptMachine.Proofs.Table.Entries

namespace ScriptMachine.Table

variable {n i : Nat}

/-- The hash part holds nothing under the first positions of the sequence. -/
def FreeBelow (t : Table) (n : Nat) : Prop :=
  ∀ a k i, slot? a = some i → key? a = some k → i < n → t.getKey k = .nil

/-- What holds of a table between two operations. The position after the array part is free as
well: a value under it would have been moved. -/
structure Consistent (t : Table) : Prop extends Indexed t where
  freeBelow : t.FreeBelow (t.array.size + 1)

/-- The number of values that a table holds, nils of the array part included. -/
def load (t : Table) : Nat := t.array.size + t.live

variable {t : Table} {a b v : Value}

theorem get_eq_getD {k : Key} (hk : key? b = some k) (hb : isKey b = true) :
    t.get b = ((slot? b).bind (t.array[·]?)).getD (t.getKey k) := by
  simp only [get, toScalar_of_isKey hb, hk]
  cases (slot? b).bind (t.array[·]?) <;> rfl

theorem get_of_slot? {w : Value} (hi : slot? b = some i) (hw : t.array[i]? = some w) :
    t.get b = w := by
  obtain ⟨k, hk⟩ := key?_of_isKey (isKey_of_slot? hi)
  rw [get_eq_getD hk (isKey_of_slot? hi), hi, Option.bind_some, hw, Option.getD_some]

theorem get_of_forall_slot? {k : Key} (hk : key? b = some k) (hb : isKey b = true)
    (hout : ∀ i, slot? b = some i → t.array.size ≤ i) : t.get b = t.getKey k := by
  rw [get_eq_getD hk hb]
  cases hi : slot? b with
  | none => rfl
  | some i => rw [Option.bind_some, Array.getElem?_eq_none (hout i hi), Option.getD_none]

theorem FreeBelow.get (ht : t.FreeBelow n) (hi : slot? b = some i) (hlt : i < n) :
    t.get b = t.array[i]?.getD .nil := by
  obtain ⟨k, hk⟩ := key?_of_isKey (isKey_of_slot? hi)
  rw [get_eq_getD hk (isKey_of_slot? hi), hi, Option.bind_some, ht b k i hi hk hlt]

section InsertEntry

theorem Indexed.insertEntry (ht : t.Indexed) (ha : isKey a = true) :
    (t.insertEntry a v).Indexed := by
  obtain ⟨k, hk⟩ := key?_of_isKey ha
  simp only [Table.insertEntry, hk]
  exact ht.setEntry hk ha

theorem Indexed.get_insertEntry (ht : t.Indexed) (ha : isKey a = true) (hb : isKey b = true)
    (hout : ∀ i, slot? a = some i → t.array.size ≤ i) :
    (t.insertEntry a v).get b = if key? a = key? b then v else t.get b := by
  obtain ⟨k, hk⟩ := key?_of_isKey ha
  obtain ⟨k', hk'⟩ := key?_of_isKey hb
  simp only [Table.insertEntry, hk, hk', Option.some.injEq]
  rw [get_eq_getD hk' hb, array_setEntry, ht.getKey_setEntry hk ha]
  by_cases hkk : k = k'
  · have hslot := slot?_eq_of_key?_eq hb ha (by rw [hk, hk', hkk])
    have hnone : (slot? b).bind (t.array[·]?) = none := by
      rw [hslot]
      cases hi : slot? a with
      | none => rfl
      | some i => exact Array.getElem?_eq_none (hout i hi)
    rw [hnone, if_pos hkk, if_pos hkk, Option.getD_none]
  · rw [if_neg hkk, if_neg hkk, get_eq_getD hk' hb]

theorem Consistent.insertEntry (ht : t.Consistent) (ha : isKey a = true)
    (hout : ∀ i, slot? a = some i → t.array.size < i ∨ v = .nil) :
    (t.insertEntry a v).Consistent where
  toIndexed := ht.toIndexed.insertEntry ha
  freeBelow b k i hi hb hlt := by
    obtain ⟨k', hk'⟩ := key?_of_isKey ha
    simp only [Table.insertEntry, hk', array_setEntry] at hlt ⊢
    rw [ht.getKey_setEntry hk' ha]
    split
    · subst k'
      have hai := slot?_of_key?_eq ha (hb.trans hk'.symm) hi
      rcases hout i hai with hsize | hv
      · omega
      · exact hv
    · exact ht.freeBelow b k i hi hb hlt

end InsertEntry

section ArrayPart

theorem getD_popWhile_isNil (xs : Array Value) (i : Nat) :
    (xs.popWhile Value.isNil)[i]?.getD .nil = xs[i]?.getD .nil := by
  obtain ⟨l⟩ := xs
  rw [List.popWhile_toArray]
  induction l using List.reverseRecOn with
  | nil => simp
  | append_singleton l x ih =>
    rw [List.reverse_concat, List.dropWhile_cons]
    split
    · rename_i hx
      rw [ih, List.getElem?_toArray, List.getElem?_toArray, List.getElem?_append]
      split
      · rfl
      · rename_i hle
        have hnil := isNil_iff.1 hx
        rw [List.getElem?_eq_none (not_lt.1 hle), List.getElem?_singleton]
        split_ifs <;> simp [hnil]
    · simp

theorem size_popWhile_le (xs : Array Value) : (xs.popWhile Value.isNil).size ≤ xs.size := by
  obtain ⟨l⟩ := xs
  simpa using (List.dropWhile_sublist Value.isNil (l := l.reverse)).length_le

theorem Consistent.setArray (ht : t.Consistent) (i : Nat) :
    (trimArray { t with array := t.array.setIfInBounds i v }).Consistent where
  isKey_of_mem := ht.isKey_of_mem
  position_iff := ht.position_iff
  freeBelow b k j hj hk hlt := by
    have hsize := size_popWhile_le (t.array.setIfInBounds i v)
    rw [Array.size_setIfInBounds] at hsize
    exact ht.freeBelow b k j hj hk (by simp only [trimArray] at hlt; omega)

theorem load_setArray_le (i : Nat) :
    (trimArray { t with array := t.array.setIfInBounds i v }).load ≤ t.load := by
  have hsize := size_popWhile_le (t.array.setIfInBounds i v)
  rw [Array.size_setIfInBounds] at hsize
  exact Nat.add_le_add_right hsize _

theorem Consistent.get_setArray (ht : t.Consistent) (hi : slot? a = some i) (hlt : i < t.array.size)
    (hb : isKey b = true) : (trimArray { t with array := t.array.setIfInBounds i v }).get b =
      if key? a = key? b then v else t.get b := by
  have hsize := size_popWhile_le (t.array.setIfInBounds i v)
  rw [Array.size_setIfInBounds] at hsize
  simp only [key?_eq_iff_slot?_eq hi hb]
  by_cases hout : ∀ j, slot? b = some j → t.array.size ≤ j
  · obtain ⟨k, hk⟩ := key?_of_isKey hb
    have hne : slot? b ≠ some i := fun h => absurd (hout i h) (by omega)
    rw [if_neg hne, get_of_forall_slot? hk hb hout,
      get_of_forall_slot? hk hb fun j hj => hsize.trans (hout j hj)]
    rfl
  · push Not at hout
    obtain ⟨j, hj, hjlt⟩ := hout
    -- the hash part is unchanged, so it stays free below the old end of the array part
    have hfree : (trimArray { t with array := t.array.setIfInBounds i v }).FreeBelow
        (t.array.size + 1) := ht.freeBelow
    rw [hfree.get hj (by omega), ht.freeBelow.get hj (by omega), trimArray,
      getD_popWhile_isNil, Array.getElem?_setIfInBounds, hj]
    by_cases hij : i = j
    · subst hij
      simp [hlt]
    · simp [hij, Ne.symm hij]

end ArrayPart

section Extend

variable {t' : Table}

/-- The table with one more value in the array part. -/
def pushArray (t : Table) (v : Value) : Table := { t with array := t.array.push v }

theorem size_array_pushArray (t : Table) (v : Value) :
    (t.pushArray v).array.size = t.array.size + 1 := Array.size_push _

theorem Indexed.pushArray (ht : t.Indexed) : (t.pushArray v).Indexed :=
  ⟨ht.isKey_of_mem, ht.position_iff⟩

theorem FreeBelow.pushArray (ht : t.FreeBelow n) : (t.pushArray v).FreeBelow n := ht

theorem get_pushArray (hb : isKey b = true) :
    (t.pushArray v).get b = if slot? b = some t.array.size then v else t.get b := by
  obtain ⟨k, hk⟩ := key?_of_isKey hb
  rw [get_eq_getD hk hb, get_eq_getD hk hb]
  cases slot? b with
  | none => rfl
  | some i =>
    simp only [pushArray, Option.bind_some, Array.getElem?_push, Option.some.injEq]
    split <;> rfl

theorem absorbNext?_eq_some_iff : t.absorbNext? = some t' ↔
    ∃ k i v, key? (Value.ofNat (t.array.size + 1)) = some k ∧ t.find? k = some (i, v) ∧
      v ≠ .nil ∧ t' = (t.overwrite i v .nil).pushArray v := by
  simp only [absorbNext?, Option.bind_eq_bind, Option.bind_eq_some_iff, Prod.exists]
  refine exists_congr fun k => ⟨?_, ?_⟩
  · rintro ⟨hk, i, v, hfind, h⟩
    split at h
    · cases h
    · rename_i hv
      exact ⟨i, v, hk, hfind, mt isNil_iff.2 hv, (Option.some.inj h).symm⟩
  · rintro ⟨i, v, hk, hfind, hv, rfl⟩
    refine ⟨hk, i, v, hfind, ?_⟩
    rw [if_neg (mt isNil_iff.1 hv)]
    rfl

theorem Indexed.of_absorbNext? (ht : t.Indexed) (hfree : t.FreeBelow t.array.size)
    (h : t.absorbNext? = some t') : t'.Indexed ∧ t'.FreeBelow t'.array.size ∧
      t'.array.size = t.array.size + 1 ∧ t'.live + 1 = t.live := by
  obtain ⟨k, i, v, hk, hfind, hv, rfl⟩ := absorbNext?_eq_some_iff.1 h
  obtain ⟨key, hi, -⟩ := ht.find?_eq_some_iff.1 hfind
  refine ⟨ht.overwrite.pushArray, ?_, size_array_pushArray _ _, ?_⟩
  · rw [size_array_pushArray]
    refine FreeBelow.pushArray fun b k' j hj hk' hlt => ?_
    rw [ht.getKey_overwrite hfind]
    split
    · rfl
    · rename_i hne
      have hjn : j ≠ t.array.size := by
        rintro rfl
        rw [← eq_ofNat_of_slot? hj, hk'] at hk
        exact hne (Option.some.inj hk).symm
      exact hfree b k' j hj hk' (lt_of_le_of_ne (Nat.le_of_lt_succ hlt) hjn)
  · have := live_overwrite (v := .nil) hi
    rwa [isNil_eq_false_iff.2 hv] at this

theorem Indexed.get_of_absorbNext? (ht : t.Indexed) (hsize : t.array.size + 1 ≤ 2 ^ 53)
    (h : t.absorbNext? = some t') (hb : isKey b = true) : t'.get b = t.get b := by
  obtain ⟨k, i, v, hk, hfind, hv, rfl⟩ := absorbNext?_eq_some_iff.1 h
  obtain ⟨k', hk'⟩ := key?_of_isKey hb
  have hiff := key?_eq_iff_slot?_eq (slot?_ofNat hsize) hb
  rw [hk, hk', Option.some.injEq] at hiff
  rw [get_pushArray hb]
  change (if slot? b = some t.array.size then _ else _) = _
  split
  · rename_i hj
    have hout : ∀ j, slot? b = some j → t.array.size ≤ j := by
      simp only [hj, Option.some.injEq, forall_eq', le_refl]
    rw [get_of_forall_slot? hk' hb hout, ← hiff.2 hj, getKey, hfind]
  · rename_i hj
    rw [get_eq_getD hk' hb, get_eq_getD hk' hb, ht.getKey_overwrite hfind, if_neg (mt hiff.1 hj)]
    rfl

theorem FreeBelow.of_absorbNext? (hfree : t.FreeBelow t.array.size) (h : t.absorbNext? = none) :
    t.FreeBelow (t.array.size + 1) := by
  intro b k j hj hk hlt
  by_cases hjn : j = t.array.size
  · subst hjn
    rw [eq_ofNat_of_slot? hj] at hk
    by_contra hv
    obtain ⟨⟨i, v⟩, hfind⟩ : ∃ p, t.find? k = some p := by
      cases hf : t.find? k with
      | none => exact absurd (by rw [getKey, hf]) hv
      | some p => exact ⟨p, rfl⟩
    have hvv : v ≠ .nil := by
      rwa [getKey, hfind] at hv
    have := absorbNext?_eq_some_iff.2 ⟨k, i, v, hk, hfind, hvv, rfl⟩
    rw [h] at this
    cases this
  · exact hfree b k j hj hk (by omega)

/-- Each round moves a live entry, so that as many rounds as there are entries are enough. -/
theorem Indexed.absorb (ht : t.Indexed) (hfree : t.FreeBelow t.array.size) (hlive : t.live ≤ n) :
    (absorb n t).Consistent ∧ (absorb n t).load = t.load := by
  induction n generalizing t with
  | zero =>
    have hnil := ht.getKey_of_live_eq_zero (Nat.le_zero.1 hlive)
    exact ⟨⟨ht, fun _ k _ _ _ _ => hnil k⟩, rfl⟩
  | succ n ih =>
    unfold Table.absorb
    split
    · rename_i t' h
      obtain ⟨ht', hfree', hsize', hlive'⟩ := ht.of_absorbNext? hfree h
      have hload : t'.load = t.load := by
        unfold load
        omega
      obtain ⟨hc, hl⟩ := ih ht' hfree' (by omega)
      exact ⟨hc, hl.trans hload⟩
    · rename_i h
      exact ⟨⟨ht, hfree.of_absorbNext? h⟩, rfl⟩

theorem Indexed.get_absorb (ht : t.Indexed) (hfree : t.FreeBelow t.array.size)
    (hload : t.load < 2 ^ 53) (hb : isKey b = true) : (Table.absorb n t).get b = t.get b := by
  induction n generalizing t with
  | zero => rfl
  | succ n ih =>
    unfold Table.absorb
    split
    · rename_i t' h
      obtain ⟨ht', hfree', hsize', hlive'⟩ := ht.of_absorbNext? hfree h
      unfold load at hload
      rw [ih ht' hfree' (by unfold load; omega), ht.get_of_absorbNext? (by omega) h hb]
    · rfl

theorem Consistent.freeBelow_pushArray (ht : t.Consistent) :
    (t.pushArray v).FreeBelow (t.pushArray v).array.size := by
  rw [size_array_pushArray]
  exact ht.freeBelow.pushArray

theorem load_pushArray (t : Table) (v : Value) : (t.pushArray v).load = t.load + 1 := by
  rw [load, size_array_pushArray]
  exact Nat.add_right_comm _ _ _

theorem Consistent.extend (ht : t.Consistent) (v : Value) :
    (t.extend v).Consistent ∧ (t.extend v).load = t.load + 1 := by
  obtain ⟨hc, hl⟩ := ht.toIndexed.pushArray.absorb (n := t.entries.size) ht.freeBelow_pushArray
    Array.countP_le_size
  exact ⟨hc, hl.trans (load_pushArray t v)⟩

theorem Consistent.get_extend (ht : t.Consistent) (hload : t.load + 1 < 2 ^ 53)
    (hb : isKey b = true) :
    (t.extend v).get b = if slot? b = some t.array.size then v else t.get b := by
  rw [← load_pushArray t v] at hload
  rw [← get_pushArray hb]
  exact ht.toIndexed.pushArray.get_absorb ht.freeBelow_pushArray hload hb

end Extend

section Insert

theorem array_insertEntry (t : Table) (a v : Value) : (t.insertEntry a v).array = t.array := by
  unfold insertEntry
  split
  · exact array_setEntry t _ a v
  · rfl

theorem Indexed.load_insertEntry_le (ht : t.Indexed) :
    (t.insertEntry a v).load ≤ t.load + (if v.isNil then 0 else 1) := by
  rw [load, array_insertEntry, load, Nat.add_assoc]
  refine Nat.add_le_add_left ?_ _
  unfold Table.insertEntry
  split
  · exact ht.live_setEntry_le
  · exact Nat.le_add_right _ _

theorem load_add_le (n : Nat) (v : Value) : n + (if v.isNil then 0 else 1) ≤ n + 1 := by
  split <;> omega

/-- The three places that a write can go to: an entry, a position of the array part, or the
position after it. -/
theorem insert_cases (t : Table) (a v : Value) :
    (t.insert a v = t.insertEntry a v ∧
      ∀ i, slot? a = some i → t.array.size ≤ i ∧ (t.array.size < i ∨ v = .nil)) ∨
    (∃ i, slot? a = some i ∧ i < t.array.size ∧
      t.insert a v = trimArray { t with array := t.array.setIfInBounds i v }) ∨
    (slot? a = some t.array.size ∧ v ≠ .nil ∧
      t.insert a v = (t.insertEntry a .nil).extend v) := by
  unfold insert
  split
  · rename_i hnone
    exact .inl ⟨rfl, fun i hi => absurd hi (by simp [hnone])⟩
  · rename_i i hi
    split
    · rename_i hlt
      exact .inr (.inl ⟨i, hi, hlt, rfl⟩)
    · rename_i hge
      split
      · rename_i h
        obtain ⟨rfl, hv⟩ := h
        have hv : v ≠ .nil := isNil_eq_false_iff.1 (by simpa using hv)
        exact .inr (.inr ⟨hi, hv, by rw [eraseEntry_eq_insertEntry]⟩)
      · rename_i h
        refine .inl ⟨rfl, fun j hj => ?_⟩
        cases hi.symm.trans hj
        refine ⟨not_lt.1 hge, ?_⟩
        by_cases hv : v = .nil
        · exact .inr hv
        · have hne : i ≠ t.array.size := fun hEq => h ⟨hEq, by simp [isNil_eq_false_iff.2 hv]⟩
          exact .inl (by omega)

theorem Consistent.insert (ht : t.Consistent) (ha : isKey a = true) (v : Value) :
    (t.insert a v).Consistent ∧ (t.insert a v).load ≤ t.load + 1 := by
  rcases insert_cases t a v with ⟨h, hout⟩ | ⟨i, -, -, h⟩ | ⟨-, -, h⟩
  · rw [h]
    exact ⟨ht.insertEntry ha fun i hi => (hout i hi).2,
      ht.load_insertEntry_le.trans (load_add_le _ _)⟩
  · rw [h]
    exact ⟨ht.setArray i, (load_setArray_le i).trans (Nat.le_succ _)⟩
  · have hload : (t.insertEntry a .nil).load ≤ t.load := ht.load_insertEntry_le
    obtain ⟨hc, hl⟩ := (ht.insertEntry (v := .nil) ha fun _ _ => .inr rfl).extend v
    rw [h]
    exact ⟨hc, by omega⟩

/-- A write changes the value of its key and no other, wherever the values stand. -/
theorem Consistent.get_insert (ht : t.Consistent) (hload : t.load + 1 < 2 ^ 53)
    (ha : isKey a = true) (hb : isKey b = true) :
    (t.insert a v).get b = if key? a = key? b then v else t.get b := by
  rcases insert_cases t a v with ⟨h, hout⟩ | ⟨i, hi, hlt, h⟩ | ⟨hi, -, h⟩
  · rw [h]
    exact ht.get_insertEntry ha hb fun i hi => (hout i hi).1
  · rw [h]
    exact ht.get_setArray hi hlt hb
  · -- erasing first changes nothing that can be read: the position after the end is free
    have hload' : (t.insertEntry a .nil).load ≤ t.load := ht.load_insertEntry_le
    have hout : ∀ j, slot? a = some j → t.array.size ≤ j := by
      simp only [hi, Option.some.injEq, forall_eq', le_refl]
    rw [h, (ht.insertEntry (v := .nil) ha fun _ _ => .inr rfl).get_extend (by omega) hb,
      array_insertEntry, ht.get_insertEntry ha hb hout]
    simp only [key?_eq_iff_slot?_eq hi hb]
    split <;> rfl

end Insert

end ScriptMachine.Table
