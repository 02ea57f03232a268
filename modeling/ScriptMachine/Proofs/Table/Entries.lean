import ScriptMachine.Proofs.Table.Keys

namespace ScriptMachine.Table

/-- The index holds the position of each entry under its key, and nothing else. -/
structure Indexed (t : Table) : Prop where
  isKey_of_mem : ∀ e ∈ t.entries, isKey e.1 = true
  position_iff : ∀ k i,
    t.index[k]? = some i ↔ ∃ e, t.entries[i]? = some e ∧ key? e.1 = some k

def live (t : Table) : Nat := t.entries.countP fun e => !e.2.isNil

variable {t : Table} {k : Key}

namespace Indexed

theorem find?_eq_some_iff (ht : t.Indexed) {i : Nat} {v : Value} :
    t.find? k = some (i, v) ↔ ∃ key, t.entries[i]? = some (key, v) ∧ key? key = some k := by
  simp only [find?, Option.bind_eq_bind, Option.bind_eq_some_iff, Option.pure_def,
    Option.some.injEq, Prod.mk.injEq, ht.position_iff]
  constructor
  · rintro ⟨_, ⟨⟨key, w⟩, he, hk⟩, ⟨_, _⟩, he', rfl, rfl⟩
    cases he.symm.trans he'
    exact ⟨key, he, hk⟩
  · rintro ⟨key, he, hk⟩
    exact ⟨i, ⟨_, he, hk⟩, _, he, rfl, rfl⟩

theorem find?_eq_none_iff (ht : t.Indexed) :
    t.find? k = none ↔ ∀ e ∈ t.entries, key? e.1 ≠ some k := by
  constructor
  · intro hnone e he hk
    obtain ⟨i, hi⟩ := Array.getElem?_of_mem he
    have hfind := ht.find?_eq_some_iff.2 ⟨e.1, hi, hk⟩
    rw [hnone] at hfind
    cases hfind
  · intro hne
    rw [Option.eq_none_iff_forall_not_mem]
    rintro ⟨i, v⟩ hfind
    obtain ⟨key, he, hk⟩ := ht.find?_eq_some_iff.1 hfind
    exact hne _ (Array.mem_of_getElem? he) hk

theorem getKey_of_mem (ht : t.Indexed) {key v : Value} (h : (key, v) ∈ t.entries)
    (hk : key? key = some k) : t.getKey k = v := by
  obtain ⟨i, hi⟩ := Array.getElem?_of_mem h
  rw [getKey, ht.find?_eq_some_iff.2 ⟨key, hi, hk⟩]

theorem getKey_eq_nil (ht : t.Indexed)
    (h : ∀ e ∈ t.entries, key? e.1 = some k → e.2 = .nil) : t.getKey k = .nil := by
  unfold getKey
  split
  · rename_i i v hfind
    obtain ⟨key, he, hk⟩ := ht.find?_eq_some_iff.1 hfind
    exact h _ (Array.mem_of_getElem? he) hk
  · rfl

theorem getKey_congr {t' : Table} (ht : t.Indexed) (ht' : t'.Indexed)
    (h : ∀ e, key? e.1 = some k → e.2 ≠ .nil → (e ∈ t.entries ↔ e ∈ t'.entries)) :
    t.getKey k = t'.getKey k := by
  by_cases hlive : ∃ e ∈ t.entries, key? e.1 = some k ∧ e.2 ≠ .nil
  · obtain ⟨e, he, hk, hv⟩ := hlive
    rw [ht.getKey_of_mem he hk, ht'.getKey_of_mem ((h e hk hv).1 he) hk]
  · push Not at hlive
    rw [ht.getKey_eq_nil hlive, ht'.getKey_eq_nil]
    intro e he hk
    by_contra hv
    exact hv (hlive e ((h e hk hv).2 he) hk)

theorem nodup_keys (ht : t.Indexed) : (t.entries.toList.map fun e => key? e.1).Nodup := by
  rw [List.nodup_iff_getElem?_ne_getElem?]
  intro i j hij hj heq
  simp only [List.length_map, Array.length_toList] at hj
  have hi : i < t.entries.size := hij.trans hj
  simp only [List.getElem?_map, Array.getElem?_toList, Array.getElem?_eq_getElem hi,
    Array.getElem?_eq_getElem hj, Option.map_some, Option.some.injEq] at heq
  obtain ⟨k, hk⟩ := key?_of_isKey (ht.isKey_of_mem _ (Array.getElem_mem hi))
  have hi' := (ht.position_iff k i).2 ⟨_, Array.getElem?_eq_getElem hi, hk⟩
  have hj' := (ht.position_iff k j).2 ⟨_, Array.getElem?_eq_getElem hj, heq ▸ hk⟩
  have := Option.some.inj (hi'.symm.trans hj')
  omega

end Indexed

section Overwrite

variable {i : Nat} {key old v : Value}

theorem getElem?_entries_overwrite (j : Nat) : (t.overwrite i old v).entries[j]? =
    if i = j then t.entries[j]?.map fun e => (e.1, v) else t.entries[j]? :=
  Array.getElem?_modify

theorem Indexed.overwrite (ht : t.Indexed) : (t.overwrite i old v).Indexed where
  isKey_of_mem e he := by
    obtain ⟨j, hj⟩ := Array.getElem?_of_mem he
    rw [getElem?_entries_overwrite] at hj
    split at hj
    · obtain ⟨e', he', rfl⟩ := Option.map_eq_some_iff.1 hj
      exact ht.isKey_of_mem e' (Array.mem_of_getElem? he')
    · exact ht.isKey_of_mem e (Array.mem_of_getElem? hj)
  position_iff k j := by
    change t.index[k]? = some j ↔ _
    rw [ht.position_iff, getElem?_entries_overwrite]
    split
    · simp
    · rfl

theorem Indexed.getKey_overwrite (ht : t.Indexed) (hfind : t.find? k = some (i, old)) (k' : Key) :
    (t.overwrite i old v).getKey k' = if k = k' then v else t.getKey k' := by
  obtain ⟨key, hi, hk⟩ := ht.find?_eq_some_iff.1 hfind
  by_cases hkk : k = k'
  · subst hkk
    have hmem : (t.overwrite i old v).entries[i]? = some (key, v) := by
      rw [getElem?_entries_overwrite, if_pos rfl, hi]
      rfl
    rw [if_pos rfl]
    exact ht.overwrite.getKey_of_mem (Array.mem_of_getElem? hmem) hk
  · rw [if_neg hkk]
    refine ht.overwrite.getKey_congr ht fun e hk' _ => ?_
    have hne : key ≠ e.1 := fun h => hkk (Option.some.inj (hk.symm.trans (h ▸ hk')))
    rw [Array.mem_iff_getElem?, Array.mem_iff_getElem?]
    refine exists_congr fun j => ?_
    rw [getElem?_entries_overwrite]
    split
    · subst i
      rw [hi]
      refine iff_of_false (fun h => ?_) (fun h => ?_) <;> cases h <;> exact hne rfl
    · rfl

theorem entries_overwrite (hi : t.entries[i]? = some (key, old)) :
    (t.overwrite i old v).entries = t.entries.setIfInBounds i (key, v) := by
  have hlt := (Array.getElem?_eq_some_iff.1 hi).1
  apply Array.ext_getElem?
  intro j
  rw [getElem?_entries_overwrite, Array.getElem?_setIfInBounds]
  split
  · subst i
    rw [hi]
    rfl
  · rfl

theorem live_overwrite (hi : t.entries[i]? = some (key, old)) :
    (t.overwrite i old v).live + (if old.isNil then 0 else 1) =
      t.live + (if v.isNil then 0 else 1) := by
  obtain ⟨hlt, hget⟩ := Array.getElem?_eq_some_iff.1 hi
  have hset := Array.countP_set (p := fun e : Value × Value => !e.2.isNil) (a := (key, v)) hlt
  rw [live, live, entries_overwrite hi, Array.setIfInBounds_def, dif_pos hlt, hset, hget]
  cases hold : old.isNil
  · have hpos : 0 < t.entries.countP fun e => !e.2.isNil :=
      Array.countP_pos_iff.2 ⟨_, Array.mem_of_getElem? hi, by simp [hold]⟩
    cases v.isNil <;> simp <;> omega
  · cases v.isNil <;> simp

end Overwrite

section Compact

def reindex (acc : Std.TreeMap Key Nat × Nat) (e : Value × Value) : Std.TreeMap Key Nat × Nat :=
  match key? e.1 with
  | some k => (acc.1.insert k acc.2, acc.2 + 1)
  | none => (acc.1, acc.2 + 1)

theorem getElem?_foldl_reindex {es : List (Value × Value)} (hkey : ∀ e ∈ es, isKey e.1 = true)
    (hnd : (es.map fun e => key? e.1).Nodup) (m : Std.TreeMap Key Nat) (n : Nat) {i : Nat} :
    (es.foldl reindex (m, n)).1[k]? = some i ↔
      (∃ j e, i = n + j ∧ es[j]? = some e ∧ key? e.1 = some k) ∨
        (∀ e ∈ es, key? e.1 ≠ some k) ∧ m[k]? = some i := by
  induction es generalizing m n with
  | nil => simp
  | cons e es ih =>
    obtain ⟨k₀, hk₀⟩ := key?_of_isKey (hkey e List.mem_cons_self)
    rw [List.map_cons, List.nodup_cons] at hnd
    have hstep : reindex (m, n) e = (m.insert k₀ n, n + 1) := by simp only [reindex, hk₀]
    rw [List.foldl_cons, hstep, ih (fun e he => hkey e (List.mem_cons_of_mem _ he)) hnd.2,
      Std.TreeMap.getElem?_insert]
    simp only [Std.LawfulEqCmp.compare_eq_iff_eq]
    by_cases hkk : k₀ = k
    · subst hkk
      have hno : ∀ e' ∈ es, key? e'.1 ≠ some k₀ := fun e' he' hk' =>
        hnd.1 (List.mem_map.2 ⟨e', he', hk'.trans hk₀.symm⟩)
      constructor
      · rintro (⟨j, e', -, he', hk'⟩ | ⟨-, hn⟩)
        · exact absurd hk' (hno e' (List.mem_of_getElem? he'))
        · have hni : n = i := by simpa using hn
          exact .inl ⟨0, e, hni.symm, rfl, hk₀⟩
      · rintro (⟨j, e', rfl, he', hk'⟩ | ⟨hall, -⟩)
        · cases j with
          | zero => exact .inr ⟨hno, by simp⟩
          | succ j => exact absurd hk' (hno e' (List.mem_of_getElem? (i := j) he'))
        · exact absurd hk₀ (hall e List.mem_cons_self)
    · rw [if_neg hkk]
      constructor
      · rintro (⟨j, e', rfl, he', hk'⟩ | ⟨hall, hm⟩)
        · exact .inl ⟨j + 1, e', by omega, he', hk'⟩
        · exact .inr ⟨List.forall_mem_cons.2 ⟨by simpa [hk₀] using hkk, hall⟩, hm⟩
      · rintro (⟨j, e', rfl, he', hk'⟩ | ⟨hall, hm⟩)
        · cases j with
          | zero =>
            cases he'
            exact absurd (Option.some.inj (hk₀.symm.trans hk')) hkk
          | succ j => exact .inl ⟨j, e', by omega, he', hk'⟩
        · exact .inr ⟨fun e' he' => hall e' (List.mem_cons_of_mem _ he'), hm⟩

theorem index_compact (t : Table) : t.compact.index =
    ((t.entries.toList.filter fun e => !e.2.isNil).foldl reindex (∅, 0)).1 := by
  rw [← Array.toList_filter, Array.foldl_toList]
  rfl

theorem Indexed.compact (ht : t.Indexed) : t.compact.Indexed where
  isKey_of_mem e he := ht.isKey_of_mem e (Array.mem_filter.1 he).1
  position_iff k i := by
    have hkey : ∀ e ∈ t.entries.toList.filter fun e => !e.2.isNil, isKey e.1 = true :=
      fun e he => ht.isKey_of_mem e (Array.mem_toList_iff.1 (List.mem_of_mem_filter he))
    have hnd := ht.nodup_keys.sublist
      ((List.filter_sublist (p := fun e : Value × Value => !e.2.isNil)).map fun e => key? e.1)
    rw [index_compact, getElem?_foldl_reindex hkey hnd]
    have hentries : t.compact.entries[i]? =
        (t.entries.toList.filter fun e => !e.2.isNil)[i]? := by
      rw [← Array.toList_filter, Array.getElem?_toList]
      rfl
    simp [hentries]

theorem Indexed.getKey_compact (ht : t.Indexed) (k : Key) : t.compact.getKey k = t.getKey k := by
  refine ht.compact.getKey_congr ht fun e _ hv => ?_
  have hlive : (!e.2.isNil) = true := by simpa [isNil_eq_false_iff] using hv
  exact Array.mem_filter.trans (and_iff_left hlive)

@[simp]
theorem live_compact (t : Table) : t.compact.live = t.live := by
  simp only [live, compact, Array.countP_filter, Bool.and_self]

end Compact

section SetEntry

variable {key v : Value}

theorem Indexed.append (ht : t.Indexed) (hk : key? key = some k) (hkey : isKey key = true)
    (hfresh : t.find? k = none) : (t.append k key v).Indexed where
  isKey_of_mem e he := by
    rcases Array.mem_push.1 he with he | rfl
    · exact ht.isKey_of_mem e he
    · exact hkey
  position_iff k' i := by
    change (t.index.insert k t.entries.size)[k']? = some i ↔
      ∃ e, (t.entries.push (key, v))[i]? = some e ∧ key? e.1 = some k'
    rw [Std.TreeMap.getElem?_insert, Array.getElem?_push]
    simp only [Std.LawfulEqCmp.compare_eq_iff_eq]
    by_cases hi : i = t.entries.size
    · have hnone : t.index[k']? ≠ some i := fun h => by
        obtain ⟨e, he, -⟩ := (ht.position_iff k' i).1 h
        rw [hi, Array.getElem?_eq_none le_rfl] at he
        cases he
      by_cases hkk : k = k' <;> simp_all
    · by_cases hkk : k = k'
      · subst hkk
        have hno := ht.find?_eq_none_iff.1 hfresh
        simp only [if_true, Option.some.injEq, hi, if_false]
        refine iff_of_false (Ne.symm hi) ?_
        rintro ⟨e, he, hk'⟩
        exact hno e (Array.mem_of_getElem? he) hk'
      · rw [if_neg hkk, if_neg hi, ht.position_iff]

theorem Indexed.getKey_append (ht : t.Indexed) (hk : key? key = some k) (hkey : isKey key = true)
    (hfresh : t.find? k = none) (k' : Key) :
    (t.append k key v).getKey k' = if k = k' then v else t.getKey k' := by
  have ht' : (t.append k key v).Indexed := ht.append hk hkey hfresh
  by_cases hkk : k = k'
  · subst hkk
    rw [if_pos rfl, ht'.getKey_of_mem Array.mem_push_self hk]
  · rw [if_neg hkk]
    refine ht'.getKey_congr ht fun e hk' _ => ?_
    have hne : e ≠ (key, v) := by
      rintro rfl
      exact hkk (Option.some.inj (hk.symm.trans hk'))
    exact Array.mem_push.trans (or_iff_left hne)

theorem Indexed.roomy (ht : t.Indexed) : (if t.isSparse then t.compact else t).Indexed := by
  split
  · exact ht.compact
  · exact ht

theorem Indexed.find?_roomy (ht : t.Indexed) (hfresh : t.find? k = none) :
    (if t.isSparse then t.compact else t).find? k = none := by
  split
  · exact ht.compact.find?_eq_none_iff.2 fun e he =>
      ht.find?_eq_none_iff.1 hfresh e (Array.mem_filter.1 he).1
  · exact hfresh

theorem Indexed.setEntry (ht : t.Indexed) (hk : key? key = some k) (hkey : isKey key = true) :
    (t.setEntry k key v).Indexed := by
  unfold Table.setEntry
  split
  · exact ht.overwrite
  · rename_i hfresh
    split
    · exact ht
    · exact ht.roomy.append hk hkey (ht.find?_roomy hfresh)

theorem Indexed.getKey_setEntry (ht : t.Indexed) (hk : key? key = some k)
    (hkey : isKey key = true) (k' : Key) :
    (t.setEntry k key v).getKey k' = if k = k' then v else t.getKey k' := by
  unfold Table.setEntry
  split
  · rename_i i old hfind
    exact ht.getKey_overwrite hfind k'
  · rename_i hfresh
    split
    · rename_i hv
      split
      · subst k'
        rw [getKey, hfresh, isNil_iff.1 hv]
      · rfl
    · rw [ht.roomy.getKey_append hk hkey (ht.find?_roomy hfresh)]
      split_ifs <;> first | rfl | exact ht.getKey_compact k'

theorem Indexed.live_setEntry_le (ht : t.Indexed) :
    (t.setEntry k key v).live ≤ t.live + (if v.isNil then 0 else 1) := by
  unfold Table.setEntry
  split
  · rename_i i old hfind
    obtain ⟨key', hi, -⟩ := ht.find?_eq_some_iff.1 hfind
    have := live_overwrite (v := v) hi
    omega
  · split
    · exact Nat.le_add_right _ _
    · rename_i hv
      have hpush : ∀ s : Table, (s.append k key v).live = s.live + 1 := by
        intro s
        simp [live, Table.append, hv]
      split <;> simp [hpush]

@[simp]
theorem array_setEntry (t : Table) (k : Key) (key v : Value) :
    (t.setEntry k key v).array = t.array := by
  unfold setEntry
  split
  · rfl
  · split_ifs <;> rfl

end SetEntry

/-- Erasing is writing nil under a key that may be absent. -/
theorem eraseEntry_eq_insertEntry (t : Table) (key : Value) :
    t.eraseEntry key = t.insertEntry key .nil := by
  unfold eraseEntry insertEntry
  cases key? key with
  | none => rfl
  | some k =>
    simp only [Option.bind_some, setEntry]
    cases t.find? k with
    | none => rfl
    | some p => rfl

theorem Indexed.getKey_of_live_eq_zero (ht : t.Indexed) (h : t.live = 0) (k : Key) :
    t.getKey k = .nil := by
  refine ht.getKey_eq_nil fun e he _ => ?_
  have := Array.countP_eq_zero.1 h e he
  simpa [isNil_iff] using this

end ScriptMachine.Table
