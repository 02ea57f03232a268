import ScriptMachine.Proofs.Table.Visiting

namespace ScriptMachine.Table

open Value

/-- Sets the visited keys of a set to nil. -/
def clearing (s : Value → Bool) (_ : Nat) (k : Value) : Option Value :=
  if s k then some .nil else none

variable {t : Table} {s : Value → Bool} {key k v : Value} {kk : Key} {fuel n p q : Nat}

/-- Two tables with the same hash part. -/
structure SameEntries (t' t : Table) : Prop where
  entries_eq : t'.entries = t.entries
  index_eq : t'.index = t.index

theorem SameEntries.find?_eq {t' : Table} (h : SameEntries t' t) (kk : Key) :
    t'.find? kk = t.find? kk := by
  rw [find?, find?, h.entries_eq, h.index_eq]

section ArrayPart

theorem places_of_arrayPlaces {e : Value × Value} (hq : t.arrayPlaces[q]? = some e) :
    t.places[q]? = some e := by
  rw [places, List.getElem?_append_left (List.getElem?_eq_some_iff.1 hq).1, hq]

theorem key_of_arrayPlaces (hq : t.arrayPlaces[q]? = some (k, v)) :
    q < t.array.size ∧ k = .ofNat (q + 1) := by
  rw [getElem?_arrayPlaces] at hq
  obtain ⟨v', hv', h⟩ := Option.map_eq_some_iff.1 hq
  cases h
  exact ⟨(Array.getElem?_eq_some_iff.1 hv').1, rfl⟩

/-- Between the places of an array part that is not empty and its end there is a live one. -/
theorem WellFormed.exists_live (ht : t.WellFormed) (hp : p < t.array.size) :
    ∃ e, (t.arrayPlaces.drop p).find? isLive = some e := by
  obtain ⟨v, hv⟩ : ∃ v, t.array[t.array.size - 1]? = some v :=
    ⟨_, Array.getElem?_eq_getElem (by omega)⟩
  have hlive : v ≠ .nil := by
    rintro rfl
    exact ht.endsLive (by rw [Array.back?_eq_getElem?, hv])
  have hlast : (t.arrayPlaces.drop p)[t.array.size - 1 - p]? = some (.ofNat t.array.size, v) := by
    have hindex : p + (t.array.size - 1 - p) = t.array.size - 1 := by omega
    have hsucc : t.array.size - 1 + 1 = t.array.size := by omega
    rw [List.getElem?_drop, hindex, getElem?_arrayPlaces, hv, hsucc]
    rfl
  rw [← Option.isSome_iff_exists, List.find?_isSome]
  exact ⟨_, List.mem_of_getElem? hlast, isLive_iff.2 hlive⟩

/-- A visit to the array part that does not clear its end leaves the entries alone. -/
theorem WellFormed.edited_array {w : Option Value} (ht : t.WellFormed)
    (hsize : t.array.size ≤ 2 ^ 53) (hq : t.arrayPlaces[q]? = some (k, v))
    (hw : w ≠ some .nil ∨ q + 1 ≠ t.array.size) :
    SameEntries (t.edited k w) t ∧
      (t.edited k w).arrayPlaces.drop (q + 1) = t.arrayPlaces.drop (q + 1) := by
  obtain ⟨hlt, rfl⟩ := key_of_arrayPlaces hq
  have hslot : slot? (ofNat (q + 1)) = some q := slot?_ofNat (by omega)
  cases w with
  | none => exact ⟨⟨rfl, rfl⟩, rfl⟩
  | some w =>
    have hinsert := ht.insert_array hslot hlt (hw.imp_left (mt (congrArg some)))
    simp only [edited, apply_set t (isKey_of_slot? hslot), hinsert]
    refine ⟨⟨rfl, rfl⟩, ?_⟩
    rw [arrayPlaces_setIfInBounds, List.drop_set_of_lt (Nat.lt_succ_self q)]

theorem size_popWhile_clear {xs : Array Value} (h : xs.size = q + 1) :
    ((xs.setIfInBounds q .nil).popWhile isNil).size < xs.size := by
  obtain ⟨l⟩ := xs
  rcases List.eq_nil_or_concat l with rfl | ⟨l, x, rfl⟩
  · cases h
  · have hq : q = l.length := by simpa using h.symm
    have hle := (List.dropWhile_sublist isNil (l := l.reverse)).length_le
    rw [List.length_reverse] at hle
    simpa [hq, isNil, List.dropWhile_cons, Nat.lt_succ_iff] using hle

theorem WellFormed.clear_last (ht : t.WellFormed) (hsize : t.array.size ≤ 2 ^ 53)
    (hpos : 0 < t.array.size) :
    (t.edited (.ofNat t.array.size) (some .nil)).WellFormed ∧
      (t.edited (.ofNat t.array.size) (some .nil)).array.size < t.array.size ∧
      SameEntries (t.edited (.ofNat t.array.size) (some .nil)) t := by
  obtain ⟨m, hm⟩ : ∃ m, t.array.size = m + 1 := ⟨t.array.size - 1, by omega⟩
  have hslot : slot? (ofNat t.array.size) = some m := by
    rw [hm]
    exact slot?_ofNat (by omega)
  have ht' := ht.insert (isKey_of_slot? hslot) .nil
  simp only [edited, apply_set t (isKey_of_slot? hslot)]
  rcases insert_cases t (.ofNat t.array.size) .nil with ⟨-, hout⟩ | ⟨i, hi, hlt, h⟩ | ⟨hi, -, -⟩
  · have := (hout m hslot).1
    omega
  · cases hslot.symm.trans hi
    refine ⟨ht', ?_, ?_⟩ <;> rw [h]
    · exact size_popWhile_clear hm
    · exact ⟨rfl, rfl⟩
  · cases hslot.symm.trans hi
    omega

end ArrayPart

theorem traverse_of_next_error {edit : Nat → Value → Option Value} {c : Complaint}
    (h : t.next key = .error c) : traverse edit (fuel + 1) n t key = .error c := by
  rw [traverse, h]
  rfl

/-- Where the last value of the array part is cleared the traversal stands at a key without a
position. It goes on from the place that the key once had among the entries, if there is one. -/
theorem WellFormed.traverse_cleared {edit : Nat → Value → Option Value} (ht : t.WellFormed)
    (hsize : t.array.size ≤ 2 ^ 53) (hpos : 0 < t.array.size)
    (hkk : key? (.ofNat t.array.size) = some kk)
    (hfuel : (t.entries.toList.filter isLive).length < fuel) :
    traverse edit fuel n (t.edited (.ofNat t.array.size) (some .nil)) (.ofNat t.array.size) =
      match t.find? kk with
      | some (i, _) => .ok (some ((t.entries.toList.drop (i + 1)).filter isLive))
      | none => .error .strayKey := by
  obtain ⟨ht', hshort, hsame⟩ := ht.clear_last hsize hpos
  obtain ⟨m, hm⟩ : ∃ m, t.array.size = m + 1 := ⟨t.array.size - 1, by omega⟩
  have hslot : slot? (ofNat t.array.size) = some m := by
    rw [hm]
    exact slot?_ofNat (by omega)
  have hnext := next_of_find? (t := t.edited (.ofNat t.array.size) (some .nil))
    (isKey_of_slot? hslot) hkk fun i hi => by
      cases hslot.symm.trans hi
      omega
  rw [hsame.find?_eq] at hnext
  obtain ⟨fuel, rfl⟩ : ∃ m, fuel = m + 1 := ⟨fuel - 1, by omega⟩
  cases hfind : t.find? kk with
  | none => exact traverse_of_next_error (by rw [hnext, hfind])
  | some e =>
    obtain ⟨i, v⟩ := e
    have hrest := ((List.drop_sublist (i + 1) t.entries.toList).filter isLive).length_le
    rw [hfind] at hnext
    rw [ht'.traverse_eq (hshort.le.trans hsize) hnext fun h => by omega, drop_places_add,
      hsame.entries_eq, if_pos (by omega)]

theorem WellFormed.traverse_clearing (ht : t.WellFormed) (hsize : t.array.size ≤ 2 ^ 53)
    (hp : p < t.array.size) (hnext : t.next key = .ok ((t.places.drop p).find? isLive))
    (hlast : s (.ofNat t.array.size) = true) (hkk : key? (.ofNat t.array.size) = some kk)
    (hfuel : ((t.arrayPlaces.drop p).filter isLive).length +
      (t.entries.toList.filter isLive).length < fuel) :
    traverse (clearing s) fuel n t key = match t.find? kk with
      | some (i, _) => .ok (some ((t.arrayPlaces.drop p).filter isLive ++
          (t.entries.toList.drop (i + 1)).filter isLive))
      | none => .error .strayKey := by
  induction fuel generalizing t key p n with
  | zero => omega
  | succ fuel ih =>
    obtain ⟨⟨k, v⟩, hfind⟩ := ht.exists_live hp
    obtain ⟨q, hpq, hq, hlive, hfilter⟩ := exists_of_find?_drop hfind
    obtain ⟨hlt, hk⟩ := key_of_arrayPlaces hq
    have hvisit : t.next key = .ok (some (k, v)) := by
      rw [hnext, places, List.drop_append_of_le_length (by simpa using hp.le), List.find?_append,
        hfind]
      rfl
    rw [hfilter, List.length_cons] at hfuel
    rw [traverse_of_next_some hvisit, hfilter]
    by_cases hend : q + 1 = t.array.size
    · have hedit : clearing s n (.ofNat t.array.size) = some .nil := by
        rw [clearing, hlast, if_pos rfl]
      have hnone : (t.arrayPlaces.drop (q + 1)).filter isLive = [] := by
        rw [List.drop_eq_nil_of_le (by simp [hend])]
        rfl
      rw [hk, hend, hedit, ht.traverse_cleared hsize (by omega) hkk (by omega), ← hend, hnone]
      cases t.find? kk <;> rfl
    · obtain ⟨hsame, hdrop⟩ := ht.edited_array (w := clearing s n k) hsize hq (.inr hend)
      obtain ⟨ht', hsize', -, hnext'⟩ := ht.visit (w := clearing s n k) hsize
        (places_of_arrayPlaces hq) (isLive_iff.1 hlive) (.inr hend)
      rw [ih ht' (hsize'.le.trans hsize) (p := q + 1) (by omega) hnext' (by rwa [hsize'])
        (by rwa [hsize']) (by rw [hdrop, hsame.entries_eq]; omega), hsame.find?_eq, hdrop,
        hsame.entries_eq]
      cases t.find? kk <;> rfl

theorem filter_drop_eq_iff {α : Type} (l : List α) (test : α → Bool) (i : Nat) :
    (l.drop i).filter test = l.filter test ↔ ∀ a ∈ l.take i, test a = false := by
  have hsplit : l.filter test = (l.take i).filter test ++ (l.drop i).filter test := by
    rw [← List.filter_append, List.take_append_drop]
  rw [hsplit, List.self_eq_append_left, List.filter_eq_nil_iff]
  simp

/-- Whether a traversal can go on behind the array part once its last value is cleared: the key
still has a place among the entries, and no live entry stands before it. -/
def HasStalePlace (t : Table) : Prop :=
  ∃ k i v, key? (.ofNat t.length) = some k ∧ t.find? k = some (i, v) ∧
    ∀ e ∈ t.entries.toList.take (i + 1), e.2 = .nil

theorem WellFormed.traverse_clearing_iff (ht : t.WellFormed) (hsize : t.length ≤ 2 ^ 53)
    (hfuel : t.toList.length < fuel) :
    traverse (clearing s) fuel n t .nil = .ok (some t.toList) ↔
      (0 < t.length → s (.ofNat t.length) = true → t.HasStalePlace) := by
  have hnext : t.next .nil = .ok ((t.places.drop 0).find? isLive) := next_nil t
  by_cases hclear : 0 < t.length ∧ s (.ofNat t.length) = true
  · obtain ⟨hpos, hlast⟩ := hclear
    obtain ⟨kk, hkk⟩ : ∃ kk, key? (.ofNat t.length) = some kk := by
      obtain ⟨m, hm⟩ : ∃ m, t.length = m + 1 := ⟨t.length - 1, by omega⟩
      rw [hm] at hsize ⊢
      exact key?_of_isKey (isKey_of_slot? (slot?_ofNat hsize))
    rw [toList_eq_append, List.length_append] at hfuel
    rw [ht.traverse_clearing hsize hpos hnext hlast hkk hfuel, toList_eq_append, List.drop_zero]
    simp only [hpos, hlast, forall_const, HasStalePlace, hkk, Option.some.injEq,
      exists_and_left, exists_eq_left']
    cases hfind : t.find? kk with
    | none => simp
    | some e =>
      obtain ⟨i, v⟩ := e
      simp only [Except.ok.injEq, Option.some.injEq, List.append_cancel_left_eq,
        filter_drop_eq_iff, Prod.mk.injEq]
      simp [isLive, isNil_iff]
  · have hedit : 0 < t.array.size → ∀ n, clearing s n (.ofNat t.array.size) ≠ some .nil := by
      intro hpos n
      have hkeep : s (.ofNat t.array.size) = false := by
        rw [Bool.eq_false_iff]
        exact fun h => hclear ⟨hpos, h⟩
      simp [clearing, hkeep]
    refine iff_of_true ?_ fun hpos hlast => absurd ⟨hpos, hlast⟩ hclear
    rw [ht.traverse_eq hsize hnext hedit, List.drop_zero, ← toList_eq_filter_places, if_pos hfuel]

namespace Operation

/-- A traversal that clears some of the keys it visits meets every value once if and only if it
keeps the last one of the array part or can go on without it. Otherwise clearing that key takes away
the position that the traversal stands at. -/
theorem clearing_enumerates_iff (ops : List Operation) (hlen : (run ops).1.length ≤ 2 ^ 53)
    (s : Value → Bool) (fuel : Nat) (hfuel : (run ops).1.toList.length < fuel) :
    (traverse (clearing s) fuel 0 (run ops).1 .nil = .ok (some (run ops).1.toList) ↔
      (0 < (run ops).1.length → s (.ofNat (run ops).1.length) = true →
        (run ops).1.HasStalePlace)) ∧
    ((run ops).1.toList.Pairwise fun a b => a.1.rawEquals b.1 = false) ∧
    ∀ key v, (∃ k, key.toScalar.rawEquals k = true ∧ (k, v) ∈ (run ops).1.toList) ↔
      (run ops).1.get key = v ∧ v ≠ .nil :=
  have ht := WellFormed.run ops
  ⟨ht.traverse_clearing_iff hlen hfuel, ht.pairwise_toList hlen, ht.mem_toList_iff hlen⟩

/-- The key two, whose value is the last one of the array part, keeps its place among the entries,
so that a traversal can clear everything. -/
theorem migration_cleared : (run migration).1.length ≤ 2 ^ 53 ∧
    (run migration).1.toList.length < 4 ∧ (run migration).1.HasStalePlace ∧
    traverse (clearing fun _ => true) 4 0 (run migration).1 .nil =
      .ok (some (run migration).1.toList) := by
  obtain ⟨harray, hentries⟩ := run_migration
  have hlen : (run migration).1.length = 2 := by simp [length, harray]
  have hsize : (run migration).1.length ≤ 2 ^ 53 := by omega
  have hfuel : (run migration).1.toList.length < 4 := by
    simp [toList_eq_append, arrayPlaces, harray, hentries, isLive, Value.isNil]
  have hstale : (run migration).1.HasStalePlace := by
    obtain ⟨k, hk⟩ : ∃ k, key? (.ofNat 2) = some k := key?_of_isKey (by decide +kernel)
    refine ⟨k, 0, .nil, hlen ▸ hk, ?_, by simp [hentries]⟩
    exact (WellFormed.run migration).find?_eq_some_iff.2 ⟨.ofNat 2, by simp [hentries], hk⟩
  exact ⟨hsize, hfuel, hstale,
    (clearing_enumerates_iff migration hsize (fun _ => true) 4 hfuel).1.2 fun _ _ => hstale⟩

def mixture : List Operation := [push (.string "a"), setString "z" (.bool true)]

theorem run_mixture : (run mixture).1.array = #[.string "a"] ∧
    (run mixture).1.entries = #[(.string "z", .bool true)] := by
  simp [mixture, run, apply, Table.push, extend, absorb, find?, isNil, Table.setString,
    setEntry, isSparse, append]

/-- Clearing the only value of the array part leaves the traversal without a position, and the entry
behind it is not visited. -/
theorem mixture_strays : traverse (clearing fun _ => true) 3 0 (run mixture).1 .nil =
      .error .strayKey ∧ (run mixture).1.get (.string "z") = .bool true := by
  obtain ⟨harray, hentries⟩ := run_mixture
  have ht := WellFormed.run mixture
  have hone : (run mixture).1.array.size = 1 := by simp [harray]
  have hkey : key? (.ofNat 1) = some (.number 0x3FF0000000000000) := by decide +kernel
  have hmem : (.string "z", .bool true) ∈ (run mixture).1.entries := by simp [hentries]
  have hfind : (run mixture).1.find? (.number 0x3FF0000000000000) = none :=
    ht.find?_eq_none_iff.2 (by simp [hentries, key?])
  refine ⟨?_, ?_⟩
  · rw [ht.traverse_clearing (p := 0) (by omega) (by omega) (next_nil _) rfl (hone ▸ hkey)
      (by simp [arrayPlaces, harray, hentries, isLive, Value.isNil]), hfind]
  · rw [get_of_forall_slot? (k := .string "z") rfl rfl (by simp [slot?])]
    exact ht.getKey_of_mem hmem rfl

end Operation

end ScriptMachine.Table
