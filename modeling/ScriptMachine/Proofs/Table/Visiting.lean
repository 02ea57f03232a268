import ScriptMachine.Proofs.Table.Representation
import ScriptMachine.Table.Traversal

namespace ScriptMachine.Table

open Value

def isLive (e : Value × Value) : Bool := !e.2.isNil

def arrayPlaces (t : Table) : List (Value × Value) :=
  (t.array.toList.zipIdx 1).map fun (v, i) => (ofNat i, v)

/-- All places of a table in the order of a traversal, the empty ones included. -/
def places (t : Table) : List (Value × Value) := t.arrayPlaces ++ t.entries.toList

variable {t : Table} {key k v w : Value} {p q : Nat}

theorem isLive_iff {e : Value × Value} : isLive e = true ↔ e.2 ≠ .nil := by
  simp [isLive, isNil_eq_false_iff]

theorem toList_eq_filter_places (t : Table) : t.toList = t.places.filter isLive := rfl

theorem toList_eq_append (t : Table) :
    t.toList = t.arrayPlaces.filter isLive ++ t.entries.toList.filter isLive :=
  List.filter_append _ _

section Places

@[simp]
theorem length_arrayPlaces (t : Table) : t.arrayPlaces.length = t.array.size := by
  simp [arrayPlaces]

theorem getElem?_arrayPlaces (t : Table) (i : Nat) :
    t.arrayPlaces[i]? = t.array[i]?.map fun v => (ofNat (i + 1), v) := by
  simp [arrayPlaces, List.getElem?_zipIdx, Nat.add_comm]
  rfl

theorem getElem?_places_of_lt (h : q < t.array.size) :
    t.places[q]? = t.array[q]?.map fun v => (ofNat (q + 1), v) := by
  rw [places, List.getElem?_append_left (by simpa using h), getElem?_arrayPlaces]

theorem getElem?_places_of_le (h : t.array.size ≤ q) :
    t.places[q]? = t.entries[q - t.array.size]? := by
  rw [places, List.getElem?_append_right (by simpa using h), length_arrayPlaces,
    Array.getElem?_toList]

theorem drop_places_add (t : Table) (i : Nat) :
    t.places.drop (t.array.size + i) = t.entries.toList.drop i := by
  rw [places, ← length_arrayPlaces t, List.drop_length_add_append]

end Places

section Next

/-- The search through positions is a search through the rest of a list. -/
theorem firstFrom_bind {α : Type} (l : List α) (test : α → Bool) {n i : Nat}
    (h : i + n = max i l.length) :
    (firstFrom (fun j => (l[j]?).any test) n i).bind (l[·]?) = (l.drop i).find? test := by
  induction n generalizing i with
  | zero =>
    rw [List.drop_eq_nil_of_le (by omega)]
    rfl
  | succ n ih =>
    have hlt : i < l.length := by omega
    rw [firstFrom, List.drop_eq_getElem_cons hlt, List.find?_cons, List.getElem?_eq_getElem hlt,
      Option.any_some]
    cases test l[i] with
    | true => simp [hlt]
    | false => exact ih (by omega)

theorem nextInEntries_eq (t : Table) (i : Nat) :
    t.nextInEntries i = (t.entries.toList.drop i).find? isLive := by
  rw [← firstFrom_bind (n := t.entries.size - i) _ _ (by simp; omega)]
  simp only [Array.getElem?_toList]
  rfl

theorem nextInArray_eq (t : Table) (i : Nat) :
    t.nextInArray i = (t.arrayPlaces.drop i).find? isLive := by
  rw [← firstFrom_bind (n := t.array.size - i) _ _ (by simp; omega)]
  have hany : (fun j : Nat => (t.arrayPlaces[j]?).any isLive) =
      fun j => (t.array[j]?).any fun v => !v.isNil := by
    funext j
    rw [getElem?_arrayPlaces, Option.any_map]
    rfl
  have hget : (fun j : Nat => t.arrayPlaces[j]?) =
      fun j => t.array[j]?.bind fun v => some (.ofNat (j + 1), v) := by
    funext j
    rw [getElem?_arrayPlaces, Option.map_eq_bind]
    rfl
  rw [hany, hget]
  rfl

theorem orElse_next (t : Table) {i : Nat} (h : i ≤ t.array.size) :
    (t.nextInArray i <|> t.nextInEntries 0) = (t.places.drop i).find? isLive := by
  rw [nextInArray_eq, nextInEntries_eq, places, List.drop_append_of_le_length (by simpa using h),
    List.find?_append, List.drop_zero]
  cases (t.arrayPlaces.drop i).find? isLive <;> rfl

theorem next_nil (t : Table) : t.next .nil = .ok (t.places.find? isLive) := by
  rw [← List.drop_zero (l := t.places), ← orElse_next t (Nat.zero_le _)]
  rfl

theorem next_of_slot? {i : Nat} (hi : slot? key = some i) (hlt : i < t.array.size) :
    t.next key = .ok ((t.places.drop (i + 1)).find? isLive) := by
  have hkey := isKey_of_slot? hi
  have hnil : key.isNil = false := by cases key <;> simp_all [isKey, isNil]
  rw [← orElse_next t hlt]
  simp only [next, toScalar_of_isKey hkey, hnil, Bool.false_eq_true, if_false, hi,
    Option.filter_some, hlt, decide_true, if_true]
  rfl

theorem next_of_find? {kk : Key} (hkey : isKey key = true) (hk : key? key = some kk)
    (hout : ∀ i, slot? key = some i → t.array.size ≤ i) :
    t.next key = match t.find? kk with
      | some (i, _) => .ok ((t.places.drop (t.array.size + (i + 1))).find? isLive)
      | none => .error .strayKey := by
  have hnil : key.isNil = false := by cases key <;> simp_all [isKey, isNil]
  have hfilter : (slot? key).filter (· < t.array.size) = none := by
    rw [Option.filter_eq_none_iff]
    intro i hi
    have := hout i hi
    simpa using this
  simp only [next, toScalar_of_isKey hkey, hnil, Bool.false_eq_true, if_false, hfilter, hk,
    Option.bind_some, nextInEntries_eq, drop_places_add]
  cases t.find? kk <;> rfl

/-- A traversal finds its way from the key of a place to the places after it. -/
theorem Indexed.next_place (ht : t.Indexed) (hsize : t.array.size ≤ 2 ^ 53)
    (hq : t.places[q]? = some (k, v))
    (hout : t.array.size ≤ q → ∀ i, slot? k = some i → t.array.size ≤ i) :
    t.next k = .ok ((t.places.drop (q + 1)).find? isLive) := by
  rcases lt_or_ge q t.array.size with hlt | hge
  · rw [getElem?_places_of_lt hlt] at hq
    obtain ⟨v', -, h⟩ := Option.map_eq_some_iff.1 hq
    cases h
    exact next_of_slot? (slot?_ofNat (by omega)) hlt
  · rw [getElem?_places_of_le hge] at hq
    have hkey : isKey k = true := ht.isKey_of_mem _ (Array.mem_of_getElem? hq)
    obtain ⟨kk, hk⟩ := key?_of_isKey hkey
    have hfind := ht.find?_eq_some_iff.2 ⟨k, hq, hk⟩
    rw [next_of_find? hkey hk (hout hge), hfind]
    have hpos : t.array.size + (q - t.array.size + 1) = q + 1 := by omega
    simp only [hpos]

end Next

section Visit

theorem popWhile_isNil_of_back? {xs : Array Value} (h : xs.back? ≠ some .nil) :
    xs.popWhile isNil = xs := by
  obtain ⟨l⟩ := xs
  rw [List.popWhile_toArray]
  induction l using List.reverseRecOn with
  | nil => rfl
  | append_singleton l x _ =>
    have hx : x ≠ .nil := by simpa using h
    rw [List.reverse_concat, List.dropWhile_cons, if_neg (mt isNil_iff.1 hx)]
    simp

theorem arrayPlaces_setIfInBounds (t : Table) (q : Nat) (w : Value) :
    arrayPlaces { t with array := t.array.setIfInBounds q w } =
      t.arrayPlaces.set q (.ofNat (q + 1), w) := by
  refine List.ext_getElem? fun j => ?_
  rw [getElem?_arrayPlaces, List.getElem?_set, Array.getElem?_setIfInBounds, length_arrayPlaces]
  split
  · subst j
    simp
  · rw [getElem?_arrayPlaces]

theorem WellFormed.insert_array (ht : t.WellFormed) (hq : slot? k = some q)
    (hlt : q < t.array.size) (hw : w ≠ .nil ∨ q + 1 ≠ t.array.size) :
    t.insert k w = { t with array := t.array.setIfInBounds q w } := by
  have hback : (t.array.setIfInBounds q w).back? ≠ some .nil := by
    have hend := ht.endsLive
    unfold EndsLive at hend
    rw [Array.back?_eq_getElem?] at hend ⊢
    rw [Array.size_setIfInBounds, Array.getElem?_setIfInBounds]
    split
    · rename_i hlast
      have hw : w ≠ .nil := hw.resolve_right (by omega)
      simpa [hlt] using hw
    · exact hend
  rcases insert_cases t k w with ⟨-, hout⟩ | ⟨i, hi, -, h⟩ | ⟨hi, -, -⟩
  · have := hout q hq
    omega
  · cases hq.symm.trans hi
    rw [h, trimArray, popWhile_isNil_of_back? hback]
  · cases hq.symm.trans hi
    omega

theorem WellFormed.insert_entry {i : Nat} (ht : t.WellFormed) (hi : t.entries[i]? = some (k, v))
    (hv : v ≠ .nil) : t.insert k w = t.overwrite i v w := by
  have hmem := Array.mem_of_getElem? hi
  obtain ⟨kk, hk⟩ := key?_of_isKey (ht.isKey_of_mem _ hmem)
  have hfind := ht.find?_eq_some_iff.2 ⟨k, hi, hk⟩
  have hpast : ∀ j, slot? k = some j → t.array.size < j := fun j hj =>
    not_le.1 fun hle => hv (ht.eq_nil_of_slot? hmem hj hle)
  rcases insert_cases t k w with ⟨h, -⟩ | ⟨j, hj, hlt, -⟩ | ⟨hj, -, -⟩
  · simp only [h, Table.insertEntry, hk, setEntry, hfind]
  · have := hpast j hj
    omega
  · have := hpast _ hj
    omega

/-- A write under the key of a live place leaves all places where they are, unless it clears the
last one of the array part. -/
theorem WellFormed.places_insert (ht : t.WellFormed) (hsize : t.array.size ≤ 2 ^ 53)
    (hq : t.places[q]? = some (k, v)) (hv : v ≠ .nil) (hw : w ≠ .nil ∨ q + 1 ≠ t.array.size) :
    (t.insert k w).array.size = t.array.size ∧ (t.insert k w).places = t.places.set q (k, w) := by
  rcases lt_or_ge q t.array.size with hlt | hge
  · have hk : k = .ofNat (q + 1) := by
      rw [getElem?_places_of_lt hlt] at hq
      obtain ⟨v', -, h⟩ := Option.map_eq_some_iff.1 hq
      exact (Prod.ext_iff.1 h).1.symm
    subst hk
    have hslot : slot? (ofNat (q + 1)) = some q := slot?_ofNat (by omega)
    rw [ht.insert_array hslot hlt hw]
    refine ⟨Array.size_setIfInBounds, ?_⟩
    rw [places, arrayPlaces_setIfInBounds, places,
      List.set_append_left _ _ (by simpa using hlt)]
  · rw [getElem?_places_of_le hge] at hq
    rw [ht.insert_entry hq hv]
    refine ⟨rfl, ?_⟩
    rw [places, entries_overwrite hq, Array.toList_setIfInBounds, places,
      List.set_append_right _ _ (by simpa using hge), length_arrayPlaces]
    rfl

def edited (t : Table) (k : Value) : Option Value → Table
  | some w => (Operation.set k w).apply t
  | none => t

theorem apply_set (t : Table) (hk : isKey k = true) (w : Value) :
    (Operation.set k w).apply t = t.insert k w := by
  have hcheck : checkKey k = .ok () := by
    cases k <;> first | rfl | simp_all [isKey, checkKey, pure, Except.pure]
  rw [Operation.apply, Operation.set_eq, toScalar_of_isKey hk, hcheck]
  rfl

theorem WellFormed.isKey_place (ht : t.WellFormed) (hsize : t.array.size ≤ 2 ^ 53)
    (hq : t.places[q]? = some (k, v)) : isKey k = true := by
  rcases lt_or_ge q t.array.size with hlt | hge
  · rw [getElem?_places_of_lt hlt] at hq
    obtain ⟨v', -, h⟩ := Option.map_eq_some_iff.1 hq
    cases h
    exact isKey_of_slot? (slot?_ofNat (by omega : q + 1 ≤ 2 ^ 53))
  · rw [getElem?_places_of_le hge] at hq
    exact ht.isKey_of_mem _ (Array.mem_of_getElem? hq)

/-- After a visit of a live place all other places are as before and the traversal goes on behind
it, unless the last value of the array part has been cleared. -/
theorem WellFormed.visit {w : Option Value} (ht : t.WellFormed) (hsize : t.array.size ≤ 2 ^ 53)
    (hq : t.places[q]? = some (k, v)) (hv : v ≠ .nil)
    (hw : w ≠ some .nil ∨ q + 1 ≠ t.array.size) :
    (t.edited k w).WellFormed ∧ (t.edited k w).array.size = t.array.size ∧
      (t.edited k w).places.drop (q + 1) = t.places.drop (q + 1) ∧
      (t.edited k w).next k = .ok (((t.edited k w).places.drop (q + 1)).find? isLive) := by
  have hkey := ht.isKey_place hsize hq
  have hout : t.array.size ≤ q → ∀ i, slot? k = some i → t.array.size ≤ i := by
    intro hge i hi
    rw [getElem?_places_of_le hge] at hq
    by_contra hlt
    exact hv (ht.eq_nil_of_slot? (Array.mem_of_getElem? hq) hi (by omega))
  cases w with
  | none => exact ⟨ht, rfl, rfl, ht.next_place hsize hq hout⟩
  | some w =>
    obtain ⟨hsize', hplaces⟩ := ht.places_insert hsize hq hv (hw.imp_left (mt (congrArg some)))
    have hq' : (t.insert k w).places[q]? = some (k, w) := by
      rw [hplaces, List.getElem?_set_self (List.getElem?_eq_some_iff.1 hq).1]
    simp only [edited, apply_set t hkey]
    refine ⟨ht.insert hkey w, hsize', ?_, ?_⟩
    · rw [hplaces, List.drop_set_of_lt (Nat.lt_succ_self q)]
    · exact (ht.insert hkey w).next_place (hsize'.le.trans hsize) hq' (by rwa [hsize'])

end Visit

/-- A traversal that goes on after a key, in at most so many steps. After each visit `edit`, given
the number of earlier visits and the key, may say what is written under the key. The result is the
list of visits, or nothing if the steps do not suffice. -/
def traverse (edit : Nat → Value → Option Value) :
    Nat → Nat → Table → Value → Except Complaint (Option (List (Value × Value)))
  | 0, _, _, _ => return none
  | fuel + 1, n, t, key => do
    match ← t.next key with
    | none => return some []
    | some (k, v) =>
      let rest ← traverse edit fuel (n + 1) (t.edited k (edit n k)) k
      return rest.map ((k, v) :: ·)

section Traverse

variable {edit : Nat → Value → Option Value} {fuel n : Nat}

theorem traverse_of_next_none (h : t.next key = .ok none) :
    traverse edit (fuel + 1) n t key = .ok (some []) := by
  rw [traverse, h]
  rfl

theorem traverse_of_next_some (h : t.next key = .ok (some (k, v))) :
    traverse edit (fuel + 1) n t key =
      (traverse edit fuel (n + 1) (t.edited k (edit n k)) k).map (·.map ((k, v) :: ·)) := by
  rw [traverse, h]
  change (do let rest ← traverse edit fuel (n + 1) (t.edited k (edit n k)) k; _) = _
  cases traverse edit fuel (n + 1) (t.edited k (edit n k)) k <;> rfl

theorem exists_of_find?_drop {α : Type} {l : List α} {test : α → Bool} {a : α}
    (h : (l.drop p).find? test = some a) : ∃ q, p ≤ q ∧ l[q]? = some a ∧ test a = true ∧
      (l.drop p).filter test = a :: (l.drop (q + 1)).filter test := by
  obtain ⟨ha, as, bs, hl, has⟩ := List.find?_eq_some_iff_append.1 h
  have hbs : l.drop (p + as.length + 1) = bs := by
    rw [Nat.add_assoc, ← List.drop_drop, hl]
    simp
  refine ⟨p + as.length, Nat.le_add_right _ _, ?_, ha, ?_⟩
  · rw [← List.getElem?_drop, hl]
    simp
  · rw [hbs, hl, List.filter_append, List.filter_cons_of_pos ha,
      List.filter_eq_nil_iff.2 fun x hx => by simpa using has x hx, List.nil_append]

/-- A traversal visits the live places that are left, whatever it writes under their keys, if the
last value of the array part is not cleared. -/
theorem WellFormed.traverse_eq (ht : t.WellFormed) (hsize : t.array.size ≤ 2 ^ 53)
    (hnext : t.next key = .ok ((t.places.drop p).find? isLive))
    (hedit : p < t.array.size → ∀ n, edit n (.ofNat t.array.size) ≠ some .nil) :
    traverse edit fuel n t key =
      .ok (if ((t.places.drop p).filter isLive).length < fuel then
        some ((t.places.drop p).filter isLive) else none) := by
  induction fuel generalizing t key p n with
  | zero => rfl
  | succ fuel ih =>
    cases hfind : (t.places.drop p).find? isLive with
    | none =>
      have hnil : (t.places.drop p).filter isLive = [] := by
        simpa [List.filter_eq_nil_iff] using List.find?_eq_none.1 hfind
      rw [traverse_of_next_none (hnext.trans (congrArg _ hfind)), hnil]
      rfl
    | some e =>
      obtain ⟨k, v⟩ := e
      obtain ⟨q, hpq, hq, hlive, hfilter⟩ := exists_of_find?_drop hfind
      have hw : edit n k ≠ some .nil ∨ q + 1 ≠ t.array.size := by
        by_contra hclear
        push Not at hclear
        obtain ⟨hclear, hlast⟩ := hclear
        rw [getElem?_places_of_lt (by omega)] at hq
        obtain ⟨v', -, h⟩ := Option.map_eq_some_iff.1 hq
        cases h
        exact hedit (by omega) n (hlast ▸ hclear)
      obtain ⟨ht', hsize', hdrop, hnext'⟩ := ht.visit hsize hq (isLive_iff.1 hlive) hw
      rw [traverse_of_next_some (hnext.trans (congrArg _ hfind)),
        ih ht' (hsize'.le.trans hsize) hnext' fun h => hsize'.symm ▸ hedit (by omega), hdrop,
        hfilter, List.length_cons]
      simp only [Except.map, Nat.add_lt_add_iff_right]
      split <;> rfl

end Traverse

section Enumeration

theorem get_congr {a b : Value} (ha : isKey a = true) (hb : isKey b = true)
    (h : key? a = key? b) : t.get a = t.get b := by
  obtain ⟨kk, hk⟩ := key?_of_isKey ha
  rw [get_eq_getD hk ha, get_eq_getD (h ▸ hk) hb, slot?_eq_of_key?_eq ha hb h]

theorem get_of_not_isKey (h : isKey key.toScalar = false) : t.get key = .nil := by
  have hkey := key?_of_not_isKey h (toScalar_ne_tuple key)
  have hslot : slot? key.toScalar = none := by
    by_contra hne
    obtain ⟨i, hi⟩ := Option.ne_none_iff_exists'.1 hne
    rw [isKey_of_slot? hi] at h
    cases h
  simp [get, hkey, hslot]

theorem WellFormed.get_place (ht : t.WellFormed) (hsize : t.array.size ≤ 2 ^ 53)
    (hq : t.places[q]? = some (k, v)) (hv : v ≠ .nil) : t.get k = v := by
  have hkey := ht.isKey_place hsize hq
  rcases lt_or_ge q t.array.size with hlt | hge
  · rw [getElem?_places_of_lt hlt] at hq
    obtain ⟨v', hv', h⟩ := Option.map_eq_some_iff.1 hq
    cases h
    exact get_of_slot? (slot?_ofNat (by omega)) hv'
  · rw [getElem?_places_of_le hge] at hq
    have hmem := Array.mem_of_getElem? hq
    obtain ⟨kk, hk⟩ := key?_of_isKey hkey
    rw [get_of_forall_slot? hk hkey, ht.getKey_of_mem hmem hk]
    intro i hi
    by_contra hlt
    exact hv (ht.eq_nil_of_slot? hmem hi (by omega))

/-- What the table holds is visited, under a key that is raw-equal to the given one. -/
theorem WellFormed.exists_place (ht : t.WellFormed) (hkey : isKey key = true)
    (hv : t.get key ≠ .nil) :
    ∃ k, ∃ q : Nat, t.places[q]? = some (k, t.get key) ∧ key? k = key? key := by
  obtain ⟨kk, hk⟩ := key?_of_isKey hkey
  rw [get_eq_getD hk hkey] at hv ⊢
  cases harray : (slot? key).bind (t.array[·]?) with
  | some v =>
    obtain ⟨i, hi, hv'⟩ := Option.bind_eq_some_iff.1 harray
    have hlt := (Array.getElem?_eq_some_iff.1 hv').1
    refine ⟨key, i, ?_, rfl⟩
    rw [getElem?_places_of_lt hlt, hv', ← eq_ofNat_of_slot? hi]
    rfl
  | none =>
    rw [harray, Option.getD_none, getKey] at hv
    rw [Option.getD_none, getKey]
    cases hfind : t.find? kk with
    | none => simp [hfind] at hv
    | some e =>
      obtain ⟨i, v⟩ := e
      obtain ⟨k, hi, hk'⟩ := ht.find?_eq_some_iff.1 hfind
      refine ⟨k, t.array.size + i, ?_, hk'.trans hk.symm⟩
      rw [getElem?_places_of_le (Nat.le_add_right _ _), Nat.add_sub_cancel_left, hi]

theorem nodup_keys_arrayPlaces (hsize : t.array.size ≤ 2 ^ 53) :
    (t.arrayPlaces.map fun e => key? e.1).Nodup := by
  rw [List.nodup_iff_getElem?_ne_getElem?]
  intro i j hij hj heq
  rw [List.length_map, length_arrayPlaces] at hj
  have hi : i < t.array.size := hij.trans hj
  simp only [List.getElem?_map, getElem?_arrayPlaces, Array.getElem?_eq_getElem hi,
    Array.getElem?_eq_getElem hj, Option.map_some, Option.some.injEq] at heq
  have hsi : slot? (ofNat (i + 1)) = some i := slot?_ofNat (by omega)
  have hsj : slot? (ofNat (j + 1)) = some j := slot?_ofNat (by omega)
  have := (key?_eq_iff_slot?_eq hsi (isKey_of_slot? hsj)).1 heq
  rw [hsj, Option.some.injEq] at this
  omega

theorem WellFormed.nodup_keys_toList (ht : t.WellFormed) (hsize : t.array.size ≤ 2 ^ 53) :
    (t.toList.map fun e => key? e.1).Nodup := by
  rw [toList_eq_append, List.map_append, List.nodup_append]
  refine ⟨(nodup_keys_arrayPlaces hsize).sublist (List.filter_sublist.map _),
    ht.nodup_keys.sublist (List.filter_sublist.map _), ?_⟩
  rintro _ h1 _ h2 heq
  obtain ⟨e, he, rfl⟩ := List.mem_map.1 h1
  obtain ⟨e', he', rfl⟩ := List.mem_map.1 h2
  obtain ⟨he', hlive⟩ := List.mem_filter.1 he'
  obtain ⟨i, hi⟩ := List.getElem?_of_mem (List.mem_of_mem_filter he)
  rw [getElem?_arrayPlaces] at hi
  obtain ⟨v, hv, rfl⟩ := Option.map_eq_some_iff.1 hi
  have hlt := (Array.getElem?_eq_some_iff.1 hv).1
  have hmem := Array.mem_toList_iff.1 he'
  have hslot := slot?_of_key?_eq (ht.isKey_of_mem _ hmem) heq (slot?_ofNat (by omega))
  exact isLive_iff.1 hlive (ht.eq_nil_of_slot? hmem hslot hlt.le)

theorem WellFormed.mem_toList_iff (ht : t.WellFormed) (hsize : t.array.size ≤ 2 ^ 53)
    (key v : Value) : (∃ k, key.toScalar.rawEquals k = true ∧ (k, v) ∈ t.toList) ↔
      t.get key = v ∧ v ≠ .nil := by
  have hget : t.get key = t.get key.toScalar ∨ isKey key.toScalar = false := by
    cases hkey : isKey key.toScalar with
    | false => exact .inr rfl
    | true => exact .inl (by rw [get, get, toScalar_of_isKey hkey])
  rw [toList_eq_filter_places]
  constructor
  · rintro ⟨k, hequal, hmem⟩
    obtain ⟨hmem, hlive⟩ := List.mem_filter.1 hmem
    obtain ⟨q, hq⟩ := List.getElem?_of_mem hmem
    have hk := ht.isKey_place hsize hq
    cases hkey : isKey key.toScalar with
    | false =>
      rw [rawEquals_of_not_isKey hkey hk] at hequal
      cases hequal
    | true =>
      have hsame := (rawEquals_iff_key?_eq hkey hk).1 hequal
      rw [hget.resolve_right (by simp [hkey]), get_congr hkey hk hsame,
        ht.get_place hsize hq (isLive_iff.1 hlive)]
      exact ⟨rfl, isLive_iff.1 hlive⟩
  · rintro ⟨rfl, hv⟩
    cases hkey : isKey key.toScalar with
    | false => exact absurd (get_of_not_isKey hkey) hv
    | true =>
      rw [hget.resolve_right (by simp [hkey])] at hv ⊢
      obtain ⟨k, q, hq, hsame⟩ := ht.exists_place hkey hv
      have hk := ht.isKey_place hsize hq
      exact ⟨k, (rawEquals_iff_key?_eq hkey hk).2 hsame.symm,
        List.mem_filter.2 ⟨List.mem_of_getElem? hq, isLive_iff.2 hv⟩⟩

theorem WellFormed.pairwise_toList (ht : t.WellFormed) (hsize : t.array.size ≤ 2 ^ 53) :
    t.toList.Pairwise fun a b => a.1.rawEquals b.1 = false := by
  have hkey : ∀ e ∈ t.toList, isKey e.1 = true := fun e he => by
    obtain ⟨q, hq⟩ := List.getElem?_of_mem (List.mem_of_mem_filter he)
    exact ht.isKey_place hsize hq
  refine (List.pairwise_map.1 (ht.nodup_keys_toList hsize)).imp_of_mem fun {a b} ha hb hne => ?_
  rw [Bool.eq_false_iff, ne_eq, rawEquals_iff_key?_eq (hkey a ha) (hkey b hb)]
  exact hne

end Enumeration

namespace Operation

/-- A traversal enumerates a table, whatever it writes under the keys that it has visited as long as
it clears none: it meets no complaint in any number of steps and ends after one step more than there
are values; it visits the values of the array part in order, then the live entries in order; it
visits no key twice; and it visits exactly what the table held at its start. The positions of the
array part are exact numbers. -/
theorem traversal_enumerates (ops : List Operation) (hlen : (run ops).1.length ≤ 2 ^ 53)
    (edit : Nat → Value → Option Value) (hedit : ∀ n k, edit n k ≠ some .nil) :
    (∀ fuel, traverse edit fuel 0 (run ops).1 .nil =
      .ok (if (run ops).1.toList.length < fuel then some (run ops).1.toList else none)) ∧
    (run ops).1.toList =
      (run ops).1.arrayPlaces.filter isLive ++ (run ops).1.entries.toList.filter isLive ∧
    ((run ops).1.toList.Pairwise fun a b => a.1.rawEquals b.1 = false) ∧
    ∀ key v, (∃ k, key.toScalar.rawEquals k = true ∧ (k, v) ∈ (run ops).1.toList) ↔
      (run ops).1.get key = v ∧ v ≠ .nil := by
  have ht := WellFormed.run ops
  refine ⟨fun fuel => ?_, toList_eq_append _, ht.pairwise_toList hlen, ht.mem_toList_iff hlen⟩
  exact ht.traverse_eq (p := 0) hlen (next_nil _) fun _ n => hedit n _

/-- The stale place of the key two is passed over. -/
theorem migration_enumerated : (run migration).1.length ≤ 2 ^ 53 ∧
    traverse (fun _ _ => some (.bool false)) 4 0 (run migration).1 .nil =
      .ok (some [(.ofNat 1, .string "a"), (.ofNat 2, .string "b"), (.string "z", .bool true)]) ∧
    (run migration).1.get (.tuple [.ofNat 2]) = .string "b" := by
  obtain ⟨harray, hentries⟩ := run_migration
  have hlen : (run migration).1.length ≤ 2 ^ 53 := by simp [length, harray]
  obtain ⟨htraverse, horder, -, hget⟩ :=
    traversal_enumerates migration hlen (fun _ _ => some (.bool false)) (by simp)
  have hlist : (run migration).1.toList =
      [(.ofNat 1, .string "a"), (.ofNat 2, .string "b"), (.string "z", .bool true)] := by
    simp [horder, arrayPlaces, harray, hentries, isLive, Value.isNil]
  have htwo : (Value.ofNat 2).rawEquals (.ofNat 2) = true := by decide +kernel
  refine ⟨hlen, ?_, ((hget (.tuple [.ofNat 2]) _).1 ⟨.ofNat 2, htwo, ?_⟩).1⟩
  · rw [htraverse, hlist]
    rfl
  · simp [hlist]

end Operation

end ScriptMachine.Table
