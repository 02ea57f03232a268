import ScriptMachine.Proofs.Table.Sequence

namespace ScriptMachine.Table

/-- The changes that can be made to a table. -/
inductive Operation where
  | set (key v : Value)
  | setString (s : String) (v : Value)
  | setInt (n : Int) (v : Value)
  | push (v : Value)
  | fill (last : Bool) (v : Value)
  | setMetatable (id : Option TableId)

/-- What a table has been told to hold: the writes made so far, the newest first, and the number of
keys that were given by position. -/
structure History where
  writes : List (Value × Value) := []
  filled : Nat := 0

namespace History

def write (h : History) (key v : Value) : History := { h with writes := (key, v) :: h.writes }

/-- The value most recently written under a key, nil if there is none. -/
def latest (h : History) (key : Value) : Value :=
  ((h.writes.find? fun w => w.1.rawEquals key).map Prod.snd).getD .nil

def writeNext (h : History) (v : Value) : History :=
  { h.write (.ofNat (h.filled + 1)) v.toScalar with filled := h.filled + 1 }

theorem latest_write (h : History) (key v b : Value) :
    (h.write key v).latest b = if key.rawEquals b then v else h.latest b := by
  unfold latest write
  rw [List.find?_cons]
  cases key.rawEquals b <;> rfl

end History

mutual

/-- The values that a constructor item stands for. Only in last position a tuple is taken apart. -/
def positional (last : Bool) : Value → List Value
  | .tuple items => if last then positionalAll items else [.tuple items]
  | v => [v]

def positionalAll : List Value → List Value
  | [] => []
  | v :: vs => positional true v ++ positionalAll vs

end

namespace Operation

def apply (t : Table) : Operation → Table
  | set key v => (t.set key v).toOption.getD t
  | setString s v => t.setString s v
  | setInt n v => t.setInt n v
  | push v => t.push v
  | fill last v => t.fill last v
  | setMetatable id => { t with metatable := id }

def record (t : Table) (h : History) : Operation → History
  | set key v => if (checkKey key.toScalar).isOk then h.write key.toScalar v else h
  | setString s v => h.write (.string s) v
  | setInt n v => h.write (.number (.ofInt n)) v
  | push v => if v.isNil then h else h.write (.ofNat (t.length + 1)) v
  | fill last v => (positional last v).foldl History.writeNext h
  | setMetatable _ => h

def run (ops : List Operation) : Table × History :=
  ops.foldl (fun s op => (op.apply s.1, op.record s.1 s.2)) ({}, {})

end Operation

/-- A table that has followed its history. -/
structure Follows (t : Table) (h : History) : Prop extends Consistent t where
  filled_eq : t.filled = h.filled
  load_le : t.load ≤ h.writes.length
  get_eq : ∀ b, isKey b = true → t.get b = h.latest b

variable {t : Table} {h : History}

theorem Follows.empty : Follows {} {} where
  isKey_of_mem := by simp
  position_iff := by simp
  freeBelow _ _ _ _ _ _ := by simp [getKey, find?]
  filled_eq := rfl
  load_le := le_rfl
  get_eq b hb := by
    obtain ⟨k, hk⟩ := key?_of_isKey hb
    rw [get_of_forall_slot? (t := {}) hk hb fun i _ => Nat.zero_le i]
    simp [getKey, find?, History.latest]

section Filled

@[simp]
theorem filled_insertEntry (t : Table) (a v : Value) :
    (t.insertEntry a v).filled = t.filled := by
  unfold insertEntry setEntry
  split
  · split
    · rfl
    · split_ifs <;> rfl
  · rfl

theorem filled_absorb (n : Nat) (t : Table) : (absorb n t).filled = t.filled := by
  induction n generalizing t with
  | zero => rfl
  | succ n ih =>
    unfold absorb
    split
    · rename_i t' h
      obtain ⟨k, i, v, -, -, -, rfl⟩ := absorbNext?_eq_some_iff.1 h
      exact ih _
    · rfl

theorem filled_extend (t : Table) (v : Value) : (t.extend v).filled = t.filled :=
  filled_absorb _ _

@[simp]
theorem filled_insert (t : Table) (a v : Value) : (t.insert a v).filled = t.filled := by
  rcases insert_cases t a v with ⟨h, -⟩ | ⟨i, -, -, h⟩ | ⟨-, -, h⟩
  · rw [h, filled_insertEntry]
  · rw [h]
    rfl
  · rw [h, filled_extend, filled_insertEntry]

end Filled

theorem toScalar_ne_tuple (v : Value) (items : List Value) : v.toScalar ≠ .tuple items := by
  fun_induction Value.toScalar v with
  | case1 => nofun
  | case2 v vs ih => exact ih
  | case3 v hnil hcons =>
    rintro rfl
    cases items with
    | nil => exact hnil rfl
    | cons w ws => exact hcons w ws rfl

theorem key?_of_not_isKey {a : Value} (ha : isKey a = false) (hs : ∀ items, a ≠ .tuple items) :
    key? a = none := by
  cases a <;> simp_all [isKey, key?]

theorem insert_of_not_isKey {a : Value} (ha : isKey a = false) (hs : ∀ items, a ≠ .tuple items)
    (t : Table) (v : Value) : t.insert a v = t := by
  have hslot : slot? a = none := by
    by_contra hne
    obtain ⟨i, hi⟩ := Option.ne_none_iff_exists'.1 hne
    rw [isKey_of_slot? hi] at ha
    cases ha
  simp only [Table.insert, hslot, insertEntry, key?_of_not_isKey ha hs]

/-- A write is recorded, also one that stores nothing because nothing can be read there. -/
theorem Follows.insert (ht : Follows t h) {a : Value} (hs : ∀ items, a ≠ .tuple items)
    (hlen : h.writes.length + 1 < 2 ^ 53) (v : Value) :
    Follows (t.insert a v) (h.write a v) := by
  have hload := ht.load_le
  cases ha : isKey a with
  | true =>
    obtain ⟨hc, hl⟩ := ht.toConsistent.insert ha v
    refine ⟨hc, (filled_insert t a v).trans ht.filled_eq, ?_, fun b hb => ?_⟩
    · exact hl.trans (Nat.succ_le_succ hload)
    · rw [ht.get_insert (by omega) ha hb, History.latest_write, ht.get_eq b hb]
      simp only [rawEquals_iff_key?_eq ha hb]
  | false =>
    have hsame : t.insert a v = t := insert_of_not_isKey ha hs t v
    refine ⟨hsame.symm ▸ ht.toConsistent, (filled_insert t a v).trans ht.filled_eq, ?_,
      fun b hb => ?_⟩
    · exact hsame.symm ▸ hload.trans (Nat.le_succ _)
    · rw [hsame, History.latest_write, rawEquals_of_not_isKey ha hb]
      exact ht.get_eq b hb

theorem Follows.push (ht : Follows t h) {v : Value} (hv : v.isNil = false)
    (hlen : h.writes.length + 1 < 2 ^ 53) :
    Follows (t.push v) (h.write (.ofNat (t.length + 1)) v) := by
  have hload := ht.load_le
  have hslot : slot? (Value.ofNat (t.length + 1)) = some t.array.size :=
    slot?_ofNat (by unfold load at hload; unfold length; omega)
  obtain ⟨hc, hl⟩ := ht.toConsistent.extend v
  simp only [Table.push, hv, Bool.false_eq_true, if_false]
  refine ⟨hc, (filled_extend t v).trans ht.filled_eq, ?_, fun b hb => ?_⟩
  · exact hl.le.trans (Nat.succ_le_succ hload)
  · rw [ht.get_extend (by omega) hb, History.latest_write, ht.get_eq b hb]
    simp only [rawEquals_iff_key?_eq (isKey_of_slot? hslot) hb, key?_eq_iff_slot?_eq hslot hb]

theorem Follows.fillOne (ht : Follows t h) (hlen : h.writes.length + 1 < 2 ^ 53) (v : Value) :
    Follows (t.fillOne v) (h.writeNext v) := by
  have hnext : Follows { t with filled := t.filled + 1 } { h with filled := h.filled + 1 } :=
    ⟨⟨⟨ht.isKey_of_mem, ht.position_iff⟩, ht.freeBelow⟩, congrArg (· + 1) ht.filled_eq, ht.load_le,
      ht.get_eq⟩
  have hfill : t.fillOne v =
      ({ t with filled := t.filled + 1 } : Table).insert (.ofNat (h.filled + 1)) v.toScalar := by
    rw [← ht.filled_eq]
    rfl
  rw [hfill]
  exact hnext.insert (by nofun) hlen v.toScalar

mutual

theorem fill_eq_foldl (t : Table) (last : Bool) (v : Value) :
    t.fill last v = (positional last v).foldl Table.fillOne t := by
  cases v with
  | tuple items =>
    cases last with
    | true => simpa [fill, positional] using fillAll_eq_foldl t items
    | false => simp [fill, positional]
  | _ => simp [fill, positional]

theorem fillAll_eq_foldl (t : Table) (vs : List Value) :
    t.fillAll vs = (positionalAll vs).foldl Table.fillOne t := by
  cases vs with
  | nil => rfl
  | cons v vs =>
    rw [fillAll, positionalAll, List.foldl_append, fillAll_eq_foldl, fill_eq_foldl]

end

theorem length_foldl_writeNext (vs : List Value) (h : History) :
    (vs.foldl History.writeNext h).writes.length = h.writes.length + vs.length := by
  induction vs generalizing h with
  | nil => rfl
  | cons v vs ih =>
    rw [List.foldl_cons, ih, List.length_cons]
    exact Nat.add_right_comm _ _ _

theorem Follows.foldl_fillOne (ht : Follows t h) (vs : List Value)
    (hlen : h.writes.length + vs.length < 2 ^ 53) :
    Follows (vs.foldl Table.fillOne t) (vs.foldl History.writeNext h) := by
  induction vs generalizing t h with
  | nil => exact ht
  | cons v vs ih =>
    rw [List.length_cons] at hlen
    refine ih (ht.fillOne (by omega) v) ?_
    change h.writes.length + 1 + vs.length < _
    omega

namespace Operation

theorem length_record_ge (op : Operation) (t : Table) (h : History) :
    h.writes.length ≤ (op.record t h).writes.length := by
  cases op with
  | fill last v => exact (length_foldl_writeNext _ _).symm ▸ Nat.le_add_right _ _
  | set key v =>
    simp only [record]
    split <;> simp [History.write]
  | push v =>
    simp only [record]
    split <;> simp [History.write]
  | _ => simp [record, History.write]

theorem set_eq (t : Table) (key v : Value) :
    t.set key v = (checkKey key.toScalar).map fun _ => t.insert key.toScalar v := by
  simp only [Table.set]
  cases checkKey key.toScalar <;> rfl

/-- Every operation does what its record says. -/
theorem follows_apply (op : Operation) (ht : Follows t h)
    (hlen : (op.record t h).writes.length < 2 ^ 53) :
    Follows (op.apply t) (op.record t h) := by
  cases op with
  | set key v =>
    simp only [apply, record, set_eq] at hlen ⊢
    cases hkey : checkKey key.toScalar with
    | error c => exact ht
    | ok u =>
      rw [hkey] at hlen
      exact ht.insert (toScalar_ne_tuple key) hlen v
  | setString s v => exact ht.insert (a := .string s) (by nofun) hlen v
  | setInt n v => exact ht.insert (by nofun) hlen v
  | push v =>
    simp only [apply, record] at hlen ⊢
    cases hv : v.isNil with
    | true => simpa [Table.push, hv] using ht
    | false =>
      rw [hv] at hlen
      exact ht.push hv hlen
  | fill last v =>
    simp only [apply, record, length_foldl_writeNext, fill_eq_foldl] at hlen ⊢
    exact ht.foldl_fillOne _ hlen
  | setMetatable id =>
    exact ⟨⟨⟨ht.isKey_of_mem, ht.position_iff⟩, ht.freeBelow⟩, ht.filled_eq, ht.load_le, ht.get_eq⟩

theorem run_concat (ops : List Operation) (op : Operation) : run (ops ++ [op]) =
    (op.apply (run ops).1, op.record (run ops).1 (run ops).2) := by
  simp [run, List.foldl_append]

theorem follows_run (ops : List Operation) (hlen : (run ops).2.writes.length < 2 ^ 53) :
    Follows (run ops).1 (run ops).2 := by
  induction ops using List.reverseRecOn with
  | nil => exact Follows.empty
  | append_singleton ops op ih =>
    rw [run_concat] at hlen ⊢
    have hle := length_record_ge op (run ops).1 (run ops).2
    exact follows_apply op (ih (lt_of_le_of_lt hle hlen)) hlen

theorem set_eq_error_iff (t : Table) (k v : Value) : (∃ c, t.set k v = .error c) ↔
    k.toScalar = .nil ∨ ∃ x, k.toScalar = .number x ∧ x.isNaN = true := by
  rw [set_eq]
  cases hk : k.toScalar with
  | number x => cases hx : x.isNaN <;> simp [checkKey, hx, Except.map, pure, Except.pure, throw,
      throwThe, MonadExceptOf.throw]
  | nil => simp [checkKey, Except.map, throw, throwThe, MonadExceptOf.throw]
  | _ => simp [checkKey, Except.map, pure, Except.pure]

/-- A table is a finite map, whatever parts its values stand in: after any operations each key holds
what was last written under it. Writing under nil or NaN, and nothing else, is refused and changes
nothing. Floats are exact below the bound on the number of writes. -/
theorem get_eq_latest_write (ops : List Operation)
    (hlen : (run ops).2.writes.length < 2 ^ 53) :
    (∀ k, isKey k.toScalar = true → (run ops).1.get k = (run ops).2.latest k.toScalar) ∧
    (∀ k v, (∃ c, (run ops).1.set k v = .error c) ↔
      k.toScalar = .nil ∨ ∃ x, k.toScalar = .number x ∧ x.isNaN = true) ∧
    (∀ k v c, (run ops).1.set k v = .error c → run (ops ++ [set k v]) = run ops) ∧
    (∀ s, (run ops).1.getString s = (run ops).1.get (.string s)) ∧
    ∀ n, (run ops).1.getInt n = (run ops).1.get (.number (.ofInt n)) := by
  refine ⟨fun k hk => ?_, set_eq_error_iff _, fun k v c hc => ?_, fun _ => rfl, fun _ => rfl⟩
  · rw [← (follows_run ops hlen).get_eq _ hk, get, get, toScalar_of_isKey hk]
  · rw [set_eq] at hc
    cases hkey : checkKey k.toScalar with
    | error c' => simp [run_concat, apply, record, set_eq, hkey, Except.map, Except.toOption,
        Except.isOk, Except.toBool]
    | ok u => rw [hkey] at hc; cases hc

/-- Writes after which the key three has moved from the hash part to the array part. -/
def crossing : List Operation :=
  [push (.string "a"), set (.ofNat 3) (.string "c"), setInt 2 (.string "b"),
    set (.number (0 : Number).negate) (.bool true), fill false (.string "z"),
    set (.ofNat 2) .nil, set .nil (.string "x")]

theorem get_crossing : (run crossing).2.writes.length < 2 ^ 53 ∧
    (run crossing).1.get (.ofNat 1) = .string "z" ∧
    (run crossing).1.get (.ofNat 2) = .nil ∧
    (run crossing).1.get (.ofNat 3) = .string "c" ∧
    (run crossing).1.get (.ofNat 0) = .bool true := by
  have hlen : (run crossing).2.writes.length < 2 ^ 53 := by decide +kernel
  have hget := (get_eq_latest_write crossing hlen).1
  exact ⟨hlen, hget _ (by decide +kernel), hget _ (by decide +kernel), hget _ (by decide +kernel),
    hget _ (by decide +kernel)⟩

end Operation

end ScriptMachine.Table
