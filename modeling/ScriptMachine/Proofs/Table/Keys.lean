import ScriptMachine.Proofs.Number.Integers
import ScriptMachine.Table.Basic

namespace ScriptMachine.Table

open Number

variable {a b v : Value} {i : Nat}

theorem isNil_iff : v.isNil = true ↔ v = .nil := by
  cases v <;> simp [Value.isNil]

theorem isNil_eq_false_iff : v.isNil = false ↔ v ≠ .nil := by
  rw [← Bool.not_eq_true, isNil_iff]

section Order

theorem Key.rank_injective : Function.Injective Key.rank := by
  rintro (_ | _ | ⟨_ | _⟩ | ⟨⟨_⟩⟩ | ⟨⟨_⟩⟩ | ⟨⟨_⟩⟩ | ⟨⟨_⟩⟩ | ⟨⟨_⟩⟩)
    (_ | _ | ⟨_ | _⟩ | ⟨⟨_⟩⟩ | ⟨⟨_⟩⟩ | ⟨⟨_⟩⟩ | ⟨⟨_⟩⟩ | ⟨⟨_⟩⟩) h <;> simp_all [rank, UInt64.toNat_inj]

instance : Std.TransOrd Key :=
  inferInstanceAs (Std.TransCmp (compareLex (compareOn fun k : Key => k.rank.1)
    (compareLex (compareOn fun k => k.rank.2.1) (compareOn fun k => k.rank.2.2))))

instance : Std.LawfulEqOrd Key where
  eq_of_compare h := by
    obtain ⟨hkind, hrest⟩ := Ordering.then_eq_eq.1 h
    obtain ⟨hnumber, htext⟩ := Ordering.then_eq_eq.1 hrest
    exact Key.rank_injective (Prod.ext (Std.LawfulEqOrd.eq_of_compare hkind)
      (Prod.ext (Std.LawfulEqOrd.eq_of_compare hnumber) (Std.LawfulEqOrd.eq_of_compare htext)))

end Order

/-- Whether a table can hold something under a value: nil, NaN and requests are no keys, and a
tuple stands for another value. -/
def isKey : Value → Bool
  | .nil | .tuple _ | .yieldRequest _ _ | .tailCall _ => false
  | .number x => !x.isNaN
  | _ => true

theorem key?_of_isKey (h : isKey a = true) : ∃ k, key? a = some k := by
  cases a <;> simp_all [isKey, key?]

theorem key?_number {x : Number} (h : x.isNaN = false) :
    key? (.number x) = some (.number (if x.bits.toNat % 2 ^ 63 = 0 then 0 else x.bits)) := by
  have hz := beq_zero_iff h
  by_cases hx : x.bits.toNat % 2 ^ 63 = 0
  · have hb := hz.2 hx
    simp only [key?, h, hb, hx, if_true, Bool.false_eq_true, if_false]
  · have hb : (x == 0) = false := by
      rw [Bool.eq_false_iff, ne_eq, hz]
      exact hx
    simp only [key?, h, hb, hx, Bool.false_eq_true, if_false]

theorem key?_number_inj {x y : Number} (hx : x.isNaN = false) (hy : y.isNaN = false) :
    key? (.number x) = key? (.number y) ↔
      x.bits = y.bits ∨ x.bits.toNat % 2 ^ 63 = 0 ∧ y.bits.toNat % 2 ^ 63 = 0 := by
  rw [key?_number hx, key?_number hy, Option.some.injEq, Key.number.injEq]
  by_cases h1 : x.bits.toNat % 2 ^ 63 = 0 <;> by_cases h2 : y.bits.toNat % 2 ^ 63 = 0
  · simp only [h1, h2, if_true, true_and, or_true]
  · have hne : y.bits ≠ 0 := fun h => h2 (by rw [h]; rfl)
    have hxy : x.bits ≠ y.bits := fun h => h2 (by rw [← h]; exact h1)
    simp only [h1, h2, if_true, if_false, and_false, or_false, hne.symm, hxy]
  · have hne : x.bits ≠ 0 := fun h => h1 (by rw [h]; rfl)
    have hxy : x.bits ≠ y.bits := fun h => h1 (by rw [h]; exact h2)
    simp only [h1, h2, if_true, if_false, false_and, or_false, hne, hxy]
  · simp only [h1, h2, if_false, false_and, or_false]

/-- Keys tell apart exactly what raw equality tells apart. -/
theorem rawEquals_iff_key?_eq (ha : isKey a = true) (hb : isKey b = true) :
    a.rawEquals b = true ↔ key? a = key? b := by
  cases a <;> cases b <;> simp_all only [isKey, Bool.false_eq_true]
  case number.number x y =>
    have hx : x.isNaN = false := by simpa using ha
    have hy : y.isNaN = false := by simpa using hb
    rw [key?_number_inj hx hy, ← beq_iff hx hy]
    simp only [Value.rawEquals]
  all_goals simp_all [Value.rawEquals, key?]

theorem rawEquals_of_not_isKey (ha : isKey a = false) (hb : isKey b = true) :
    a.rawEquals b = false := by
  cases a <;> cases b <;> simp_all only [isKey, Value.rawEquals, Bool.false_eq_true, reduceCtorEq]
  case number.number x y =>
    have hx : x.isNaN = true := by simpa using ha
    simp only [BEq.beq, equals, comparable, hx, Bool.not_true, Bool.false_and]

theorem toScalar_of_isKey (h : isKey a = true) : a.toScalar = a := by
  cases a <;> first | rfl | simp [isKey] at h

theorem slot?_eq_some_iff :
    slot? a = some i ↔ ∃ x, a = .number x ∧ x.toInt? = some ((i + 1 : Nat) : Int) := by
  cases a
  case number x =>
    simp only [slot?, Value.number.injEq, exists_eq_left']
    split
    · rename_i n hn
      rw [hn]
      simp only [Option.some.injEq, Int.ofNat_eq_natCast, Nat.cast_inj, Nat.succ.injEq]
    · rename_i hne
      refine iff_of_false (by simp) fun h => hne i h
  all_goals simp [slot?]

/-- A position of the sequence has one value as its key, however large it is. -/
theorem eq_ofNat_of_slot? (h : slot? a = some i) : a = Value.ofNat (i + 1) := by
  obtain ⟨x, rfl, hx⟩ := slot?_eq_some_iff.1 h
  exact congrArg Value.number (ofNat_of_toInt? (Nat.succ_pos i) hx).symm

theorem isKey_of_slot? (h : slot? a = some i) : isKey a = true := by
  obtain ⟨x, rfl, hx⟩ := slot?_eq_some_iff.1 h
  obtain ⟨-, hlt, -⟩ := (toInt?_eq_some_iff (Nat.succ_pos i)).1 hx
  have hnan : ¬ x.isNaN = true := by
    rw [isNaN_iff]
    unfold leadingField at hlt
    omega
  simpa [isKey] using hnan

theorem key?_eq_of_slot?_eq (ha : slot? a = some i) (hb : slot? b = some i) : key? a = key? b := by
  rw [eq_ofNat_of_slot? ha, eq_ofNat_of_slot? hb]

theorem slot?_of_key?_eq (hb : isKey b = true) (h : key? a = key? b) (hi : slot? a = some i) :
    slot? b = some i := by
  have ha := isKey_of_slot? hi
  obtain ⟨x, rfl, hx⟩ := slot?_eq_some_iff.1 hi
  have hxn : x.isNaN = false := by simpa [isKey] using ha
  obtain ⟨y, rfl⟩ : ∃ y, b = .number y := by
    cases b <;> simp_all [key?, isKey]
  have hyn : y.isNaN = false := by simpa [isKey] using hb
  obtain ⟨hpos, hlt, -⟩ := (toInt?_eq_some_iff (Nat.succ_pos i)).1 hx
  rcases (key?_number_inj hxn hyn).1 h with hbits | ⟨hzero, -⟩
  · cases x
    cases y
    cases hbits
    exact hi
  · -- neither zero has a position
    unfold leadingField at hpos hlt
    omega

theorem slot?_eq_of_key?_eq (ha : isKey a = true) (hb : isKey b = true) (h : key? a = key? b) :
    slot? a = slot? b :=
  Option.ext fun _ => ⟨slot?_of_key?_eq hb h, slot?_of_key?_eq ha h.symm⟩

theorem key?_eq_iff_slot?_eq (hi : slot? a = some i) (hb : isKey b = true) :
    key? a = key? b ↔ slot? b = some i :=
  ⟨fun h => slot?_of_key?_eq hb h hi, fun h => key?_eq_of_slot?_eq hi h⟩

theorem slot?_ofNat (h : i + 1 ≤ 2 ^ 53) : slot? (Value.ofNat (i + 1)) = some i :=
  slot?_eq_some_iff.2 ⟨_, rfl, toInt?_ofNat h⟩

end ScriptMachine.Table
