import ScriptMachine.Proofs.Machine.Preserving

namespace ScriptMachine.Library

open Number

variable {base n : Nat} {cs : List Char} {s : String} {i : Int}

/-- A digit of a base, with letters in either case. -/
def IsDigit (base : Nat) (c : Char) : Prop := ∃ d < base, digitValue? c = some d

/-- One or more digits of a base. -/
def IsDigits (base : Nat) (cs : List Char) : Prop := cs ≠ [] ∧ ∀ c ∈ cs, IsDigit base c

def digitsValue (base : Nat) (cs : List Char) : Nat :=
  cs.foldl (fun acc c => base * acc + (digitValue? c).getD 0) 0

/-- An integer in a base: an optional minus and digits that denote a word. -/
def IsInteger (base : Nat) (cs : List Char) (i : Int) : Prop :=
  ∃ ds, IsDigits base ds ∧ digitsValue base ds < 2 ^ 63 ∧
    (cs = ds ∧ i = digitsValue base ds ∨ cs = '-' :: ds ∧ i = -digitsValue base ds)

/-- Digits in a base behind a plus, or behind a minus and one more sign. -/
def IsResignedInteger (base : Nat) (cs : List Char) (i : Int) : Prop :=
  ∃ ds, IsDigits base ds ∧
    (cs = '+' :: ds ∧ i = digitsValue base ds ∧ i < 2 ^ 63 ∨
      cs = '-' :: '+' :: ds ∧ i = -digitsValue base ds ∧ -2 ^ 63 < i ∨
      cs = '-' :: '-' :: ds ∧ i = digitsValue base ds ∧ i ≤ 2 ^ 63)

theorem digitsFrom?_eq_some_iff (acc : Nat) : digitsFrom? base acc cs = some n ↔
    (∀ c ∈ cs, IsDigit base c) ∧
      n = cs.foldl (fun acc c => base * acc + (digitValue? c).getD 0) acc := by
  induction cs generalizing acc with
  | nil => simp [digitsFrom?, eq_comm]
  | cons c cs ih =>
    cases hd : digitValue? c with
    | none => simp [digitsFrom?, IsDigit, hd]
    | some d =>
      by_cases hlt : d < base
      · simp [digitsFrom?, IsDigit, hd, hlt, ih]
      · simp [digitsFrom?, IsDigit, hd, hlt]

theorem natural?_eq_some_iff :
    natural? base cs = some n ↔ IsDigits base cs ∧ n = digitsValue base cs := by
  cases cs with
  | nil => simp [natural?, IsDigits]
  | cons c cs => simp [natural?, IsDigits, digitsValue, digitsFrom?_eq_some_iff]

theorem not_isDigits_sign (c : Char) (hc : c ∈ ['-', '+']) (u : List Char) :
    ¬ IsDigits base (c :: u) := by
  have hvalue : digitValue? c = none := by
    simp only [List.mem_cons, List.not_mem_nil, or_false] at hc
    rcases hc with rfl | rfl <;> rfl
  simp [IsDigits, IsDigit, hvalue]

theorem isWord_iff (i : Int) : isWord i = true ↔ -2 ^ 63 ≤ i ∧ i < 2 ^ 63 := by
  have hmin : Int64.minValue.toInt = -2 ^ 63 := by decide
  have hmax : Int64.maxValue.toInt = 2 ^ 63 - 1 := by decide
  simp only [isWord, hmin, hmax, Bool.and_eq_true, decide_eq_true_eq]
  omega

/-- An integer of sixty-four bits is read from digits behind an optional sign. -/
theorem integer?_eq_some_iff : integer? base cs = some i ↔ isWord i = true ∧
    ∃ ds, IsDigits base ds ∧ (cs = '-' :: ds ∧ i = -digitsValue base ds ∨
      (cs = ds ∨ cs = '+' :: ds) ∧ i = digitsValue base ds) := by
  have hunsigned := @not_isDigits_sign base
  have hread : integer? base cs = some i ↔ IsDigits base (splitSign cs).2 ∧ isWord i = true ∧
      i = if (splitSign cs).1 then -(digitsValue base (splitSign cs).2 : Int)
        else digitsValue base (splitSign cs).2 := by
    cases hn : natural? base (splitSign cs).2 with
    | none =>
      have hno : ¬ IsDigits base (splitSign cs).2 := fun h => by
        simp [natural?_eq_some_iff.2 ⟨h, rfl⟩] at hn
      simp [integer?, hn, hno]
    | some n =>
      obtain ⟨hdigits, rfl⟩ := natural?_eq_some_iff.1 hn
      grind [integer?]
  rw [hread]
  unfold splitSign
  split
  · grind
  · grind
  · grind

theorem numeralIn_eq_some_iff : numeralIn base s = some i ↔
    IsInteger base (Text.trim s.toList) i ∨ IsResignedInteger base (Text.trim s.toList) i := by
  have hunsigned := @not_isDigits_sign base '-' (by simp)
  unfold numeralIn IsInteger IsResignedInteger
  split
  next digits hdigits =>
    simp only [hdigits, Option.map_eq_some_iff, integer?_eq_some_iff, isWord_iff]
    constructor
    · rintro ⟨j, ⟨hword, ds, hds, h⟩, rfl⟩
      grind
    · rintro (⟨ds, hds, h⟩ | ⟨ds, hds, h⟩)
      all_goals exact ⟨-i, ⟨by grind, ds, hds, by grind⟩, by grind⟩
  next hminus =>
    simp only [integer?_eq_some_iff, isWord_iff]
    constructor
    · rintro ⟨hword, ds, hds, h⟩
      grind
    · rintro (⟨ds, hds, h⟩ | ⟨ds, hds, h⟩)
      all_goals exact ⟨by grind, ds, hds, by grind⟩

theorem isWord_of_isInteger (h : IsInteger base cs i) : isWord i = true := by
  rw [isWord_iff]
  obtain ⟨ds, -, hlt, ⟨-, rfl⟩ | ⟨-, rfl⟩⟩ := h <;> omega

/-- Only the least word cannot be negated. -/
theorem resigned_isWord_iff (h : IsResignedInteger base cs i) :
    isWord i = true ↔ i ≠ 2 ^ 63 := by
  rw [isWord_iff]
  obtain ⟨ds, -, ⟨-, rfl, hlt⟩ | ⟨-, rfl, hlt⟩ | ⟨-, rfl, hle⟩⟩ := h <;> omega

theorem numeralBase_apply {v : Value} {b : Int64} (hv : v.toInteger? = some b)
    (hb : 2 ≤ b ∧ b ≤ 36) (m : Machine) : numeralBase v m = (.ok b.toInt.toNat, m) := by
  rw [numeralBase, hv]
  simp only [hb, and_self, if_true]
  rfl

theorem tonumber_apply {a : Arguments} {b : Int64} (hs : a.get 0 = .string s)
    (hbase : (a.get 1).toInteger? = some b) (hb : 2 ≤ b ∧ b ≤ 36) (m : Machine) : tonumber a m =
      (numeralIn b.toInt.toNat s).elim (.ok .nil, m) fun n =>
        if isWord n then (.ok (.number (.ofInt n)), m) else (.error .crash, m) := by
  have hlength : 0 < a.length := by
    rcases a with ⟨_ | ⟨v, vs⟩, method⟩
    · cases hs
    · exact Nat.succ_pos _
  have hpresent : a.present 0 "tonumber" = .ok (.string s) := by
    rw [Arguments.present, if_pos hlength, hs]
    rfl
  have hnil : (a.get 1).isNil = false := by
    cases h : a.get 1 with
    | nil => rw [h] at hbase; cases hbase
    | _ => rfl
  have hstart : tonumber a m = _ :=
    Exec.bind_ok (show Exec.ofExcept (a.present 0 "tonumber") m = _ by rw [hpresent]; rfl)
  rw [hstart, hnil, if_neg Bool.false_ne_true, Exec.bind_ok (numeralBase_apply hbase hb m)]
  cases hn : numeralIn b.toInt.toNat s with
  | none =>
    simp only [hn]
    rfl
  | some n =>
    simp only [hn, Option.elim_some]
    split_ifs
    · rfl
    · rfl

/-- A text is converted in a base to the signed value of its digits if it is an optional minus and
digits that denote a word. Any other text gives nil, unless it has a plus or a second sign: then it is
converted too, or the conversion stops the machine because the least word cannot be negated. -/
theorem tonumber_in_base {a : Arguments} {b : Int64} (hs : a.get 0 = .string s)
    (hbase : (a.get 1).toInteger? = some b) (hb : 2 ≤ b ∧ b ≤ 36) (m : Machine) :
    (∀ i, IsInteger b.toInt.toNat (Text.trim s.toList) i →
      tonumber a m = (.ok (.number (.ofInt i)), m)) ∧
    ((∀ i, ¬ IsInteger b.toInt.toNat (Text.trim s.toList) i) →
      (tonumber a m = (.ok .nil, m) ↔
        ∀ i, ¬ IsResignedInteger b.toInt.toNat (Text.trim s.toList) i)) ∧
    (∀ i, IsResignedInteger b.toInt.toNat (Text.trim s.toList) i → i ≠ 2 ^ 63 →
      tonumber a m = (.ok (.number (.ofInt i)), m)) ∧
    ((tonumber a m).1 = .error .crash ↔
      IsResignedInteger b.toInt.toNat (Text.trim s.toList) (2 ^ 63)) := by
  rw [tonumber_apply hs hbase hb]
  have hread (i : Int) := @numeralIn_eq_some_iff b.toInt.toNat s i
  cases hn : numeralIn b.toInt.toNat s with
  | none =>
    have hno (i : Int) := not_or.1 (mt (hread i).2 (by rw [hn]; simp))
    exact ⟨fun i h => ((hno i).1 h).elim, fun _ => iff_of_true rfl fun i => (hno i).2,
      fun i h => ((hno i).2 h).elim, iff_of_false (by simp) (hno _).2⟩
  | some n =>
    have hsame {i : Int} := fun h => Option.some.inj (hn.symm.trans ((hread i).2 h))
    rw [Option.elim_some]
    by_cases hword : isWord n = true
    · rw [if_pos hword]
      refine ⟨fun i h => by rw [hsame (.inl h)], fun hno => iff_of_false (fun h => by cases h) ?_,
        fun i h _ => by rw [hsame (.inr h)], iff_of_false (fun h => by cases h) fun h => ?_⟩
      · exact fun hno' => hno' n (((hread n).1 hn).resolve_left (hno n))
      · exact (resigned_isWord_iff h).1 (hsame (.inr h) ▸ hword) rfl
    · have hresigned := ((hread n).1 hn).resolve_left fun h => hword (isWord_of_isInteger h)
      have hleast : n = 2 ^ 63 := not_not.1 (mt (resigned_isWord_iff hresigned).2 hword)
      rw [if_neg hword]
      refine ⟨fun i h => ?_, fun _ => iff_of_false (fun h => by cases h) fun hno => hno n hresigned,
        fun i h hi => ?_, iff_of_true rfl (hleast ▸ hresigned)⟩
      · exact (hword (hsame (.inl h) ▸ isWord_of_isInteger h)).elim
      · exact (hi (hsame (.inr h) ▸ hleast)).elim

/-- The arguments of a conversion. -/
def converting (s : String) (base : Nat) : Arguments := ⟨[.string s, .ofNat base], false⟩

theorem converting_base (s : String) : ((converting s 16).get 1).toInteger? = some 16 := by
  have hbase : (Value.ofNat 16).toInteger? = some 16 := by decide +kernel
  exact hbase

theorem tonumber_in_base_sixteen :
    tonumber (converting " -Ff " 16) {} = (.ok (.number (.ofInt (-255))), {}) := by
  obtain ⟨hdigits, hvalue⟩ :=
    natural?_eq_some_iff.1 (show natural? 16 ['F', 'f'] = some 255 by decide)
  have hinteger : IsInteger 16 (Text.trim " -Ff ".toList) (-255) :=
    ⟨['F', 'f'], hdigits, by omega, .inr ⟨by decide, by omega⟩⟩
  exact (tonumber_in_base rfl (converting_base _) (by decide) {}).1 (-255) hinteger

/-- A second minus is accepted, and the least word behind two of them stops the machine. -/
theorem tonumber_resigned :
    (∀ i, ¬ IsInteger 16 (Text.trim "--5".toList) i) ∧
      tonumber (converting "--5" 16) {} = (.ok (.number (.ofInt 5)), {}) ∧
      (tonumber (converting "--8000000000000000" 16) {}).1 = .error .crash := by
  have hnumeral (s : String) : tonumber (converting s 16) {} = _ :=
    tonumber_apply rfl (converting_base s) (by decide) {}
  have hsixteen : (16 : Int64).toInt.toNat = 16 := by decide
  refine ⟨?_, ?_, ?_⟩
  · have htrim : Text.trim "--5".toList = ['-', '-', '5'] := by decide
    rintro i ⟨ds, hds, -, ⟨h, -⟩ | ⟨h, -⟩⟩ <;> rw [htrim] at h
    · exact not_isDigits_sign '-' (by simp) _ (h ▸ hds)
    · exact not_isDigits_sign '-' (by simp) _ ((List.cons.inj h).2 ▸ hds)
  · have hread : numeralIn 16 "--5" = some 5 := by decide
    rw [hnumeral, hsixteen, hread, Option.elim_some, if_pos (by decide)]
  · have hread : numeralIn 16 "--8000000000000000" = some (2 ^ 63) := by decide +kernel
    rw [hnumeral, hsixteen, hread, Option.elim_some, if_neg (by decide)]

end ScriptMachine.Library
