import Mathlib
import ScriptMachine.Proofs.Machine.Conversions

namespace ScriptMachine.Number

open Library

variable {base : Nat} {cs ds t : List Char} {c : Char}

/-- The texts of an optional sign. -/
def signs : List (List Char) := [[], ['-'], ['+']]

def IsExponent (cs : List Char) : Prop :=
  cs = [] ∨ ∃ e ∈ ['e', 'E'], ∃ sign ∈ signs, ∃ ds, cs = e :: (sign ++ ds) ∧ IsDigits 10 ds

/-- Digits with an optional point, at least one digit among them, and an optional exponent. -/
def IsDecimal (cs : List Char) : Prop :=
  ∃ whole fraction tail, IsDigits 10 (whole ++ fraction) ∧ IsExponent tail ∧
    (cs = whole ++ '.' :: (fraction ++ tail) ∨ fraction = [] ∧ cs = whole ++ tail)

/-- Hexadecimal digits behind their mark, denoting a word. -/
def IsHexadecimal (cs : List Char) : Prop :=
  ∃ x ∈ ['x', 'X'], ∃ ds, cs = '0' :: x :: ds ∧ IsDigits 16 ds ∧ digitsValue 16 ds < 2 ^ 63

/-- A numeral: an optional sign, then a hexadecimal or a decimal. -/
def IsNumeral (cs : List Char) : Prop :=
  ∃ sign ∈ signs, ∃ u, cs = sign ++ u ∧ (IsHexadecimal u ∨ IsDecimal u)

def IsWord (cs : List Char) : Prop :=
  String.ofList (cs.map Char.toLower) ∈ ["inf", "infinity", "nan"]

/-- A hexadecimal with a sign behind its mark. -/
def IsSignedHexadecimal (cs : List Char) : Prop :=
  ∃ x ∈ ['x', 'X'], ∃ ds, IsDigits 16 ds ∧
    (cs = '0' :: x :: '-' :: ds ∧ digitsValue 16 ds ≤ 2 ^ 63 ∨
      cs = '0' :: x :: '+' :: ds ∧ digitsValue 16 ds < 2 ^ 63)

/-- A decimal or a word with a sign in front. -/
def IsSignedDecimal (cs : List Char) : Prop :=
  ∃ b ∈ ['-', '+'], ∃ u, cs = b :: u ∧ (IsWord u ∨ IsDecimal u)

/-- A text with two signs in front of a decimal or a word, or with a sign behind the mark of a
hexadecimal. -/
def IsResigned (cs : List Char) : Prop :=
  (∃ a ∈ ['-', '+'], ∃ u, cs = a :: u ∧ IsSignedDecimal u) ∨
    ∃ sign ∈ signs, ∃ u, cs = sign ++ u ∧ IsSignedHexadecimal u

theorem isDigit_ten_iff : IsDigit 10 c ↔ c.isDigit = true := by
  have hdigit : c.isDigit = true ↔ '0' ≤ c ∧ c ≤ '9' := by
    simp [Char.isDigit, Char.le_def, UInt32.le_iff_toNat_le]
  rw [hdigit, IsDigit, digitValue?]
  split_ifs with hd hlower hupper
  · have hle : c.toNat ≤ 57 := hd.2
    have hzero : '0'.toNat = 48 := rfl
    exact iff_of_true ⟨_, by omega, rfl⟩ hd
  · simp [hd]
  · simp [hd]
  · simp [hd]

theorem splitSign_unsigned (h : ∀ c ∈ ['-', '+'], ∀ u, cs ≠ c :: u) : splitSign cs = (false, cs) := by
  unfold splitSign
  split
  · exact (h '-' (by simp) _ rfl).elim
  · exact (h '+' (by simp) _ rfl).elim
  · rfl

/-- What follows an optional sign, if it cannot begin with one itself. -/
theorem exists_sign_iff {P : List Char → Prop} (hP : ∀ c ∈ ['-', '+'], ∀ u, ¬ P (c :: u)) :
    (∃ sign ∈ signs, ∃ u, cs = sign ++ u ∧ P u) ↔ P (splitSign cs).2 := by
  have hunsigned (u : List Char) (hu : P u) : splitSign u = (false, u) :=
    splitSign_unsigned fun c hc v h => hP c hc v (h ▸ hu)
  constructor
  · simp only [signs, List.mem_cons, List.not_mem_nil, or_false]
    rintro ⟨sign, rfl | rfl | rfl, u, rfl, hu⟩
    · rwa [hunsigned cs hu]
    · exact hu
    · exact hu
  · intro h
    unfold splitSign at h
    split at h
    · exact ⟨['-'], by simp [signs], _, rfl, h⟩
    · exact ⟨['+'], by simp [signs], _, rfl, h⟩
    · exact ⟨[], by simp [signs], _, rfl, h⟩

section Decimals

theorem splitDigits_append (hds : ∀ c ∈ ds, c.isDigit = true) (ht : ∀ c ∈ t.head?, c.isDigit = false) :
    splitDigits (ds ++ t) = (ds, t) := by
  have hstop : t.takeWhile Char.isDigit = [] ∧ t.dropWhile Char.isDigit = t := by
    cases t with
    | nil => exact ⟨rfl, rfl⟩
    | cons c t => simp [ht c rfl]
  rw [splitDigits, List.span_eq_takeWhile_dropWhile, List.takeWhile_append_of_pos hds,
    List.dropWhile_append_of_pos hds, hstop.1, hstop.2, List.append_nil]

theorem natural?_isSome_iff : (natural? base cs).isSome ↔ IsDigits base cs := by
  simp [Option.isSome_iff_exists, natural?_eq_some_iff]

theorem exponent?_isSome_iff : (exponent? cs).isSome ↔ IsExponent cs := by
  cases cs with
  | nil => simp [exponent?, IsExponent]
  | cons c cs =>
    by_cases hc : c = 'e' ∨ c = 'E'
    · have hexp : (exponent? (c :: cs)).isSome = (natural? 10 (splitSign cs).2).isSome := by
        simp only [exponent?, hc, if_true]
        cases natural? 10 (splitSign cs).2 <;> rfl
      rw [hexp, natural?_isSome_iff, ← exists_sign_iff not_isDigits_sign]
      constructor
      · rintro ⟨sign, hsign, ds, rfl, hds⟩
        exact .inr ⟨c, by simpa using hc, sign, hsign, ds, rfl, hds⟩
      · rintro (h | ⟨e, -, sign, hsign, ds, h, hds⟩)
        · cases h
        · exact ⟨sign, hsign, ds, (List.cons.inj h).2, hds⟩
    · simp only [exponent?, hc, if_false, Option.isSome_none, Bool.false_eq_true, false_iff]
      rintro (h | ⟨e, he, sign, -, ds, h, -⟩)
      · cases h
      · obtain ⟨rfl, -⟩ := List.cons.inj h
        exact hc (by simpa using he)

/-- An exponent continues no digits and is no point. -/
theorem IsExponent.head (h : IsExponent cs) : ∀ c ∈ cs.head?, c.isDigit = false ∧ c ≠ '.' := by
  rcases h with rfl | ⟨e, he, sign, -, ds, rfl, -⟩
  · simp
  · simp only [List.mem_cons, List.not_mem_nil, or_false] at he
    rcases he with rfl | rfl <;> simp

theorem unsignedDecimal?_point {whole after fraction tail : List Char}
    (h : splitDigits cs = (whole, '.' :: after)) (hafter : splitDigits after = (fraction, tail)) :
    (unsignedDecimal? cs).isSome ↔ IsDigits 10 (whole ++ fraction) ∧ IsExponent tail := by
  rw [← natural?_isSome_iff, ← exponent?_isSome_iff]
  simp only [unsignedDecimal?, h, hafter]
  cases natural? 10 (whole ++ fraction) <;> cases exponent? tail <;> simp

theorem unsignedDecimal?_plain {whole tail : List Char} (h : splitDigits cs = (whole, tail))
    (htail : '.' ∉ tail.head?) :
    (unsignedDecimal? cs).isSome ↔ IsDigits 10 whole ∧ IsExponent tail := by
  rw [← natural?_isSome_iff, ← exponent?_isSome_iff]
  have hplain : unsignedDecimal? cs = (natural? 10 (whole ++ [])).bind fun digits =>
      (exponent? tail).bind fun exponent => some (ofDecimal digits (exponent - 0)) := by
    simp only [unsignedDecimal?, h]
    cases tail with
    | nil => rfl
    | cons c tail =>
      have hc : c ≠ '.' := fun hc => htail (by simp [hc])
      split
      next heq => exact (hc (List.cons.inj heq).1).elim
      next => rfl
  rw [hplain, List.append_nil]
  cases natural? 10 whole <;> cases exponent? tail <;> simp

theorem unsignedDecimal?_isSome_iff : (unsignedDecimal? cs).isSome ↔ IsDecimal cs := by
  have hsplit {cs whole rest : List Char} (h : splitDigits cs = (whole, rest)) : cs = whole ++ rest := by
    rw [splitDigits, List.span_eq_takeWhile_dropWhile, Prod.mk.injEq] at h
    rw [← h.1, ← h.2, List.takeWhile_append_dropWhile]
  constructor
  · intro h
    obtain ⟨whole, rest, hfirst⟩ : ∃ whole rest, splitDigits cs = (whole, rest) := ⟨_, _, rfl⟩
    by_cases hpoint : '.' ∈ rest.head?
    · obtain ⟨after, rfl⟩ := List.head?_eq_some_iff.1 hpoint
      obtain ⟨fraction, tail, hsecond⟩ : ∃ fraction tail, splitDigits after = (fraction, tail) := ⟨_, _, rfl⟩
      obtain ⟨hds, htail⟩ := (unsignedDecimal?_point hfirst hsecond).1 h
      exact ⟨whole, fraction, tail, hds, htail, .inl (by rw [hsplit hfirst, hsplit hsecond])⟩
    · obtain ⟨hds, htail⟩ := (unsignedDecimal?_plain hfirst hpoint).1 h
      exact ⟨whole, [], rest, by rwa [List.append_nil], htail, .inr ⟨rfl, hsplit hfirst⟩⟩
  · rintro ⟨whole, fraction, tail, hds, htail, h⟩
    have hall : ∀ c ∈ whole ++ fraction, c.isDigit = true := fun c hc => isDigit_ten_iff.1 (hds.2 c hc)
    have hwhole := fun c hc => hall c (List.mem_append_left _ hc)
    have hfraction := fun c hc => hall c (List.mem_append_right _ hc)
    rcases h with rfl | ⟨rfl, rfl⟩
    · exact (unsignedDecimal?_point (splitDigits_append hwhole (by simp))
        (splitDigits_append hfraction fun c hc => (htail.head c hc).1)).2 ⟨hds, htail⟩
    · rw [List.append_nil] at hds
      exact (unsignedDecimal?_plain (splitDigits_append hwhole fun c hc => (htail.head c hc).1)
        fun hc => (htail.head _ hc).2 rfl).2 ⟨hds, htail⟩

/-- A decimal begins with a digit or a point, and is no hexadecimal. -/
theorem IsDecimal.head (h : IsDecimal cs) : ∃ c rest, cs = c :: rest ∧ (c.isDigit = true ∨ c = '.') := by
  obtain ⟨whole, fraction, tail, hds, -, h⟩ := h
  cases whole with
  | nil =>
    rcases h with rfl | ⟨rfl, -⟩
    · exact ⟨'.', _, rfl, .inr rfl⟩
    · exact (hds.1 rfl).elim
  | cons c whole =>
    have hc := isDigit_ten_iff.1 (hds.2 c List.mem_cons_self)
    rcases h with rfl | ⟨-, rfl⟩
    · exact ⟨c, _, rfl, .inl hc⟩
    · exact ⟨c, _, rfl, .inl hc⟩

theorem not_isDecimal_sign (c : Char) (hc : c ∈ ['-', '+']) (u : List Char) : ¬ IsDecimal (c :: u) := by
  intro h
  obtain ⟨_, _, heq, hhead⟩ := h.head
  rw [← (List.cons.inj heq).1] at hhead
  simp only [List.mem_cons, List.not_mem_nil, or_false] at hc
  rcases hc with rfl | rfl <;> simp at hhead

theorem not_isDecimal_mark {x : Char} (hx : x ∈ ['x', 'X']) (u : List Char) : ¬ IsDecimal ('0' :: x :: u) := by
  rw [← unsignedDecimal?_isSome_iff]
  simp only [List.mem_cons, List.not_mem_nil, or_false] at hx
  rcases hx with rfl | rfl <;> exact Bool.false_ne_true

end Decimals

section Numerals

theorem word?_isSome_iff : (word? cs).isSome ↔ IsWord cs := by
  simp only [word?, IsWord, List.mem_cons, List.not_mem_nil, or_false, ← or_assoc]
  split_ifs with hinf hnan
  · simp [hinf]
  · simp [hnan]
  · simp [hinf, hnan]

theorem decimal?_isSome_iff :
    (decimal? cs).isSome ↔ IsWord (splitSign cs).2 ∨ IsDecimal (splitSign cs).2 := by
  rw [← word?_isSome_iff, ← unsignedDecimal?_isSome_iff]
  simp only [decimal?]
  cases word? (splitSign cs).2 <;> simp

/-- A word begins with a letter. -/
theorem IsWord.head (h : IsWord (c :: cs)) : c.isAlpha = true := by
  by_contra halpha
  have hlower : c.toLower = c := by
    rw [Char.isAlpha, Bool.or_eq_true, not_or] at halpha
    exact dif_neg fun h => halpha.1 (by simpa [Char.isUpper] using h)
  have hletter : c = 'i' ∨ c = 'n' := by
    simp only [IsWord, List.map_cons, hlower, List.mem_cons, List.not_mem_nil, or_false] at h
    rcases h with h | h | h
    all_goals
      have hlist := congrArg String.toList h
      simp at hlist
      simp [hlist.1]
  rcases hletter with rfl | rfl <;> simp at halpha

theorem integer?_isSome_iff : (integer? base cs).isSome ↔ ∃ ds, IsDigits base ds ∧
    (cs = '-' :: ds ∧ digitsValue base ds ≤ 2 ^ 63 ∨
      (cs = ds ∨ cs = '+' :: ds) ∧ digitsValue base ds < 2 ^ 63) := by
  simp only [Option.isSome_iff_exists, integer?_eq_some_iff, isWord_iff]
  constructor
  · rintro ⟨i, hword, ds, hds, ⟨rfl, rfl⟩ | ⟨hcs, rfl⟩⟩
    · exact ⟨ds, hds, .inl ⟨rfl, by omega⟩⟩
    · exact ⟨ds, hds, .inr ⟨hcs, by omega⟩⟩
  · rintro ⟨ds, hds, ⟨rfl, hword⟩ | ⟨hcs, hword⟩⟩
    · exact ⟨_, by omega, ds, hds, .inl ⟨rfl, rfl⟩⟩
    · exact ⟨_, by omega, ds, hds, .inr ⟨hcs, rfl⟩⟩

theorem hexadecimal_isSome_iff {x : Char} (hx : x ∈ ['x', 'X']) : (integer? 16 cs).isSome ↔
    IsHexadecimal ('0' :: x :: cs) ∨ IsSignedHexadecimal ('0' :: x :: cs) := by
  rw [integer?_isSome_iff]
  constructor
  · rintro ⟨ds, hds, ⟨rfl, hword⟩ | ⟨rfl | rfl, hword⟩⟩
    · exact .inr ⟨x, hx, ds, hds, .inl ⟨rfl, hword⟩⟩
    · exact .inl ⟨x, hx, cs, rfl, hds, hword⟩
    · exact .inr ⟨x, hx, ds, hds, .inr ⟨rfl, hword⟩⟩
  · rintro (⟨y, -, ds, h, hds, hword⟩ | ⟨y, -, ds, hds, ⟨h, hword⟩ | ⟨h, hword⟩⟩) <;>
      simp only [List.cons.injEq, true_and] at h
    · exact ⟨ds, hds, .inr ⟨.inl h.2, hword⟩⟩
    · exact ⟨ds, hds, .inl ⟨h.2, hword⟩⟩
    · exact ⟨ds, hds, .inr ⟨.inr h.2, hword⟩⟩

theorem unmarked_isSome_iff : (if c.isAlpha then none else decimal? (c :: cs)).isSome ↔
    IsDecimal (c :: cs) ∨ IsSignedDecimal (c :: cs) := by
  have hhead (h : IsDecimal (c :: cs)) : c.isDigit = true ∨ c = '.' := by
    obtain ⟨_, _, heq, hc⟩ := h.head
    rwa [(List.cons.inj heq).1]
  by_cases hsign : c ∈ ['-', '+']
  · have hsigned : IsSignedDecimal (c :: cs) ↔ IsWord cs ∨ IsDecimal cs := by
      constructor
      · rintro ⟨b, -, u, heq, h⟩
        rwa [(List.cons.inj heq).2]
      · exact fun h => ⟨c, hsign, cs, rfl, h⟩
    have hrest : c.isAlpha = false ∧ (splitSign (c :: cs)).2 = cs := by
      simp only [List.mem_cons, List.not_mem_nil, or_false] at hsign
      rcases hsign with rfl | rfl <;> exact ⟨by decide, rfl⟩
    rw [hsigned, or_iff_right (not_isDecimal_sign c hsign cs), hrest.1, if_neg Bool.false_ne_true, decimal?_isSome_iff, hrest.2]
  · have hsigned : ¬ IsSignedDecimal (c :: cs) := by
      rintro ⟨b, hb, u, heq, -⟩
      rw [(List.cons.inj heq).1] at hsign
      exact hsign hb
    rw [or_iff_left hsigned]
    by_cases halpha : c.isAlpha = true
    · have hdecimal : ¬ IsDecimal (c :: cs) := fun h => by
        rcases hhead h with hdigit | rfl
        · simp [Char.isAlpha, Char.isUpper, Char.isLower, Char.isDigit, UInt32.le_iff_toNat_le] at halpha hdigit
          omega
        · simp at halpha
      simp [halpha, hdecimal]
    · have hsplit := splitSign_unsigned fun d hd u (h : c :: cs = d :: u) => hsign ((List.cons.inj h).1 ▸ hd)
      rw [if_neg halpha, decimal?_isSome_iff, hsplit]
      exact or_iff_right fun h => halpha h.head

/-- What is read behind an optional sign: a hexadecimal, a decimal, or one of these with a sign of
its own. -/
theorem unsignedNumeral?_isSome_iff : (unsignedNumeral? cs).isSome ↔
    (IsHexadecimal cs ∨ IsDecimal cs) ∨ IsSignedDecimal cs ∨ IsSignedHexadecimal cs := by
  have hmark {x : Char} (hx : x ∈ ['x', 'X']) {u : List Char} (h : cs = '0' :: x :: u) :
      ((integer? 16 u).map ofInt).isSome ↔
        (IsHexadecimal cs ∨ IsDecimal cs) ∨ IsSignedDecimal cs ∨ IsSignedHexadecimal cs := by
    subst h
    simp [hexadecimal_isSome_iff hx, not_isDecimal_mark hx, IsSignedDecimal]
  have hplain (h : ∀ x ∈ ['x', 'X'], ∀ u, cs ≠ '0' :: x :: u) :
      ¬ IsHexadecimal cs ∧ ¬ IsSignedHexadecimal cs := by
    constructor
    · rintro ⟨x, hx, ds, hcs, -⟩
      exact h x hx _ hcs
    · rintro ⟨x, hx, ds, -, ⟨hcs, -⟩ | ⟨hcs, -⟩⟩
      · exact h x hx _ hcs
      · exact h x hx _ hcs
  unfold unsignedNumeral?
  split
  · exact hmark (by simp) rfl
  · exact hmark (by simp) rfl
  · obtain ⟨hhex, hsigned⟩ := hplain (by simp)
    have hdecimal : ¬ IsDecimal [] := fun h => by
      obtain ⟨c, rest, h, -⟩ := h.head
      cases h
    simp [hhex, hsigned, hdecimal, IsSignedDecimal]
  next c cs hlower hupper =>
    obtain ⟨hhex, hsigned⟩ := hplain (by simpa using ⟨hlower, hupper⟩)
    simp only [unmarked_isSome_iff, hhex, hsigned, false_or, or_false]

theorem IsHexadecimal.head (h : IsHexadecimal cs) : ∃ u, cs = '0' :: u := by
  obtain ⟨x, -, ds, rfl, -⟩ := h
  exact ⟨_, rfl⟩

theorem IsSignedHexadecimal.head (h : IsSignedHexadecimal cs) : ∃ u, cs = '0' :: u := by
  obtain ⟨x, -, ds, -, ⟨rfl, -⟩ | ⟨rfl, -⟩⟩ := h
  · exact ⟨_, rfl⟩
  · exact ⟨_, rfl⟩

theorem zero_cons_ne (c : Char) (hc : c ∈ ['-', '+']) (t : List Char) (h : ∃ u, c :: t = '0' :: u) : False := by
  obtain ⟨u, h⟩ := h
  rw [(List.cons.inj h).1] at hc
  simp at hc

theorem not_isUnsigned_sign (c : Char) (hc : c ∈ ['-', '+']) (u : List Char) :
    ¬ (IsHexadecimal (c :: u) ∨ IsDecimal (c :: u)) := by
  rintro (h | h)
  · exact zero_cons_ne c hc u h.head
  · exact not_isDecimal_sign c hc u h

theorem isNumeral_iff : IsNumeral cs ↔ IsHexadecimal (splitSign cs).2 ∨ IsDecimal (splitSign cs).2 :=
  exists_sign_iff not_isUnsigned_sign

theorem isResigned_iff :
    IsResigned cs ↔ IsSignedDecimal (splitSign cs).2 ∨ IsSignedHexadecimal (splitSign cs).2 := by
  have hsecond : (∃ a ∈ ['-', '+'], ∃ u, cs = a :: u ∧ IsSignedDecimal u) ↔
      IsSignedDecimal (splitSign cs).2 := by
    constructor
    · rintro ⟨a, ha, u, rfl, h⟩
      simp only [List.mem_cons, List.not_mem_nil, or_false] at ha
      rcases ha with rfl | rfl <;> exact h
    · intro h
      unfold splitSign at h
      split at h
      · exact ⟨'-', by simp, _, rfl, h⟩
      · exact ⟨'+', by simp, _, rfl, h⟩
      next hneg hpos =>
        obtain ⟨b, hb, u, rfl, -⟩ := h
        simp only [List.mem_cons, List.not_mem_nil, or_false] at hb
        rcases hb with rfl | rfl
        · exact (hneg _ rfl).elim
        · exact (hpos _ rfl).elim
  exact or_congr hsecond (exists_sign_iff fun c hc u h => zero_cons_ne c hc u h.head)

/-- No numeral has a second sign. -/
theorem IsNumeral.not_isResigned (h : IsNumeral cs) : ¬ IsResigned cs := by
  rw [isNumeral_iff] at h
  rw [isResigned_iff]
  generalize (splitSign cs).2 = u at h
  rintro (⟨b, hb, v, rfl, -⟩ | ⟨x, hx, ds, hds, hsigned⟩)
  · exact not_isUnsigned_sign b hb v h
  · have hmarked : ∃ c ∈ ['-', '+'], u = '0' :: x :: c :: ds := by
      rcases hsigned with ⟨rfl, -⟩ | ⟨rfl, -⟩
      · exact ⟨'-', by simp, rfl⟩
      · exact ⟨'+', by simp, rfl⟩
    obtain ⟨c, hc, rfl⟩ := hmarked
    rcases h with ⟨y, -, ds', heq, hds', -⟩ | h
    · simp only [List.cons.injEq, true_and] at heq
      exact not_isDigits_sign c hc ds (heq.2 ▸ hds')
    · exact not_isDecimal_mark hx _ h

/-- A text is read as a number exactly if it is a numeral or has a second sign, which no numeral
has. A minus in front of an unsigned numeral negates what that is read as. -/
theorem parse?_accepts (s : String) :
    ((parse? s).isSome ↔ IsNumeral (Text.trim s.toList) ∨ IsResigned (Text.trim s.toList)) ∧
      ¬ (IsNumeral (Text.trim s.toList) ∧ IsResigned (Text.trim s.toList)) ∧
      ∀ s' : String, Text.trim s.toList = '-' :: Text.trim s'.toList →
        IsHexadecimal (Text.trim s'.toList) ∨ IsDecimal (Text.trim s'.toList) →
        parse? s = (parse? s').map (- ·) := by
  refine ⟨?_, fun h => h.1.not_isResigned h.2, fun s' hs hunsigned => ?_⟩
  · rw [isNumeral_iff, isResigned_iff, ← unsignedNumeral?_isSome_iff]
    simp [parse?]
  · have hsplit := splitSign_unsigned fun c hc u h => not_isUnsigned_sign c hc u (h ▸ hunsigned)
    simp only [parse?, hs, hsplit, Option.map_map]
    rfl

theorem parse?_accepts_negated : (parse? "-0x10").isSome ∧ parse? "-0x10" = (parse? "0x10").map (- ·) := by
  have hhex : IsHexadecimal (Text.trim "0x10".toList) := by
    refine ⟨'x', by simp, ['1', '0'], by decide, ⟨by simp, ?_⟩, by decide⟩
    exact List.forall_mem_cons.2 ⟨⟨1, by decide, rfl⟩, List.forall_mem_singleton.2 ⟨0, by decide, rfl⟩⟩
  obtain ⟨haccepts, -, hnegates⟩ := parse?_accepts "-0x10"
  have hsign : Text.trim "-0x10".toList = ['-'] ++ Text.trim "0x10".toList := by decide
  exact ⟨haccepts.2 (.inl ⟨['-'], by simp [signs], _, hsign, .inl hhex⟩), hnegates "0x10" hsign (.inl hhex)⟩

/-- A second sign is read in front of digits and of a word. -/
theorem resigned_accepted :
    (parse? "--5").isSome ∧ ¬ IsNumeral (Text.trim "--5".toList) ∧
      (parse? "+-inf").isSome ∧ ¬ IsNumeral (Text.trim "+-inf".toList) := by
  have hsecond {a b : Char} (ha : a ∈ ['-', '+']) (hb : b ∈ ['-', '+']) (u : List Char) :
      ¬ IsNumeral (a :: b :: u) := by
    rw [isNumeral_iff]
    simp only [List.mem_cons, List.not_mem_nil, or_false] at ha
    rcases ha with rfl | rfl <;> exact not_isUnsigned_sign b hb u
  have hfive : Text.trim "--5".toList = ['-', '-', '5'] := by decide
  have hinf : Text.trim "+-inf".toList = ['+', '-', 'i', 'n', 'f'] := by decide
  rw [hfive, hinf]
  exact ⟨by decide +kernel, hsecond (by simp) (by simp) _, by decide +kernel, hsecond (by simp) (by simp) _⟩

end Numerals

end ScriptMachine.Number
