import ScriptMachine.Debug.Listening
import Mathlib.Tactic

namespace ScriptMachine

open DebugState

variable {chosen : List Location} {source : UInt32} {l : Location}

theorem nodup_eraseDups {α : Type} [BEq α] [LawfulBEq α] (as : List α) : as.eraseDups.Nodup := by
  cases as with
  | nil => exact List.nodup_nil
  | cons a as =>
    rw [List.eraseDups_cons, List.nodup_cons, List.mem_eraseDups]
    exact ⟨by simp, nodup_eraseDups _⟩
termination_by as.length
decreasing_by exact Nat.lt_succ_of_le (List.length_filter_le ..)

/-- A location of a source where a debugger can stop. -/
structure Code.Breakable (c : Code) (source : UInt32) (l : Location) : Prop where
  source : l.source = source
  breakable : l.breakable = true
  occurs : ∃ i ∈ c.instructions, i.location = some l

theorem Code.mem_breakableLocations {c : Code} :
    l ∈ c.breakableLocations source ↔ c.Breakable source l := by
  simp only [breakableLocations, List.mem_eraseDups, List.mem_filterMap, Array.mem_toList_iff,
    Option.filter_eq_some_iff, Bool.and_eq_true, beq_iff_eq]
  constructor
  · rintro ⟨i, hi, hl, hsource, hbreakable⟩
    exact ⟨hsource, hbreakable, i, hi, hl⟩
  · rintro ⟨hsource, hbreakable, i, hi, hl⟩
    exact ⟨i, hi, hl, hsource, hbreakable⟩

section Nearest

/-- How far a position is from a range of its source, with numbers of any size. -/
def Location.gap (l : Location) (p : Position) : Nat :=
  if p.line = l.fromLine then
    if l.fromLine = l.toLine ∧ l.fromColumn ≤ p.column then p.column.toNat - l.toColumn.toNat
    else l.fromColumn.toNat - p.column.toNat
  else if p.line = l.toLine then p.column.toNat - l.toColumn.toNat
  else if p.line < l.fromLine then (l.fromLine.toNat - p.line.toNat) * 4
  else (p.line.toNat - l.toLine.toNat) * 4

theorem Location.toNat_above (a b : UInt32) : (above a b).toNat = a.toNat - b.toNat := by
  rw [above]
  split
  case isTrue h => exact UInt32.toNat_sub_of_le _ _ h
  case isFalse h =>
    rw [UInt32.le_iff_toNat_le] at h
    rw [UInt32.toNat_zero]
    omega

variable {p : Position} {l : Location}

/-- How many lines a position is outside of a range. -/
def Location.linesAway (l : Location) (line : UInt32) : Nat :=
  (l.fromLine.toNat - line.toNat) + (line.toNat - l.toLine.toNat)

theorem Location.exists_distance? (h : l.source = p.source) :
    ∃ d, l.distance? p.source p.line p.column = some d ∧ d.toNat = l.gap p % 2 ^ 32 := by
  have hfour : columnsPerLine.toNat = 4 := rfl
  have := p.line.toNat_lt
  have := p.column.toNat_lt
  have := l.fromLine.toNat_lt
  have := l.fromColumn.toNat_lt
  rw [distance?, if_neg (not_not_intro h.symm), gap]
  split_ifs
  all_goals refine ⟨_, rfl, ?_⟩
  all_goals simp only [UInt32.toNat_mul, UInt32.toNat_add, UInt32.toNat_sub, toNat_above, hfour,
    UInt32.toNat_zero, ← UInt32.toNat_inj, UInt32.lt_iff_toNat_lt, UInt32.le_iff_toNat_le,
    Bool.and_eq_true, decide_eq_true_eq] at *
  all_goals omega

theorem Location.gap_lt (h : l.linesAway p.line < 2 ^ 30) : l.gap p < 2 ^ 32 := by
  have := p.column.toNat_lt
  have := l.fromColumn.toNat_lt
  rw [linesAway] at h
  rw [gap]
  split_ifs <;> omega

theorem Location.gap_of_away (hl : l.fromLine ≤ l.toLine) (h : 0 < l.linesAway p.line) :
    l.gap p = l.linesAway p.line * 4 := by
  rw [UInt32.le_iff_toNat_le] at hl
  rw [linesAway] at h ⊢
  rw [gap, if_neg fun heq => by rw [heq] at h; omega, if_neg fun heq => by rw [heq] at h; omega]
  split_ifs with hlt <;> rw [UInt32.lt_iff_toNat_lt] at hlt <;> omega

theorem Location.gap_eq_zero_iff (h : l.source = p.source) (hl : l.fromLine ≤ l.toLine) :
    l.gap p = 0 ↔ l.includes p.source p.line p.column := by
  simp only [gap, includes, includesLine, h, BEq.rfl, Bool.true_and, Bool.and_eq_true,
    decide_eq_true_eq]
  split_ifs <;> simp only [← UInt32.toNat_inj, UInt32.lt_iff_toNat_lt, UInt32.le_iff_toNat_le,
    decide_eq_true_eq, Bool.and_eq_true, and_true] at * <;> omega

theorem foldl_nearest (entries : List (UInt32 × Location)) (b : UInt32 × Location) :
    ∃ e, entries.foldl (fun best e =>
      match best with
      | some b => if e.1 < b.1 then some e else some b
      | none => some e) (some b) = some e ∧ e ∈ b :: entries ∧ ∀ k ∈ b :: entries, e.1 ≤ k.1 := by
  induction entries generalizing b with
  | nil => exact ⟨b, rfl, List.mem_singleton_self b, by simp⟩
  | cons a entries ih =>
    rw [List.foldl_cons]
    dsimp only
    split
    case isTrue h =>
      obtain ⟨e, hfold, hmem, hleast⟩ := ih a
      refine ⟨e, hfold, List.mem_cons_of_mem _ hmem, ?_⟩
      rintro k (_ | ⟨_, hk⟩)
      · exact UInt32.le_trans (hleast a List.mem_cons_self) (UInt32.le_of_lt h)
      · exact hleast k hk
    case isFalse h =>
      obtain ⟨e, hfold, hmem, hleast⟩ := ih b
      refine ⟨e, hfold, by grind, ?_⟩
      rintro k (_ | ⟨_, _ | ⟨_, hk⟩⟩)
      · exact hleast b List.mem_cons_self
      · exact UInt32.le_trans (hleast b List.mem_cons_self) (UInt32.not_lt.1 h)
      · exact hleast k (List.mem_cons_of_mem _ hk)

theorem exists_nearest {locations : List Location} (h : ∀ l ∈ locations, l.source = p.source)
    (hne : locations ≠ []) : ∃ l ∈ locations, nearest? p locations = some l ∧
      (p.line.toNat < 2 ^ 30 → (∀ k ∈ locations, k.fromLine.toNat < 2 ^ 30 ∧
        k.toLine.toNat < 2 ^ 30) → ∀ k ∈ locations, l.gap p ≤ k.gap p) := by
  let entries := locations.filterMap fun l =>
    (l.distance? p.source p.line p.column).map fun d => (d, l)
  have hentry (d l) : (d, l) ∈ entries ↔
      l ∈ locations ∧ l.distance? p.source p.line p.column = some d := by
    simp [entries]
  have hknown : ∀ k ∈ locations, ∃ d, (d, k) ∈ entries := fun k hk => by
    obtain ⟨d, hd, -⟩ := Location.exists_distance? (h k hk)
    exact ⟨d, (hentry d k).2 ⟨hk, hd⟩⟩
  obtain ⟨b, rest, hentries⟩ : ∃ b rest, entries = b :: rest := by
    obtain ⟨k, hk⟩ := List.exists_mem_of_ne_nil _ hne
    obtain ⟨d, hd⟩ := hknown k hk
    exact List.exists_cons_of_ne_nil (List.ne_nil_of_mem hd)
  obtain ⟨⟨d, l⟩, hfold, hmem, hleast⟩ := foldl_nearest rest b
  rw [← hentries] at hmem hleast
  obtain ⟨hl, hd⟩ := (hentry d l).1 hmem
  refine ⟨l, hl, ?_, fun hp hlines k hk => ?_⟩
  · change (entries.foldl _ none).map Prod.snd = some l
    rw [hentries, List.foldl_cons]
    exact congrArg _ hfold
  · obtain ⟨d', hd'⟩ := hknown k hk
    have hexact {k : Location} {d : UInt32} (hk : k ∈ locations)
        (hd : k.distance? p.source p.line p.column = some d) : d.toNat = k.gap p := by
      obtain ⟨d', hd', heq⟩ := Location.exists_distance? (h k hk)
      have haway : k.linesAway p.line < 2 ^ 30 := by
        have := hlines k hk
        rw [Location.linesAway]
        omega
      rw [← Option.some.inj (hd'.symm.trans hd), heq, Nat.mod_eq_of_lt (Location.gap_lt haway)]
    rw [← hexact hl hd, ← hexact hk ((hentry d' k).1 hd').2]
    exact UInt32.le_iff_toNat_le.1 (hleast _ hd')

end Nearest

section Choice

/-- The locations that a position stands for: those that contain it, or else a nearest one. -/
inductive Code.Selects (c : Code) (p : Position) : List Location → Prop where
  | containing {chosen : List Location} (hne : chosen ≠ [])
      (h : ∀ l, l ∈ chosen ↔ c.Breakable p.source l ∧ l.includes p.source p.line p.column) :
    Selects c p chosen
  | nearest {l : Location} (hl : c.Breakable p.source l)
      (h : ∀ k, c.Breakable p.source k → k.includes p.source p.line p.column = false)
      (hleast : p.line.toNat < 2 ^ 30 → (∀ k, c.Breakable p.source k →
        k.fromLine.toNat < 2 ^ 30 ∧ k.toLine.toNat < 2 ^ 30) →
          ∀ k, c.Breakable p.source k → l.gap p ≤ k.gap p) :
    Selects c p [l]
  | nothing (h : ∀ l, ¬ c.Breakable p.source l) : Selects c p []

variable {c : Code} {p : Position}

def Code.selected (c : Code) (p : Position) : List Location :=
  let breakable := c.breakableLocations p.source
  let containing := breakable.filter fun l => l.includes p.source p.line p.column
  if containing.isEmpty then (nearest? p breakable).toList else containing

theorem Code.nodup_selected (c : Code) (p : Position) : (c.selected p).Nodup := by
  rw [selected]
  split
  · cases nearest? p (c.breakableLocations p.source) <;> simp
  · exact (nodup_eraseDups _).filter _

theorem Code.selects_selected (c : Code) (p : Position) : c.Selects p (c.selected p) := by
  rw [selected]
  split
  case isFalse h =>
    refine .containing (by simpa using h) fun l => ?_
    rw [List.mem_filter, mem_breakableLocations]
  case isTrue h =>
    have hout : ∀ k, c.Breakable p.source k → k.includes p.source p.line p.column = false := by
      simpa [mem_breakableLocations] using h
    by_cases hne : c.breakableLocations p.source = []
    · rw [hne]
      refine .nothing fun l hl => ?_
      rw [← mem_breakableLocations, hne] at hl
      cases hl
    · obtain ⟨l, hl, hnearest, hleast⟩ :=
        exists_nearest (fun l hl => (mem_breakableLocations.1 hl).source) hne
      rw [hnearest]
      simp only [mem_breakableLocations] at hl hleast
      exact .nearest hl hout hleast

theorem Code.Selects.breakable (h : c.Selects p chosen) (hl : l ∈ chosen) :
    c.Breakable p.source l := by
  cases h with
  | containing _ h => exact ((h l).1 hl).1
  | nearest hk => exact List.mem_singleton.1 hl ▸ hk
  | nothing => cases hl

end Choice

section Changes

variable {bs : List Location}

/-- Breakpoints are a set, and only the chosen locations change. -/
theorem applyBreakpoint_spec (hbs : bs.Nodup) (state : Option Bool) (l : Location) :
    (applyBreakpoint bs state l).Nodup ∧
      ∀ k, k ∈ applyBreakpoint bs state l ↔
        if k = l then state.getD (!bs.contains l) = true else k ∈ bs := by
  rw [applyBreakpoint]
  split
  case isTrue h =>
    refine ⟨hbs.insert, fun k => ?_⟩
    rw [List.mem_insert_iff]
    by_cases hk : k = l
    · rw [if_pos hk]
      exact iff_of_true (.inl hk) h
    · simp [hk]
  case isFalse h =>
    refine ⟨hbs.erase l, fun k => ?_⟩
    rw [hbs.mem_erase_iff]
    by_cases hk : k = l
    · rw [if_pos hk]
      exact iff_of_false (fun hmem => hmem.1 hk) h
    · simp [hk]

theorem foldl_applyBreakpoint (state : Location → Option Bool) (hchosen : chosen.Nodup)
    (hbs : bs.Nodup) :
    (chosen.foldl (fun bs l => applyBreakpoint bs (state l) l) bs).Nodup ∧
      ∀ k, k ∈ chosen.foldl (fun bs l => applyBreakpoint bs (state l) l) bs ↔
        if k ∈ chosen then (state k).getD (!bs.contains k) = true else k ∈ bs := by
  induction chosen generalizing bs with
  | nil => simp [hbs]
  | cons l chosen ih =>
    obtain ⟨hl, hrest⟩ := List.nodup_cons.1 hchosen
    obtain ⟨happlied, hmem⟩ := applyBreakpoint_spec hbs (state l) l
    obtain ⟨hnodup, hfold⟩ := ih hrest happlied
    refine ⟨hnodup, fun k => ?_⟩
    rw [List.foldl_cons, hfold k]
    by_cases hk : k = l
    · subst hk
      simp [hl, hmem]
    · simp [hk, hmem]

end Changes

namespace Machine

/-- What changes the breakpoints of a script and the locations that they can be put on. -/
inductive BreakpointStep where
  | extend (added : Array Instruction)
  | toggle (p : Position) (state : Option Bool)
  | reset (source : UInt32) (lines : List UInt32)

def takeStep (m : Machine) : BreakpointStep → Machine
  | .extend added =>
    { m with code := { m.code with instructions := m.code.instructions ++ added } }
  | .toggle p state => (Exec.toggleBreakpoint p state m).2
  | .reset source lines => (Exec.resetBreakpoints source lines m).2

/-- The breakpoints are a set of locations that occur in the code. -/
structure Marked (m : Machine) : Prop where
  nodup : m.debug.breakpoints.Nodup
  breakable : ∀ l ∈ m.debug.breakpoints, m.code.Breakable l.source l

variable {m : Machine}

theorem mem_toggle (hm : m.Marked) (p : Position) (state : Option Bool) :
    ∀ l, l ∈ (m.takeStep (.toggle p state)).debug.breakpoints ↔
      if l ∈ m.code.selected p then state.getD (!m.debug.breakpoints.contains l) = true
      else l ∈ m.debug.breakpoints :=
  (foldl_applyBreakpoint (fun _ => state) (m.code.nodup_selected p) hm.nodup).2

theorem mem_reset (hm : m.Marked) (source : UInt32) (lines : List UInt32) :
    ∀ l, l ∈ (m.takeStep (.reset source lines)).debug.breakpoints ↔
      if l ∈ m.code.breakableLocations source then l.fromLine ∈ lines
      else l ∈ m.debug.breakpoints := by
  intro l
  have hmem := (foldl_applyBreakpoint (fun l => some (lines.contains l.fromLine))
    (nodup_eraseDups _ : (m.code.breakableLocations source).Nodup) hm.nodup).2 l
  rw [Option.getD_some, List.contains_iff_mem] at hmem
  exact hmem

theorem mem_reset_of_source (hm : m.Marked) (lines : List UInt32) (hl : l.source = source) :
    l ∈ (m.takeStep (.reset source lines)).debug.breakpoints ↔
      m.code.Breakable source l ∧ l.fromLine ∈ lines := by
  rw [mem_reset hm, ← Code.mem_breakableLocations]
  by_cases h : l ∈ m.code.breakableLocations source
  · simp [h]
  · simpa [h] using fun hmem => h (Code.mem_breakableLocations.2 (hl ▸ hm.breakable l hmem))

theorem Marked.foldl_applyBreakpoint (hm : m.Marked) (hchosen : chosen.Nodup)
    (hbreakable : ∀ l ∈ chosen, m.code.Breakable source l) (state : Location → Option Bool) :
    ({ m with debug := { m.debug with
      breakpoints := chosen.foldl (fun bs l => applyBreakpoint bs (state l) l)
        m.debug.breakpoints } } : Machine).Marked := by
  obtain ⟨hnodup, hmem⟩ := ScriptMachine.foldl_applyBreakpoint state hchosen hm.nodup
  refine ⟨hnodup, fun l hl => ?_⟩
  have hl := (hmem l).1 hl
  split at hl
  case isTrue h => exact ⟨rfl, (hbreakable l h).breakable, (hbreakable l h).occurs⟩
  case isFalse => exact hm.breakable l hl

theorem Marked.takeStep (hm : m.Marked) (s : BreakpointStep) : (m.takeStep s).Marked := by
  cases s with
  | extend added =>
    refine ⟨hm.nodup, fun l hl => ?_⟩
    obtain ⟨hsource, hbreakable, i, hi, hlocation⟩ := hm.breakable l hl
    exact ⟨hsource, hbreakable, i, Array.mem_append_left _ hi, hlocation⟩
  | toggle p state =>
    exact hm.foldl_applyBreakpoint (m.code.nodup_selected p)
      (fun _ => (m.code.selects_selected p).breakable) fun _ => state
  | reset source lines =>
    exact hm.foldl_applyBreakpoint (nodup_eraseDups _) (fun _ => Code.mem_breakableLocations.1) _

theorem marked_steps (hm : m.Marked) (steps : List BreakpointStep) :
    (steps.foldl takeStep m).Marked := by
  induction steps generalizing m with
  | nil => exact hm
  | cons s steps ih => exact ih (hm.takeStep s)

/-- Breakpoints stay on breakable locations of the code, however code is added and breakpoints are
changed. A change concerns the source that it names only: the locations that contain its position or
a nearest one, or those that start on its lines. -/
theorem breakpoints_kept (m₀ : Machine) (steps : List BreakpointStep) :
    let m := steps.foldl takeStep { m₀ with debug := { m₀.debug with breakpoints := [] } }
    (∀ l ∈ m.debug.breakpoints, m.code.Breakable l.source l) ∧
    (∀ p state l, l.source ≠ p.source →
      (l ∈ (m.takeStep (.toggle p state)).debug.breakpoints ↔ l ∈ m.debug.breakpoints)) ∧
    (∀ source lines l, l.source ≠ source →
      (l ∈ (m.takeStep (.reset source lines)).debug.breakpoints ↔ l ∈ m.debug.breakpoints)) ∧
    (∀ p, ((m.takeStep (.toggle p none)).takeStep (.toggle p none)).debug.breakpoints.Perm
      m.debug.breakpoints) ∧
    (∀ p, ∃ chosen, m.code.Selects p chosen ∧
      (∀ state, (Exec.toggleBreakpoint p state m).1 = .ok !chosen.isEmpty) ∧
      (∀ l, l ∈ (m.takeStep (.toggle p (some true))).debug.breakpoints ↔
        l ∈ m.debug.breakpoints ∨ l ∈ chosen) ∧
      (∀ l, l ∈ (m.takeStep (.toggle p (some false))).debug.breakpoints ↔
        l ∈ m.debug.breakpoints ∧ l ∉ chosen) ∧
      (∀ l, l ∈ (m.takeStep (.toggle p none)).debug.breakpoints ↔
        (l ∈ m.debug.breakpoints ↔ l ∉ chosen))) ∧
    ∀ source lines, ∃ kept m', Exec.resetBreakpoints source lines m = (.ok kept, m') ∧
      (∀ l, l.source = source →
        (l ∈ m'.debug.breakpoints ↔ m.code.Breakable source l ∧ l.fromLine ∈ lines)) ∧
      ∀ line, line ∈ kept ↔ ∃ l ∈ m'.debug.breakpoints, l.source = source ∧ l.fromLine = line := by
  intro m
  have hm : m.Marked := marked_steps ⟨List.nodup_nil, by simp⟩ steps
  have hselects (p : Position) := m.code.selects_selected p
  refine ⟨hm.breakable, fun p state l hl => ?_, fun source lines l hl => ?_, fun p => ?_,
    fun p => ⟨_, hselects p, fun _ => rfl, fun l => ?_, fun l => ?_, fun l => ?_⟩,
    fun source lines => ⟨_, _, rfl, fun l hl => mem_reset_of_source hm lines hl, fun line => ?_⟩⟩
  · rw [mem_toggle hm, if_neg fun h => hl ((hselects p).breakable h).source]
  · rw [mem_reset hm, if_neg fun h => hl (Code.mem_breakableLocations.1 h).source]
  · have hm' := hm.takeStep (.toggle p none)
    rw [List.perm_ext_iff_of_nodup (hm'.takeStep _).nodup hm.nodup]
    intro l
    have hcode : (m.takeStep (.toggle p none)).code = m.code := rfl
    rw [mem_toggle hm', hcode]
    by_cases hl : l ∈ m.code.selected p <;> simp [hl, mem_toggle hm]
  · rw [mem_toggle hm]
    by_cases hl : l ∈ m.code.selected p <;> simp [hl]
  · rw [mem_toggle hm]
    by_cases hl : l ∈ m.code.selected p <;> simp [hl]
  · rw [mem_toggle hm]
    by_cases hl : l ∈ m.code.selected p <;> simp [hl]
  · have hkept : line ∈ ((m.code.breakableLocations source).map fun l => l.fromLine).filter
        lines.contains ↔ ∃ l, m.code.Breakable source l ∧ l.fromLine ∈ lines ∧ l.fromLine = line := by
      simp only [List.mem_filter, List.mem_map, Code.mem_breakableLocations, List.contains_iff_mem]
      grind
    rw [List.mem_eraseDups, hkept]
    refine exists_congr fun l => ⟨?_, ?_⟩
    · rintro ⟨hl, hline, rfl⟩
      exact ⟨(mem_reset_of_source hm lines hl.source).2 ⟨hl, hline⟩, hl.source, rfl⟩
    · rintro ⟨hl, hsource, rfl⟩
      obtain ⟨hl, hline⟩ := (mem_reset_of_source hm lines hsource).1 hl
      exact ⟨hl, hline, rfl⟩

end Machine

end ScriptMachine
