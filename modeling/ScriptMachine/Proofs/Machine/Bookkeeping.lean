import ScriptMachine.Proofs.Machine.Ledger
import ScriptMachine.Proofs.Machine.Vacating

namespace ScriptMachine

open Exec Recorded

variable {g : Frame → Frame}

/-- What an entry does to the slots that hold a variable. Only what a slot holds is closed.
Afterwards a slot holds a variable only if something was stored there, or if it held one before that
was not closed. -/
structure Entry.Step (e : Entry) (P Q : Nat × Nat → Prop) : Prop where
  closes : ∀ place, e.Closes place → P place
  holds : ∀ place, Q place → e.Fills place ∨ P place ∧ (e.Closes place → e.Fails)

/-- What a list of entries does to the slots that hold a variable. -/
inductive Chain : (Nat × Nat → Prop) → List Entry → (Nat × Nat → Prop) → Prop
  | nil {P Q} (h : ∀ place, Q place → P place) : Chain P [] Q
  | cons {e log P Q R} (h : e.Step P R) (hrest : Chain R log Q) : Chain P (e :: log) Q

namespace Chain

variable {P Q R : Nat × Nat → Prop} {log log' : List Entry} {e : Entry} {place : Nat × Nat}

theorem single (h : e.Step P Q) : Chain P [e] Q := .cons h (.nil fun _ => id)

theorem mono (h : Chain P log Q) (hP : ∀ place, P place → R place) : Chain R log Q := by
  cases h with
  | nil hQ => exact .nil fun place hplace => hP place (hQ place hplace)
  | cons hstep hrest =>
    refine .cons ⟨fun place hplace => hP place (hstep.closes place hplace), fun place hplace => ?_⟩ hrest
    exact (hstep.holds place hplace).imp_right fun h => ⟨hP place h.1, h.2⟩

theorem append (h : Chain P log R) (h' : Chain R log' Q) : Chain P (log ++ log') Q := by
  induction h with
  | nil hR => exact h'.mono hR
  | cons hstep _ ih => exact .cons hstep (ih h')

theorem fills (h : Chain P log Q) (hplace : Q place) : P place ∨ ∃ e ∈ log, e.Fills place := by
  induction h with
  | nil hQ => exact .inl (hQ place hplace)
  | cons hstep _ ih =>
    obtain hR | ⟨e, he, hfills⟩ := ih hplace
    · obtain hfills | hP := hstep.holds place hR
      · exact .inr ⟨_, .head _, hfills⟩
      · exact .inl hP.1
    · exact .inr ⟨e, .tail _ he, hfills⟩

theorem of_append (h : Chain P (log ++ log') Q) : ∃ R, Chain P log R ∧ Chain R log' Q := by
  induction log generalizing P with
  | nil => exact ⟨P, .nil fun _ => id, h⟩
  | cons e log ih =>
    cases h with
    | cons hstep hrest =>
      obtain ⟨R, hlog, hlog'⟩ := ih hrest
      exact ⟨R, .cons hstep hlog, hlog'⟩

/-- A slot is not closed twice, unless something is stored in it in between, or the first time it is
about a value that could not be stored. -/
theorem closes_again {before between after : List Entry} {c c' : Entry}
    (h : Chain P (before ++ c :: between ++ c' :: after) Q) (hc : c.Closes place)
    (hc' : c'.Closes place) : c.Fails ∨ c.Fills place ∨ ∃ e ∈ between, e.Fills place := by
  obtain ⟨R, h, h'⟩ := h.of_append
  obtain ⟨R', -, hfirst⟩ := h.of_append
  cases hfirst with
  | cons hstep hrest =>
    cases h' with
    | cons hstep' _ =>
      obtain hheld | hfills := hrest.fills (hstep'.closes place hc')
      · obtain hfills | ⟨-, hfails⟩ := hstep.holds place hheld
        · exact .inr (.inl hfills)
        · exact .inl (hfails hc)
      · exact .inr (.inr hfills)

end Chain

section Slots

variable {b : Fiber} {slot : Nat} {m : Machine} {f : FiberId} {place : Nat × Nat}

theorem Fiber.holds_top : b.Holds (b.depth, slot) ↔ b.isVacant slot = false := by
  have hback : b.frames[b.depth]? = b.frames.back? := Array.back?_eq_getElem?.symm
  rw [Holds, isVacant, hback]
  cases b.frames.back? <;> simp

theorem Machine.held_of_vacant (h : (m.fiber f).isVacant slot) : m.held f slot = .nil := by
  rw [Fiber.isVacant] at h
  rw [held]
  cases hback : (m.fiber f).frames.back? with
  | none => rfl
  | some frame =>
    rw [hback] at h
    rw [Option.bind_some, Option.isNone_iff_eq_none] at h
    rw [Option.map_some, Option.getD_some, Frame.localValue, h]

theorem Machine.holds_of_truthy (h : (m.held f slot).isTruthy) :
    (m.fiber f).Holds ((m.fiber f).depth, slot) := by
  rw [Fiber.holds_top]
  by_contra hvacant
  rw [held_of_vacant (by simpa using hvacant)] at h
  cases h

theorem Machine.holds_withTop (hf : f.index < m.fibers.size)
    (h : ((m.withTop f g).fiber f).Holds place) :
    (place.1 = (m.fiber f).depth ∧ ∃ frame, (m.fiber f).frames[place.1]? = some frame ∧
      ((g frame).local? place.2).isSome) ∨
    (place.1 ≠ (m.fiber f).depth ∧ (m.fiber f).Holds place) := by
  have hframes : ((m.withTop f g).fiber f).frames =
      (m.fiber f).frames.modify (m.fiber f).depth g :=
    congrArg Fiber.frames (fiber_withFiber_self hf)
  obtain ⟨frame, hframe, hlocal⟩ := h
  rw [hframes, Array.getElem?_modify] at hframe
  split at hframe
  case isTrue hdepth =>
    obtain ⟨before, hbefore, rfl⟩ := Option.map_eq_some_iff.1 hframe
    exact .inl ⟨hdepth.symm, before, hbefore, hlocal⟩
  case isFalse hdepth => exact .inr ⟨fun h => hdepth h.symm, frame, hframe, hlocal⟩

theorem Machine.holds_take {i : Nat} (hf : f.index < m.fibers.size)
    (h : ((m.withTop f (.take i)).fiber f).Holds place) :
    (m.fiber f).Holds place ∧ place ≠ ((m.fiber f).depth, i) := by
  obtain ⟨hdepth, frame, hframe, hlocal⟩ | ⟨hdepth, hheld⟩ := holds_withTop hf h
  · obtain ⟨-, hcell⟩ | ⟨hslot, hlocal⟩ := Frame.isSome_local?_setLocal hlocal
    · cases hcell
    · exact ⟨⟨frame, hframe, hlocal⟩, fun h => hslot (congrArg Prod.snd h)⟩
  · exact ⟨hheld, fun h => hdepth (congrArg Prod.fst h)⟩

end Slots

/-- An instruction is under way that began in another machine. Its frame is still on top, and no slot
holds a variable that did not before, apart from some of that frame. -/
structure Furnished (f : FiberId) (m : Machine) (more : Nat → Prop) (m' : Machine) : Prop where
  sound : Sound m'
  busy : Busy m' f
  size : (m'.fiber f).frames.size = (m.fiber f).frames.size
  holds : ∀ place, (m'.fiber f).Holds place →
    (m.fiber f).Holds place ∨ place.1 = (m.fiber f).depth ∧ more place.2

/-- A change that puts variables into some slots of the frame on top at most. -/
def Furnishes (f : FiberId) (more : Nat → Prop) (m m' : Machine) : Prop :=
  Sound m → Busy m f → Furnished f m more m'

section Furnishing

variable {f : FiberId} {more more' : Nat → Prop} {m m' m'' : Machine} {α : Type} {y : Exec α}

theorem Furnished.refl (hm : Sound m) (hf : Busy m f) : Furnished f m more m :=
  ⟨hm, hf, rfl, fun _ => .inl⟩

theorem Furnished.trans (h : Furnished f m more m') (h' : Furnishes f more m' m'') :
    Furnished f m more m'' := by
  have h' := h' h.sound h.busy
  refine ⟨h'.sound, h'.busy, h'.size.trans h.size, fun place hplace => ?_⟩
  obtain hplace | ⟨hdepth, hmore⟩ := h'.holds place hplace
  · exact h.holds place hplace
  · rw [Fiber.depth, h.size] at hdepth
    exact .inr ⟨hdepth, hmore⟩

theorem Furnished.mono (h : Furnished f m more m') (hmore : ∀ slot, more slot → more' slot) :
    Furnished f m more' m' :=
  { h with holds := fun place hplace => (h.holds place hplace).imp_right fun h => ⟨h.1, hmore _ h.2⟩ }

instance : Std.Refl (Furnishes f more) := ⟨fun _ hm hf => .refl hm hf⟩

instance : IsTrans Machine (Furnishes f more) := ⟨fun _ _ _ h h' hm hf => (h hm hf).trans h'⟩

theorem furnishes_of_still (h : Preserves (Still f) y) : Preserves (Furnishes f more) y := by
  intro m hm hf
  obtain ⟨hm', hf', hframes⟩ := h m hm hf
  refine ⟨hm', hf', by rw [hframes], fun place hplace => .inl ?_⟩
  rw [Fiber.Holds, hframes] at hplace
  exact hplace

theorem furnishes_modifyFrame
    (hg : ∀ frame i, ((g frame).local? i).isSome → (frame.local? i).isSome ∨ more i) :
    Preserves (Furnishes f more) (modifyFrame f g) := by
  intro m hm hf
  have halone : Alone f m (m.withTop f g) := .withTop hf g
  refine ⟨halone.sound hm, halone.busy hf, ?_, fun place hplace => ?_⟩
  · change ((m.withTop f g).fiber f).frames.size = _
    rw [Machine.withTop, Machine.fiber_withFiber_self hf.1]
    exact Array.size_modify
  · obtain ⟨hdepth, frame, hframe, hlocal⟩ | ⟨-, hheld⟩ := Machine.holds_withTop hf.1 hplace
    · exact (hg frame place.2 hlocal).imp (fun h => ⟨frame, hframe, h⟩) fun h => ⟨hdepth, h⟩
    · exact .inl hheld

theorem Furnished.triple (h : Preserves (Furnishes f more) y) :
    Triple (Furnished f m more) y (fun _ => Furnished f m more) fun _ => Furnished f m more :=
  .of_state (fun m' hm' _ => hm'.trans (h m')) fun m' hm' _ => hm'.trans (h m')

theorem furnished_localCell (i : Nat) :
    Triple (Furnished f m fun _ => False) (localCell f i) (fun _ => Furnished f m (· = i))
      fun _ => Furnished f m fun _ => False := by
  have hreserve : Preserves (Furnishes f fun _ => False) (modifyFrame f fun frame => frame.reserve i) :=
    furnishes_modifyFrame fun _ _ h => .inl (Frame.isSome_local?_reserve h)
  have hset (cell : CellId) : Preserves (Furnishes f (· = i))
      (modifyFrame f fun frame => frame.setLocal i (some cell)) :=
    furnishes_modifyFrame fun _ _ h => (Frame.isSome_local?_setLocal h).symm.imp And.right And.left
  refine .bind (Furnished.triple hreserve) fun _ =>
    .bind (Furnished.triple (furnishes_of_still still_topFrame)) fun frame => ?_
  cases frame.local? i with
  | some cell => exact .pure fun _ h => h.mono fun _ => False.elim
  | none =>
    refine .bind (Furnished.triple (furnishes_of_still (still_of_aside (detached_newCell _).aside)))
      fun cell => .bind (Q := fun _ => Furnished f m (· = i)) ?_ fun _ => .pure fun _ h => h
    intro m' hm'
    exact (hm'.mono fun _ => False.elim).trans (hset cell m')

theorem furnishes_localCell {i : Nat} (hi : more i) : Preserves (Furnishes f more) (localCell f i) := by
  intro m hm hf
  have h := furnished_localCell (f := f) (m := m) i m (.refl hm hf)
  rcases hrun : localCell f i m with ⟨s | cell, m'⟩ <;> rw [hrun] at h
  · exact h.mono fun _ => False.elim
  · exact h.mono fun _ h => h ▸ hi

theorem furnishes_capture {s : Symbol} (hs : ∀ i ∈ s.slot?, more i) :
    Preserves (Furnishes f more) (capture f s) := by
  cases s with
  | localVar _ index _ _ => exact furnishes_localCell (hs index rfl)
  | upvalue name index =>
    refine .bind (furnishes_of_still still_topFrame) fun frame => ?_
    split
    · exact .pure _
    · exact .internal _
  | defaultEnvironment =>
    exact .bind (.read _) fun _ => furnishes_of_still (still_of_aside (detached_newCell _).aside)
  | global _ => exact .internal _

theorem furnishes_makeClosure (i : Instruction) :
    Preserves (Furnishes f (· ∈ i.symbolList.filterMap Symbol.slot?)) (makeClosure f i) := by
  have hcells (ss : List Symbol) (hss : ss ⊆ i.symbolList) :
      Preserves (Furnishes f (· ∈ i.symbolList.filterMap Symbol.slot?)) (ss.mapM (capture f)) := by
    induction ss with
    | nil => exact .pure _
    | cons s ss ih =>
      rw [List.mapM_cons]
      have hs : s ∈ i.symbolList := hss (.head _)
      exact .bind (furnishes_capture fun j hj => List.mem_filterMap.2 ⟨s, hs, hj⟩) fun _ =>
        .bind (ih fun _ h => hss (.tail _ h)) fun _ => .pure _
  exact .bind (.bind (furnishes_of_still still_topFrame) fun _ => .pure _) fun _ =>
    .bind (hcells _ fun _ => id) fun _ =>
      furnishes_of_still (still_of_aside (detached_newClosure _).aside)

variable {E : Engine} (hE : Quiet E)
include hE

theorem still_closeValue (s : Symbol) (v error : Value) : Preserves (Still f) (closeValue E s v error) :=
  still_of_undisturbed (undisturbed_closeValue hE s v error)

theorem still_prepareToBeClosed (s : Symbol) (v : Value) :
    Preserves (Still f) (prepareToBeClosed E f s v) :=
  .bind (.read _) fun _ => .first (.complain _) fun _ => .bind still_topFrame fun _ =>
    .bind (.read _) fun _ => .ite (still_closeValue hE s _ _) (.pure _)

theorem furnished_assignLocal (s : Symbol) (v : Value) :
    Triple (Furnished f m fun _ => False) (assignLocal E f s v) (fun _ => Furnished f m (· = s.index))
      fun _ => Furnished f m fun _ => False := by
  have hwrite (cell : CellId) : Triple (Furnished f m (· = s.index)) (writeCell cell v)
      (fun _ => Furnished f m (· = s.index)) fun _ => Furnished f m fun _ => False :=
    fun m' hm' => hm'.trans (furnishes_of_still (still_of_aside (detached_writeCell cell v).aside) m')
  have hpending : Triple (Furnished f m (· = s.index))
      (modifyFrame f fun frame => frame.addPending [s.index])
      (fun _ => Furnished f m (· = s.index)) fun _ => Furnished f m fun _ => False :=
    fun m' hm' => hm'.trans
      (furnishes_modifyFrame (g := fun frame => frame.addPending [s.index]) (fun _ _ => .inl) m')
  unfold assignLocal
  refine .first (Furnished.triple (furnishes_of_still (still_prepareToBeClosed hE s v))) fun _ =>
    .bind (Furnished.triple (.bind (furnishes_of_still still_topFrame) fun _ => .pure _)) fun _ =>
    .bind (furnished_localCell s.index) fun cell => .bind (hwrite cell) fun _ => ?_
  exact .ite (fun _ => hpending) fun _ => .pure fun _ h => h

end Furnishing

/-- The record of an operation accounts for all variables that come and go. -/
def Ledgered {ε α : Type} (label : ε → Entry) (f : FiberId) (x : Recorded ε α) : Prop :=
  ∀ m, Sound m → Busy m f → Sound (x m).1.2 ∧ Busy (x m).1.2 f ∧
    Chain (m.fiber f).Holds ((x m).2.map label) ((x m).1.2.fiber f).Holds

namespace Ledgered

variable {ε α β : Type} {label : ε → Entry} {f : FiberId} {x : Recorded ε α} {y : Exec α}

theorem silent (h : Preserves (Vacates f) y) : Ledgered label f (.silent y) := by
  intro m hm hf
  obtain ⟨hm', hf', hholds⟩ := h m hm hf
  exact ⟨hm', hf', .nil hholds⟩

theorem still (h : Preserves (Still f) y) : Ledgered label f (.silent y) := silent (vacates_of_still h)

theorem pure (a : α) : Ledgered label f (pure a) := silent (y := Pure.pure a) (.pure a)

theorem throw (s : Stop) : Ledgered label f (.silent (throw s : Exec α)) := silent (.throw s)

theorem bind {g : α → Recorded ε β} (hx : Ledgered label f x) (hg : ∀ a, Ledgered label f (g a)) :
    Ledgered label f (x >>= g) := by
  intro m hm hf
  have h := hx m hm hf
  rcases hrun : x m with ⟨⟨s | a, m'⟩, log⟩ <;> rw [hrun] at h
  · rw [bind_error hrun]
    exact h
  · rw [bind_ok hrun]
    obtain ⟨hm'', hf'', hchain⟩ := hg a m' h.1 h.2.1
    refine ⟨hm'', hf'', ?_⟩
    rw [List.map_append]
    exact h.2.2.append hchain

theorem attempt (h : Ledgered label f x) : Ledgered label f x.attempt := h

theorem relabel {δ : Type} {g : ε → δ} {label : δ → Entry} (h : Ledgered (label ∘ g) f x) :
    Ledgered label f (x.relabel g) := by
  intro m hm hf
  obtain ⟨hm', hf', hchain⟩ := h m hm hf
  refine ⟨hm', hf', ?_⟩
  rw [← List.map_map] at hchain
  exact hchain

theorem ite {p : Prop} [Decidable p] {x' : Recorded ε α} (hx : Ledgered label f x)
    (hx' : Ledgered label f x') : Ledgered label f (if p then x else x') := by
  split
  · exact hx
  · exact hx'

theorem forM {γ : Type} {l : List γ} {g : γ → Recorded ε PUnit} (h : ∀ c, Ledgered label f (g c)) :
    Ledgered label f (l.forM g) := by
  induction l with
  | nil => exact pure _
  | cons c l ih => exact (h c).bind fun _ => ih

end Ledgered

theorem Assignment.truthy_of_request {a : Assignment} (h : a.request.isSome) : a.previous.isTruthy := by
  unfold request at h
  dsimp only at h
  split at h
  case isTrue hcond =>
    simp only [Bool.and_eq_true] at hcond
    exact hcond.1.2
  case isFalse => cases h

theorem Release.truthy_of_request {c : Release} (h : c.request.isSome) : c.value.isTruthy := by
  unfold request at h
  split at h
  case isTrue htruthy => exact htruthy
  case isFalse => cases h

section Operations

variable {E : Engine} (hE : Quiet E) {f : FiberId} {n : Nat}

theorem ledgered_recordClosure (i : Instruction) : Ledgered id f (recordClosure f i) := by
  intro m hm hf
  have h := furnishes_makeClosure (f := f) i m hm hf
  refine ⟨h.sound, h.busy, .single ⟨fun _ => False.elim, fun place hplace => ?_⟩⟩
  obtain hheld | ⟨hdepth, hslot⟩ := h.holds place hplace
  · exact .inr ⟨hheld, False.elim⟩
  · by_cases hvacant : (m.fiber f).isVacant place.2
    · exact .inl ⟨hdepth, List.mem_filter.2 ⟨hslot, hvacant⟩⟩
    · refine .inr ⟨?_, False.elim⟩
      rw [← Prod.mk.eta (p := place), hdepth]
      exact Fiber.holds_top.2 (by simpa using hvacant)

include hE

theorem ledgered_recordAssign (s : Symbol) (v : Value) : Ledgered id f (recordAssign E f s v) := by
  intro m hm hf
  have h := furnished_assignLocal (f := f) (m := m) hE s v m (.refl hm hf)
  have hcloses (outcome : Except Stop Unit) (after : Machine) (place : Nat × Nat) (hplace : Entry.Closes place
      (.assigned ⟨(m.fiber f).depth, s, v, m.held f s.index, m, outcome, after⟩)) :
      (m.fiber f).Holds place :=
    hplace.1 ▸ Machine.holds_of_truthy (Assignment.truthy_of_request hplace.2)
  rw [recordAssign, noted]
  rcases hrun : assignLocal E f s v m with ⟨stop | _, m'⟩ <;> rw [hrun] at h
  · refine ⟨h.sound, h.busy, .single ⟨hcloses _ _, fun place hplace => .inr ⟨?_, fun _ h => by cases h⟩⟩⟩
    exact (h.holds place hplace).resolve_right And.right
  · refine ⟨h.sound, h.busy, .single ⟨hcloses _ _, fun place hplace => ?_⟩⟩
    by_cases hslot : place = ((m.fiber f).depth, s.index)
    · exact .inl ⟨hslot, rfl⟩
    · refine .inr ⟨(h.holds place hplace).resolve_right fun h => hslot (Prod.ext h.1 h.2), ?_⟩
      exact fun hcloses => absurd hcloses.1 hslot

theorem ledgered_releaseSymbol (s : Symbol) (error : Value) :
    Ledgered Entry.closed f (releaseSymbol E f s error) := by
  intro m hm hf
  rcases hcalls : (m.fiber f).calls with _ | ⟨frame, outer⟩
  · obtain ⟨message, htop⟩ := topFrame_nil hcalls
    have htake : takeClosable f s m = (.error (.fault (.internal message)), m) := bind_error htop
    have hrun : releaseSymbol E f s error m = ((.error (.fault (.internal message)), m), []) :=
      (silent_ok (readFiber_apply f _ m)).trans (silent_error htake)
    rw [hrun]
    exact ⟨hm, hf, .nil fun _ => id⟩
  have hdepth : outer.length = (m.fiber f).depth := by
    rw [Fiber.depth, Fiber.size_frames, hcalls]
    rfl
  have hvalue : frame.localValue m.heap s.index = m.held f s.index := by
    rw [Machine.held, Fiber.back?_frames, hcalls]
    rfl
  have hawaits : Awaits f frame outer frame.blocks m := ⟨hcalls⟩
  rw [hawaits.releaseSymbol_apply, hdepth, hvalue]
  split
  · have htaken : Alone f m (m.withTop f (.take s.index)) := .withTop hf _
    obtain ⟨hm', hf', hframes⟩ := still_closeValue hE s (m.held f s.index) error _
      (htaken.sound hm) (htaken.busy hf)
    refine ⟨hm', hf', .single ⟨fun place hplace => ?_, fun place hplace => .inr ?_⟩⟩
    · exact hplace.1 ▸ Machine.holds_of_truthy (Release.truthy_of_request hplace.2)
    · rw [Fiber.Holds, releaseValue, noted, hframes] at hplace
      obtain ⟨hheld, hne⟩ := Machine.holds_take hf.1 hplace
      exact ⟨hheld, fun hcloses => absurd hcloses.1 hne⟩
  · exact ⟨hm, hf, .nil fun _ => id⟩

theorem ledgered_releaseSymbols (ss : List Symbol) (error : Value) :
    Ledgered Entry.closed f (releaseSymbols E f ss error) :=
  .forM fun s => ledgered_releaseSymbol hE s error

theorem ledgered_releaseBlock (error : Value) :
    Ledgered Entry.closed f (releaseBlock E f error n) := by
  have hblocks (blocks : List (List Symbol)) :
      Ledgered Entry.closed f (silent (modifyFrame f fun frame => { frame with blocks })) :=
    .silent (vacates_modifyFrame fun _ _ => id)
  induction n with
  | zero => exact .throw _
  | succ n ih =>
    refine .bind (.still still_topFrame) fun top => ?_
    match top.blocks with
    | [] => exact .pure _
    | [] :: outer => exact hblocks outer
    | (s :: rest) :: outer =>
      exact .bind (hblocks (rest :: outer)) fun _ => .bind (ledgered_releaseSymbol hE s error) fun _ => ih

theorem ledgered_releaseBlocks (error : Value) :
    Ledgered Entry.closed f (releaseBlocks E f error n) := by
  induction n with
  | zero => exact .throw _
  | succ n ih =>
    exact .bind (.still still_topFrame) fun top =>
      .ite (.pure _) (.bind (ledgered_releaseBlock hE error) fun _ => ih)

theorem ledgered_releaseFrames : Ledgered Entry.closed f (releaseFrames E f n) := by
  induction n with
  | zero => exact .throw _
  | succ n ih =>
    exact .bind (.still (.readFiber _ _)) fun _ => .ite (.bind (ledgered_releaseBlocks hE .nil) fun _ =>
      .bind (.silent (.bind vacates_popFrame fun _ => .pure _)) fun _ => ih) (.pure _)

omit hE in
theorem vacates_openBlock (i : Instruction) : Preserves (Vacates f) (openBlock f i) :=
  .bind (.bind (vacates_of_still still_topFrame) fun _ => .pure _) fun _ =>
    vacates_modifyFrame fun _ _ h => Frame.isSome_local?_clear h

theorem vacates_settled (frame : Frame) :
    Preserves (Vacates f) (settle (performCall E f n) f frame.returnTo frame.isEntry) :=
  vacates_settle (vacates_performCall hE n) _ _

theorem vacates_finishReturn (i : Instruction) (ip : Nat) :
    Preserves (Vacates f) (finishReturn E f n i ip) := by
  refine .ite (.bind (.pure _) fun v => ?_)
    (.ite (.bind (vacates_of_still still_pop) fun v => ?_) (.bind (.internal _) fun v => ?_))
  all_goals
    exact .bind vacates_popFrame fun frame => .bind (vacates_of_still still_popArguments) fun _ =>
      .bind (.read _) fun location => .bind (vacates_of_still (still_push v)) fun _ => .ite
        (.bind (vacates_of_still still_pop) fun v =>
          .bind (vacates_of_still (still_of_undisturbed (undisturbed_applyContinuation hE _ _ _ _))) fun _ =>
            .bind (vacates_of_still (still_push _)) fun _ => vacates_settled hE frame)
        (vacates_settled hE frame)

theorem vacates_handOver (frame : Frame) (handler : NativeId) (e : RuntimeError) :
    Preserves (Vacates f) (handOver E f n frame handler e) :=
  .first (vacates_of_still still_popArguments) fun _ => .bind (vacates_request hE _) fun _ =>
    .bind (vacates_of_still (still_push _)) fun _ => vacates_settled hE frame

/-- The instructions that are about variables account for them, and the others leave them alone. -/
theorem ledgered_recordExecute (ip : Nat) (i : Instruction) :
    Ledgered id f (recordExecute E f n ip i) := by
  have hother (hi : i.isAboutVariables = false) :
      Ledgered id f (silent (ε := Entry) (execute E f n ip i)) :=
    .silent ((bears_vacates hE).execute n ip hE hi)
  unfold recordExecute
  cases hop : i.op with
  | closure => exact .bind (ledgered_recordClosure i) fun _ => .still (still_result _)
  | storeLocal =>
    exact .bind (.bind (.still (still_symbolOf i)) fun s => .bind (.still (still_storedValue i))
      fun v => ledgered_recordAssign hE s v) fun _ => .pure _
  | bindArguments =>
    exact .bind (.bind (.still still_stackedArguments) fun _ => .forM fun _ =>
      ledgered_recordAssign hE _ _) fun _ => .pure _
  | enter =>
    exact .bind (.relabel (ledgered_releaseSymbols hE _ _)) fun _ => .bind (.silent (vacates_openBlock i))
      fun _ => .pure _
  | leave | exit =>
    exact .bind (.relabel (ledgered_releaseBlock hE _)) fun _ => .bind (.silent (vacates_clearSlots i))
      fun _ => .pure _
  | clean =>
    exact .bind (.relabel (ledgered_releaseSymbols hE _ _)) fun _ => .bind (.silent (vacates_clearSlots i))
      fun _ => .pure _
  | ret =>
    exact .bind (.relabel (ledgered_releaseBlocks hE _)) fun _ =>
      .bind (.silent (vacates_finishReturn hE i ip)) fun _ => .pure _
  | beginFunction =>
    refine .silent ?_
    unfold execute
    rw [hop]
    exact .bind (vacates_beginFunction i) fun _ => .pure _
  | _ => exact hother (by rw [Instruction.isAboutVariables, hop])

theorem ledgered_recordStep (limit : Option Nat) (executed ip : Nat) :
    Ledgered id f (recordStep E f n limit executed ip) := by
  refine .bind (.still (.read _)) fun i? => ?_
  cases i? with
  | none => exact .still (.internal _)
  | some i =>
    have hsuspend : Preserves (Still f) (suspendAt f ip) :=
      .bind (still_modifyFiber fun _ => ⟨.stacks .., rfl⟩) fun _ =>
        .bind (still_push _) fun _ => .pure _
    exact .bind (.still (still_of_aside (observes_listening f ip i).aside)) fun _ =>
      .ite (.still hsuspend) (ledgered_recordExecute hE ip i)

theorem ledgered_recordUnwind (e : RuntimeError) : Ledgered id f (recordUnwind E f n e) := by
  induction n generalizing e with
  | zero => exact .throw _
  | succ n ih =>
    refine .bind (.still (.readFiber _ _)) fun _ => .ite (.throw _)
      (.bind (.attempt (.relabel (ledgered_releaseBlocks hE _))) fun r => ?_)
    rcases r with ((raised | _) | _) | _
    case error.fault.runtime =>
      exact .bind (.still (still_of_aside (detached_emit _ rfl).aside)) fun _ => ih _
    case ok =>
      refine .bind (.silent vacates_popFrame) fun frame => ?_
      cases frame.handlers.onError with
      | some handler => exact .silent (vacates_handOver hE frame handler e)
      | none => exact .ite (.throw _) (ih e)
    all_goals exact .throw _

/-- A round accounts for all variables that come and go. -/
theorem ledgered_recordRound (limit : Option Nat) (executed ip : Nat) :
    Ledgered id f (recordRound E f n limit executed ip) := by
  refine .bind (.attempt (ledgered_recordStep hE limit executed ip)) fun r => ?_
  rcases r with ((e | _) | _) | flow
  case error.fault.runtime =>
    refine .bind (.still (still_of_undisturbed (undisturbed_announce hE e))) fun e =>
      .bind (ledgered_recordUnwind hE e) fun r => .still ?_
    cases r with
    | jump target => exact .bind (.readFiber _ _) fun _ => .pure _
    | done | yielded => exact .pure _
  case ok => exact .pure _
  all_goals exact .throw _

end Operations

end ScriptMachine
