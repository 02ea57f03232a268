import ScriptMachine.Proofs.Machine.Finalizers

namespace ScriptMachine

open Exec Machine

variable {m : Machine}

theorem Exec.stopped_bind {α β : Type} {y : Exec α} {g : α → Exec β} {s : Stop}
    (h : (y m).1 = .error s) : ((y >>= g) m).1 = .error s := by
  have hrun : y m = (.error s, (y m).2) := Prod.ext h rfl
  exact congrArg Prod.fst (bind_error hrun)

/-- A slot of a frame waits to be closed, and a cell holds its variable. -/
structure Frame.Waits (frame : Frame) (slot : Nat) (cell : CellId) : Prop where
  pending : slot ∈ frame.pending
  nodup : frame.pending.Nodup
  listed : slot ∈ frame.blocks.flatten.map Symbol.index
  held : frame.local? slot = some cell

namespace Frame.Waits

variable {frame : Frame} {slot i : Nat} {cell : CellId}

theorem reserve (h : frame.Waits slot cell) (i : Nat) : (frame.reserve i).Waits slot cell := by
  unfold Frame.reserve
  split
  · exact h
  · refine ⟨h.pending, h.nodup, h.listed, ?_⟩
    have hheld := h.held
    simp only [local?, Option.join_eq_some_iff] at hheld ⊢
    rw [Array.getElem?_append_left (Array.getElem?_eq_some_iff.1 hheld).1]
    exact hheld

theorem setLocal (h : frame.Waits slot cell) (hne : i ≠ slot) (cell' : Option CellId) :
    (frame.setLocal i cell').Waits slot cell :=
  ⟨h.pending, h.nodup, h.listed,
    (congrArg Option.join (Array.getElem?_setIfInBounds_ne hne)).trans h.held⟩

theorem addPending (h : frame.Waits slot cell) (slots : List Nat) :
    (frame.addPending slots).Waits slot cell := by
  have hfold (pending : List Nat) (hset : pending.Nodup ∧ slot ∈ pending) :
      (slots.foldl (fun pending i => pending.insert i) pending).Nodup ∧
        slot ∈ slots.foldl (fun pending i => pending.insert i) pending := by
    induction slots generalizing pending with
    | nil => exact hset
    | cons i slots ih => exact ih _ ⟨hset.1.insert, List.mem_insert_of_mem hset.2⟩
  obtain ⟨hnodup, hmem⟩ := hfold frame.pending ⟨h.nodup, h.pending⟩
  exact ⟨hmem, hnodup, h.listed, h.held⟩

theorem take (h : frame.Waits slot cell) (hne : i ≠ slot) : (frame.take i).Waits slot cell where
  pending := (List.mem_erase_of_ne hne.symm).2 h.pending
  nodup := h.nodup.erase _
  listed := h.listed
  held := (local?_take hne.symm).trans h.held

theorem withBlocks (h : frame.Waits slot cell) {blocks : List (List Symbol)}
    (hlisted : slot ∈ blocks.flatten.map Symbol.index) :
    { frame with blocks }.Waits slot cell :=
  ⟨h.pending, h.nodup, hlisted, h.held⟩

end Frame.Waits

/-- Whether a range of slots that an instruction empties has a slot. -/
def Instruction.empties (i : Instruction) (slot : Nat) : Prop :=
  ¬ (i.number < 0 ∨ i.number2 < i.number) ∧
    i.number.toInt.toNat ≤ slot ∧ slot ≤ i.number2.toInt.toNat

instance (i : Instruction) (slot : Nat) : Decidable (i.empties slot) :=
  inferInstanceAs (Decidable (_ ∧ _))

theorem Frame.Waits.clear {frame : Frame} {slot : Nat} {cell : CellId} (h : frame.Waits slot cell)
    {i : Instruction} (hkept : ¬ i.empties slot) :
    (frame.clear i.number i.number2).Waits slot cell := by
  unfold Frame.clear
  split
  · exact h
  · rename_i hrange
    have hout : ¬ (i.number.toInt.toNat ≤ slot ∧ slot ≤ i.number2.toInt.toNat) :=
      fun hin => hkept ⟨hrange, hin⟩
    refine ⟨List.mem_filter.2 ⟨h.pending, ?_⟩, h.nodup.filter _, h.listed, ?_⟩
    · simp only [decide_eq_true_eq]
      omega
    · have hheld := h.held
      simp only [local?, Option.join_eq_some_iff] at hheld ⊢
      rw [Array.getElem?_mapIdx, hheld, Option.map_some, if_neg hout]

/-- A local variable of a call under way: how many calls of the flow are further out, the slot in
its frame, and the cell that holds it. -/
structure Variable where
  fiber : FiberId
  depth : Nat
  slot : Nat
  cell : CellId

namespace Variable

variable (x : Variable)

/-- The variable waits to be closed in one of some calls. -/
def WaitsIn (calls : List Frame) : Prop :=
  ∃ inner frame outer, calls = inner ++ frame :: outer ∧ outer.length = x.depth ∧
    frame.Waits x.slot x.cell

def Waits (m : Machine) : Prop := x.WaitsIn (m.fiber x.fiber).calls

def IsClosable (h : Heap) : Prop :=
  (h.cell x.cell).isTruthy ∧ (h.metamethod? (h.cell x.cell) "__close").isSome

/-- A request to finalize what the variable holds, when it has been taken off the list of its
frame. -/
def Closes (request : Request) (m : Machine) : Prop :=
  (∃ inner frame outer, (m.fiber x.fiber).calls = inner ++ frame :: outer ∧
    outer.length = x.depth ∧ x.slot ∉ frame.pending) ∧
  ∃ handler error, m.heap.metamethod? (m.heap.cell x.cell) "__close" = some handler ∧
    request = .call handler [m.heap.cell x.cell, error]

variable {x} {top : Frame} {rest calls : List Frame}

theorem not_waitsIn_nil : ¬ x.WaitsIn [] := by
  rintro ⟨inner, frame, outer, hcalls, -⟩
  simp at hcalls

theorem waitsIn_cons : x.WaitsIn (top :: rest) ↔
    x.WaitsIn rest ∨ rest.length = x.depth ∧ top.Waits x.slot x.cell := by
  constructor
  · rintro ⟨inner, frame, outer, hcalls, hdepth, hwaits⟩
    cases inner with
    | nil =>
      obtain ⟨rfl, rfl⟩ := List.cons.inj hcalls
      exact .inr ⟨hdepth, hwaits⟩
    | cons _ inner => exact .inl ⟨inner, frame, outer, (List.cons.inj hcalls).2, hdepth, hwaits⟩
  · rintro (⟨inner, frame, outer, rfl, hdepth, hwaits⟩ | ⟨hdepth, hwaits⟩)
    · exact ⟨top :: inner, frame, outer, rfl, hdepth, hwaits⟩
    · exact ⟨[], top, rest, rfl, hdepth, hwaits⟩

theorem WaitsIn.depth_lt (h : x.WaitsIn calls) : x.depth < calls.length := by
  obtain ⟨inner, frame, outer, rfl, hdepth, -⟩ := h
  rw [List.length_append, List.length_cons]
  omega

theorem WaitsIn.change (h : x.WaitsIn (top :: rest)) {top' : Frame}
    (hkept : rest.length = x.depth → top.Waits x.slot x.cell → top'.Waits x.slot x.cell) :
    x.WaitsIn (top' :: rest) :=
  waitsIn_cons.2 ((waitsIn_cons.1 h).imp_right fun htop => ⟨htop.1, hkept htop.1 htop.2⟩)

/-- An engine that is stopped in one of some ways where the variable would be finalized, or where
its value can no longer be. -/
structure Guards (x : Variable) (Stops : Stop → Prop) (E : Engine) : Prop where
  quiet : Quiet E
  uncaught : ∀ s, Stops s → s.isCatchable = false
  closes : ∀ request m, x.Closes request m → ∃ s, Stops s ∧ (E request m).1 = .error s
  keeps : ∀ request m, x.IsClosable m.heap →
    x.IsClosable (E request m).2.heap ∨ ∃ s, Stops s ∧ (E request m).1 = .error s

end Variable

/-- A change of one's own flow that is not about its frames. -/
def Still (f : FiberId) (m m' : Machine) : Prop :=
  Sound m → Busy m f → Sound m' ∧ Busy m' f ∧ (m'.fiber f).frames = (m.fiber f).frames

instance (f : FiberId) : Std.Refl (Still f) := ⟨fun _ hm hf => ⟨hm, hf, rfl⟩⟩

instance (f : FiberId) : IsTrans Machine (Still f) where
  trans _ _ _ h h' hm hf := by
    obtain ⟨hm', hf', hframes⟩ := h hm hf
    obtain ⟨hm'', hf'', hframes'⟩ := h' hm' hf'
    exact ⟨hm'', hf'', hframes'.trans hframes⟩

section Still

variable {f : FiberId} {α : Type}

theorem Undisturbed.still {m' : Machine} (h : Undisturbed m m') : Still f m m' := by
  intro hm hf
  have halone := Alone.of_undisturbed h hm hf
  exact ⟨halone.sound hm, halone.busy hf, congrArg Fiber.frames ((h hm).fiber f trivial hf)⟩

theorem still_of_undisturbed {y : Exec α} (h : Preserves Undisturbed y) : Preserves (Still f) y :=
  h.mono fun _ _ => Undisturbed.still

theorem still_of_aside {y : Exec α} (h : Preserves Aside y) : Preserves (Still f) y :=
  still_of_undisturbed h.undisturbed

theorem still_modifyFiber {u : Fiber → Fiber} (h : ∀ b, SameRole b (u b) ∧ (u b).frames = b.frames) :
    Preserves (Still f) (modifyFiber f u) := by
  intro m hm hf
  have halone : Alone f m (m.withFiber f u) := .withFiber hf.1 (h _).1
  exact ⟨halone.sound hm, halone.busy hf,
    (congrArg Fiber.frames (fiber_withFiber_self hf.1)).trans (h _).2⟩

theorem still_modifyValues (u : Fiber → Array Value) :
    Preserves (Still f) (modifyFiber f fun b => { b with values := u b }) :=
  still_modifyFiber fun _ => ⟨.stacks .., rfl⟩

theorem still_push (v : Value) : Preserves (Still f) (push f v) := still_modifyValues _

theorem still_pushAll (vs : List Value) : Preserves (Still f) (pushAll f vs) := still_modifyValues _

theorem still_peek (depth : Nat) : Preserves (Still f) (peek f depth) := still_of_aside (aside_peek f depth)

theorem still_poke (depth : Nat) (v : Value) : Preserves (Still f) (poke f depth v) :=
  .bind (still_peek depth) fun _ => still_modifyValues _

theorem still_pop : Preserves (Still f) (pop f) := by
  refine .bind (.readFiber _ _) fun v => ?_
  cases v with
  | none => exact .internal _
  | some v => exact .bind (still_modifyValues _) fun _ => .pure _

theorem still_drop (n : Nat) : Preserves (Still f) (drop f n) :=
  .bind (.readFiber _ _) fun _ => .ite (.internal _) (still_modifyValues _)

theorem still_popMany (n : Nat) : Preserves (Still f) (popMany f n) :=
  .bind (.readFiber _ _) fun _ => .ite (.internal _)
    (.bind (.readFiber _ _) fun _ => .bind (still_modifyValues _) fun _ => .pure _)

theorem still_popArguments : Preserves (Still f) (popArguments f) := by
  refine .bind still_pop fun v => ?_
  split
  · exact .ite (.ite (still_drop _) (.throw _)) (.internal _)
  · exact .internal _

theorem still_resolveCallee (name : Option String) (chain argc : Nat) :
    Preserves (Still f) (resolveCallee f name chain argc) :=
  .resolveCallee still_peek still_modifyValues chain argc

end Still

namespace Variable

/-- A flow in the middle of a run, with a condition on the objects and one on the calls under way. -/
structure Stands (x : Variable) (K : Heap → Prop) (C : List Frame → Prop) (m : Machine) : Prop where
  sound : Sound m
  busy : Busy m x.fiber
  heap : K m.heap
  calls : C (m.fiber x.fiber).calls

/-- An operation leads from one condition on the calls under way to another one, and if it fails the
variable goes on to wait, unless it is stopped. -/
def Leads {α : Type} (x : Variable) (Stops : Stop → Prop) (K : Heap → Prop) (C D : List Frame → Prop)
    (y : Exec α) : Prop :=
  Triple (x.Stands K C) y (fun _ => x.Stands K D) (fun s m => Stops s ∨ x.Stands K x.WaitsIn m)

/-- The variable waits in a call below the one on top. -/
def WaitsBelow (x : Variable) (calls : List Frame) : Prop :=
  ∃ top rest, calls = top :: rest ∧ x.WaitsIn rest

/-- The variable waits, and something holds if it does so in the frame on top. -/
def WaitsWith (x : Variable) (p : Prop) (calls : List Frame) : Prop :=
  x.WaitsIn calls ∧ (calls.length = x.depth + 1 → p)

/-- The same in a stack whose frame on top has some blocks open. -/
def WaitsOver (x : Variable) (p : Prop) (blocks : List (List Symbol)) (calls : List Frame) : Prop :=
  x.WaitsWith p calls ∧ calls.head?.map Frame.blocks = some blocks

variable {x : Variable} {Stops : Stop → Prop} {K : Heap → Prop} {C D F : List Frame → Prop} {α β : Type}
  {p : Prop} {blocks : List (List Symbol)} {calls rest : List Frame} {top : Frame}

theorem WaitsBelow.waitsIn (h : x.WaitsBelow calls) : x.WaitsIn calls := by
  obtain ⟨top, rest, rfl, h⟩ := h
  exact waitsIn_cons.2 (.inl h)

theorem WaitsWith.over (h : x.WaitsWith p calls) : ∃ blocks, x.WaitsOver p blocks calls := by
  cases calls with
  | nil => exact (not_waitsIn_nil h.1).elim
  | cons top rest => exact ⟨top.blocks, h, rfl⟩

theorem WaitsOver.blocks_eq (h : x.WaitsOver p blocks calls) (htop : calls.head? = some top) :
    top.blocks = blocks := by
  have hblocks := h.2
  rw [htop] at hblocks
  exact Option.some.inj hblocks

namespace Leads

theorem pure (a : α) : x.Leads Stops K C C (pure a : Exec α) := Triple.pure fun _ h => h

theorem bind {y : Exec α} {g : α → Exec β} (hy : x.Leads Stops K C D y)
    (hg : ∀ a, x.Leads Stops K D F (g a)) : x.Leads Stops K C F (y >>= g) := Triple.bind hy hg

theorem ite [Decidable p] {y z : Exec α} (hy : x.Leads Stops K C D y) (hz : x.Leads Stops K C D z) :
    x.Leads Stops K C D (if p then y else z) := Triple.ite (fun _ => hy) fun _ => hz

theorem first [Decidable p] {y : Exec Unit} {g : Unit → Exec β} (hy : x.Leads Stops K C C y)
    (hg : ∀ u, x.Leads Stops K C D (g u)) : x.Leads Stops K C D (if p then y >>= g else g ()) :=
  Triple.first hy hg

theorem conseq {C' D' : List Frame → Prop} {y : Exec α} (hy : x.Leads Stops K C D y)
    (hC : ∀ calls, C' calls → C calls) (hD : ∀ calls, D calls → D' calls) : x.Leads Stops K C' D' y :=
  Triple.conseq hy (fun _ h => ⟨h.sound, h.busy, h.heap, hC _ h.calls⟩)
    (fun _ _ h => ⟨h.sound, h.busy, h.heap, hD _ h.calls⟩) fun _ _ h => h

section Waiting

variable (hC : ∀ calls, C calls → x.WaitsIn calls)
include hC

theorem throw (s : Stop) : x.Leads Stops K C D (throw s : Exec α) :=
  Triple.throw fun _ h => .inr ⟨h.sound, h.busy, h.heap, hC _ h.calls⟩

theorem still {y : Exec α} (hy : Preserves (Still x.fiber) y)
    (hK : ∀ m, K m.heap → K (y m).2.heap) : x.Leads Stops K C C y := by
  have hsame (m : Machine) (hm : x.Stands K C m) : x.Stands K C (y m).2 := by
    obtain ⟨hsound, hbusy, hframes⟩ := hy m hm.sound hm.busy
    refine ⟨hsound, hbusy, hK m hm.heap, ?_⟩
    rw [Fiber.calls, hframes]
    exact hm.calls
  exact Triple.of_state (fun m hm _ => hsame m hm) fun m hm _ =>
    (.inr ⟨(hsame m hm).sound, (hsame m hm).busy, (hsame m hm).heap, hC _ (hsame m hm).calls⟩)

theorem modifyFrame {g : Frame → Frame} (hg : ∀ top rest, C (top :: rest) → D (g top :: rest)) :
    x.Leads Stops K C D (modifyFrame x.fiber g) := by
  refine Triple.modifyFiber fun m hm => ?_
  have halone : Alone x.fiber m (m.withTop x.fiber g) :=
    .withFiber hm.busy.1 (.stacks ..)
  refine ⟨halone.sound hm.sound, halone.busy hm.busy, hm.heap, ?_⟩
  have hcalls := hm.calls
  cases hlist : (m.fiber x.fiber).calls with
  | nil =>
    rw [hlist] at hcalls
    exact (not_waitsIn_nil (hC _ hcalls)).elim
  | cons top rest =>
    rw [hlist] at hcalls
    exact (calls_withTop hlist g).symm ▸ hg top rest hcalls

theorem topFrame {g : Frame → Exec α} (hg : ∀ top, x.Leads Stops K
    (fun calls => C calls ∧ calls.head? = some top) D (g top)) :
    x.Leads Stops K C D (topFrame x.fiber >>= g) := by
  intro m hm
  have hcalls := hm.calls
  cases hlist : (m.fiber x.fiber).calls with
  | nil =>
    rw [hlist] at hcalls
    exact (not_waitsIn_nil (hC _ hcalls)).elim
  | cons top rest =>
    rw [bind_ok (topFrame_apply hlist)]
    exact hg top m ⟨hm.sound, hm.busy, hm.heap, hcalls, by rw [hlist]; rfl⟩

end Waiting

theorem pushFrame (frame : Frame) : x.Leads Stops K x.WaitsIn x.WaitsBelow (pushFrame x.fiber frame) := by
  refine Triple.modifyFiber fun m hm => ?_
  have halone : Alone x.fiber m (m.withFiber x.fiber fun b => { b with frames := b.frames.push frame }) :=
    .withFiber hm.busy.1 (.stacks ..)
  refine ⟨halone.sound hm.sound, halone.busy hm.busy, hm.heap, frame, (m.fiber x.fiber).calls, ?_, hm.calls⟩
  rw [fiber_withFiber_self hm.busy.1, Fiber.calls_push]

theorem popped {u : Fiber → Array Value} : x.Leads Stops K x.WaitsBelow x.WaitsIn
    (modifyFiber x.fiber fun b => { b with frames := b.frames.pop, values := u b }) := by
  refine Triple.modifyFiber fun m hm => ?_
  have halone : Alone x.fiber m (m.withFiber x.fiber fun b =>
      { b with frames := b.frames.pop, values := u b }) :=
    .withFiber hm.busy.1 (.stacks ..)
  refine ⟨halone.sound hm.sound, halone.busy hm.busy, hm.heap, ?_⟩
  obtain ⟨top, rest, hcalls, hwaits⟩ := hm.calls
  have hpop : (((m.withFiber x.fiber fun b =>
      { b with frames := b.frames.pop, values := u b })).fiber x.fiber).calls = rest := by
    rw [fiber_withFiber_self hm.busy.1]
    exact (Fiber.calls_pop _).trans (congrArg List.tail hcalls)
  rw [hpop]
  exact hwaits

theorem popFrame : x.Leads Stops K x.WaitsBelow x.WaitsIn (popFrame x.fiber) :=
  .topFrame (fun _ => WaitsBelow.waitsIn) fun _ =>
    .bind (popped.conseq (fun _ h => h.1) fun _ h => h) fun _ => .pure _

theorem of_stops {y : Exec α} (h : ∃ s, Stops s ∧ (y m).1 = .error s) : match y m with
    | (.ok _, m') => x.Stands K D m'
    | (.error s, m') => Stops s ∨ x.Stands K x.WaitsIn m' := by
  obtain ⟨s, hs, hstop⟩ := h
  rcases hrun : y m with ⟨s' | a, m'⟩ <;> rw [hrun] at hstop <;> cases hstop
  exact .inl hs

end Leads

section Closing

variable {E : Engine} (hE : x.Guards Stops E)

theorem WaitsWith.head (h : x.WaitsWith p (top :: rest)) :
    x.WaitsIn rest ∨ rest.length = x.depth ∧ top.Waits x.slot x.cell ∧ p :=
  (waitsIn_cons.1 h.1).imp_right fun htop => ⟨htop.1, htop.2, h.2 (congrArg Nat.succ htop.1)⟩

theorem waitsWith_cons : x.WaitsWith p (top :: rest) ↔
    x.WaitsIn rest ∨ rest.length = x.depth ∧ top.Waits x.slot x.cell ∧ p := by
  refine ⟨WaitsWith.head, ?_⟩
  rintro (h | ⟨hlen, hwaits, hp⟩)
  · refine ⟨waitsIn_cons.2 (.inl h), fun hlen => ?_⟩
    have hlt := h.depth_lt
    rw [List.length_cons] at hlen
    omega
  · exact ⟨waitsIn_cons.2 (.inr ⟨hlen, hwaits⟩), fun _ => hp⟩

include hE

theorem leads_request (hC : ∀ calls, C calls → x.WaitsIn calls) (request : Request) :
    x.Leads Stops x.IsClosable C C (E request) := by
  intro m hm
  obtain ⟨hsound, hbusy, hframes⟩ := (hE.quiet request m).still hm.sound hm.busy
  have hcalls : C ((E request m).2.fiber x.fiber).calls := by
    rw [Fiber.calls, hframes]
    exact hm.calls
  rcases hE.keeps request m hm.heap with hheap | ⟨s, hs, hstop⟩ <;>
    rcases hrun : E request m with ⟨stop | v, m'⟩ <;> rw [hrun] at hsound hbusy hcalls
  · rw [hrun] at hheap
    exact .inr ⟨hsound, hbusy, hheap, hC _ hcalls⟩
  · rw [hrun] at hheap
    exact ⟨hsound, hbusy, hheap, hcalls⟩
  · rw [hrun] at hstop
    cases hstop
    exact .inl hs
  · rw [hrun] at hstop
    cases hstop

theorem leads_closeValue (hC : ∀ calls, C calls → x.WaitsIn calls) (s : Symbol) (v error : Value) :
    x.Leads Stops x.IsClosable C C (closeValue E s v error) := by
  refine .ite (.bind (.still hC (.read _) fun _ h => h) fun handler => ?_) (.pure _)
  cases handler with
  | none => exact .throw hC _
  | some handler => exact .bind (leads_request hE hC _) fun _ => .pure _

/-- The variable is not closed unless the engine is stopped. -/
theorem stops_closeValue (hcalls : (m.fiber x.fiber).calls = top :: rest)
    (hlen : rest.length = x.depth) (htaken : x.slot ∉ top.pending) (hheap : x.IsClosable m.heap)
    (s : Symbol) (error : Value) :
    ∃ stop, Stops stop ∧ (closeValue E s (m.heap.cell x.cell) error m).1 = .error stop := by
  obtain ⟨htruthy, hsome⟩ := hheap
  obtain ⟨handler, hhandler⟩ := Option.isSome_iff_exists.1 hsome
  obtain ⟨stop, hstops, hstop⟩ := hE.closes (.call handler [m.heap.cell x.cell, error]) m
    ⟨⟨[], top, rest, hcalls, hlen, htaken⟩, handler, error, hhandler, rfl⟩
  have hread : metamethod? (m.heap.cell x.cell) "__close" m = (.ok (some handler), m) :=
    congrArg (Except.ok ·, m) hhandler
  refine ⟨stop, hstops, ?_⟩
  rw [closeValue, if_pos htruthy, bind_ok hread]
  exact stopped_bind hstop

/-- The variable is not taken off the list of its frame unless the engine is stopped. -/
theorem stops_closeSymbol (hcalls : (m.fiber x.fiber).calls = top :: rest)
    (hlen : rest.length = x.depth) (hpending : x.slot ∈ top.pending) (hnodup : top.pending.Nodup)
    (hheld : top.local? x.slot = some x.cell) (hheap : x.IsClosable m.heap) {s : Symbol}
    (hs : s.index = x.slot) (error : Value) :
    ∃ stop, Stops stop ∧ (closeSymbol E x.fiber s error m).1 = .error stop := by
  have hawaits : Awaits x.fiber top rest top.blocks m := ⟨hcalls⟩
  have hvalue : top.localValue m.heap s.index = m.heap.cell x.cell := by
    rw [Frame.localValue, hs, hheld]
  rw [hawaits.closeSymbol_apply s error, if_pos (hs ▸ hpending), hvalue]
  exact stops_closeValue hE (m := m.withTop x.fiber (.take s.index))
    (calls_withTop hcalls (.take s.index)) hlen (hs ▸ hnodup.not_mem_erase) hheap s error

theorem leads_closeSymbol (s : Symbol) (error : Value) :
    x.Leads Stops x.IsClosable (x.WaitsOver p blocks) (x.WaitsOver (p ∧ s.index ≠ x.slot) blocks)
      (closeSymbol E x.fiber s error) := by
  intro m hm
  obtain ⟨hwith, hblocks⟩ := hm.calls
  cases hcalls : (m.fiber x.fiber).calls with
  | nil =>
    rw [hcalls] at hwith
    exact (not_waitsIn_nil hwith.1).elim
  | cons top rest =>
    rw [hcalls] at hwith hblocks
    have hawaits : Awaits x.fiber top rest top.blocks m := ⟨hcalls⟩
    by_cases hclosed : rest.length = x.depth ∧ s.index = x.slot
    · obtain ⟨-, hwaits, -⟩ := hwith.head.resolve_left fun h => hclosed.1.not_gt h.depth_lt
      exact Leads.of_stops (stops_closeSymbol hE hcalls hclosed.1 hwaits.pending hwaits.nodup
        hwaits.held hm.heap hclosed.2 error)
    · rw [hawaits.closeSymbol_apply s error]
      by_cases hs : s.index ∈ top.pending
      · rw [if_pos hs]
        have halone : Alone x.fiber m (m.withTop x.fiber (.take s.index)) :=
          .withFiber hm.busy.1 (.stacks ..)
        refine leads_closeValue hE (fun _ h => h.1.1) s _ error _
          ⟨halone.sound hm.sound, halone.busy hm.busy, hm.heap, ?_⟩
        rw [calls_withTop hcalls (.take s.index)]
        refine ⟨waitsWith_cons.2 (hwith.head.imp_right fun ⟨hlen, hwaits, hp⟩ => ?_), hblocks⟩
        have hne : s.index ≠ x.slot := fun h => hclosed ⟨hlen, h⟩
        exact ⟨hlen, hwaits.take hne, hp, hne⟩
      · rw [if_neg hs]
        refine ⟨hm.sound, hm.busy, hm.heap, ?_⟩
        rw [hcalls]
        refine ⟨waitsWith_cons.2 (hwith.head.imp_right fun ⟨hlen, hwaits, hp⟩ => ?_), hblocks⟩
        exact ⟨hlen, hwaits, hp, fun h => hclosed ⟨hlen, h⟩⟩

theorem leads_closeSymbols (ss : List Symbol) (error : Value) :
    x.Leads Stops x.IsClosable (x.WaitsWith p) (x.WaitsWith (p ∧ x.slot ∉ ss.map Symbol.index))
      (closeSymbols E x.fiber ss error) := by
  have hrun (l : List Symbol) (p : Prop) (blocks : List (List Symbol)) :
      x.Leads Stops x.IsClosable (x.WaitsOver p blocks)
        (x.WaitsOver (p ∧ x.slot ∉ l.map Symbol.index) blocks)
        (l.forM fun s => closeSymbol E x.fiber s error) := by
    induction l generalizing p with
    | nil =>
      exact (Leads.pure ()).conseq (fun _ h => h) fun _ h =>
        ⟨⟨h.1.1, fun hlen => ⟨h.1.2 hlen, List.not_mem_nil⟩⟩, h.2⟩
    | cons s l ih =>
      refine .bind (leads_closeSymbol hE s error) fun _ => (ih _).conseq (fun _ h => h) fun _ h =>
        ⟨⟨h.1.1, fun hlen => ?_⟩, h.2⟩
      obtain ⟨⟨hp, hne⟩, hslot⟩ := h.1.2 hlen
      exact ⟨hp, List.not_mem_cons_of_ne_of_not_mem hne.symm hslot⟩
  intro m hm
  obtain ⟨blocks, hover⟩ := hm.calls.over
  refine (hrun ss.reverse p blocks).conseq (fun _ h => h) (fun _ h => ?_) m
    ⟨hm.sound, hm.busy, hm.heap, hover⟩
  simpa only [List.map_reverse, List.mem_reverse] using h.1

/-- Closing the innermost block takes what it lists off the list of the frame. -/
theorem leads_closeBlock (error : Value) (n : Nat) :
    x.Leads Stops x.IsClosable (x.WaitsOver p blocks)
      (x.WaitsWith (p ∧ x.slot ∉ (blocks.headD []).map Symbol.index))
      (closeBlock E x.fiber error n) := by
  induction n generalizing p blocks with
  | zero => exact .throw (fun _ h => h.1.1) _
  | succ n ih =>
    refine .topFrame (fun _ h => h.1.1) fun top => ?_
    rcases hblocks : top.blocks with _ | ⟨_ | ⟨s, rest⟩, outer⟩
    · refine (Leads.pure ()).conseq (fun _ h => h) fun calls h => ?_
      have hnil := WaitsOver.blocks_eq h.1 h.2
      rw [hblocks] at hnil
      exact ⟨h.1.1.1, fun hlen => ⟨h.1.1.2 hlen, hnil ▸ List.not_mem_nil⟩⟩
    · refine .modifyFrame (fun _ h => h.1.1.1) fun top' calls h => ?_
      have hnil := WaitsOver.blocks_eq h.1 h.2
      rw [hblocks] at hnil
      obtain rfl : top' = top := Option.some.inj h.2
      refine waitsWith_cons.2 (h.1.1.head.imp_right fun ⟨hlen, hwaits, hp⟩ => ?_)
      refine ⟨hlen, hwaits.withBlocks ?_, hp, hnil ▸ List.not_mem_nil⟩
      have hlisted := hwaits.listed
      rw [hblocks] at hlisted
      exact hlisted
    · intro m hm
      obtain ⟨⟨hwith, -⟩, hhead⟩ := hm.calls
      have hcons := WaitsOver.blocks_eq hm.calls.1 hm.calls.2
      rw [hblocks] at hcons
      cases hcalls : (m.fiber x.fiber).calls with
      | nil =>
        rw [hcalls] at hhead
        cases hhead
      | cons top' calls =>
        rw [hcalls] at hwith hhead
        obtain rfl : top' = top := Option.some.inj hhead
        have halone : Alone x.fiber m (m.withBlocks x.fiber (rest :: outer)) :=
          .withFiber hm.busy.1 (.stacks ..)
        have hcalls' := calls_withTop hcalls fun t => { t with blocks := rest :: outer }
        dsimp only
        rw [bind_ok (modifyFrame_apply _ _ _)]
        by_cases hclosed : calls.length = x.depth ∧ s.index = x.slot
        · -- Its symbol is gone from the block already, but the slot still waits.
          obtain ⟨-, hwaits, -⟩ := hwith.head.resolve_left fun h => hclosed.1.not_gt h.depth_lt
          obtain ⟨stop, hstops, hstop⟩ := stops_closeSymbol hE hcalls' hclosed.1 hwaits.pending
            hwaits.nodup hwaits.held hm.heap hclosed.2 error
          exact Leads.of_stops ⟨stop, hstops, stopped_bind hstop⟩
        · have hsymbol : x.Leads Stops x.IsClosable (x.WaitsOver p (rest :: outer))
              (x.WaitsOver (p ∧ s.index ≠ x.slot) (rest :: outer)) (closeSymbol E x.fiber s error) :=
            leads_closeSymbol hE s error
          refine hsymbol.bind (fun _ => ih.conseq (fun _ h => h) fun _ h => ?_) _
            ⟨halone.sound hm.sound, halone.busy hm.busy, hm.heap, ?_⟩
          · rw [← hcons]
            refine ⟨h.1, fun hlen => ?_⟩
            obtain ⟨⟨hp, hne⟩, hslot⟩ := h.2 hlen
            exact ⟨hp, List.not_mem_cons_of_ne_of_not_mem hne.symm hslot⟩
          · refine ⟨?_, congrArg (Option.map Frame.blocks ∘ List.head?) hcalls'⟩
            change x.WaitsWith p ((m.withBlocks x.fiber (rest :: outer)).fiber x.fiber).calls
            rw [withBlocks, hcalls']
            refine waitsWith_cons.2 (hwith.head.imp_right fun ⟨hlen, hwaits, hp⟩ => ?_)
            refine ⟨hlen, hwaits.withBlocks ?_, hp⟩
            have hlisted := hwaits.listed
            rw [hblocks] at hlisted
            simp only [List.flatten_cons, List.cons_append, List.map_cons, List.mem_cons] at hlisted ⊢
            exact hlisted.resolve_left fun h => hclosed ⟨hlen, h.symm⟩

theorem leads_closeBlocks (error : Value) (n : Nat) :
    x.Leads Stops x.IsClosable x.WaitsIn x.WaitsBelow (closeBlocks E x.fiber error n) := by
  induction n with
  | zero => exact .throw (fun _ h => h) _
  | succ n ih =>
    refine .topFrame (fun _ h => h) fun top => Triple.ite (fun hempty => ?_) fun _ => ?_
    · refine (Leads.pure ()).conseq (fun _ h => h) fun calls ⟨hwaits, hhead⟩ => ?_
      cases calls with
      | nil => cases hhead
      | cons top' rest =>
        obtain rfl : top' = top := Option.some.inj hhead
        refine ⟨top', rest, rfl, (waitsIn_cons.1 hwaits).resolve_right fun htop => ?_⟩
        have hlisted := htop.2.listed
        rw [List.isEmpty_iff.1 hempty] at hlisted
        exact List.not_mem_nil hlisted
    · refine .bind ?_ fun _ => ih
      intro m hm
      obtain ⟨blocks, hover⟩ := WaitsWith.over (p := True) ⟨hm.calls.1, fun _ => trivial⟩
      exact (leads_closeBlock hE error n).conseq (fun _ h => h) (fun _ h => h.1) m
        ⟨hm.sound, hm.busy, hm.heap, hover⟩

end Closing

end Variable

end ScriptMachine
