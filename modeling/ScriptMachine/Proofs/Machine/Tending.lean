import ScriptMachine.Proofs.Machine.Waiting

namespace ScriptMachine

open Exec Instruction

section Still

variable {f : FiberId} {E : Engine}

theorem still_topFrame : Preserves (Still f) (topFrame f) := still_of_aside (aside_topFrame f)

theorem still_symbolOf (i : Instruction) : Preserves (Still f) (symbolOf i) := by
  unfold symbolOf
  cases i.symbol with
  | none => exact .internal _
  | some s => exact .pure _

theorem still_storedValue (i : Instruction) : Preserves (Still f) (storedValue f i) :=
  .bind (still_peek _) fun _ => .pure _

theorem still_stackedArguments : Preserves (Still f) (stackedArguments f) := by
  refine .bind still_topFrame fun frame => .bind (.readFiber _ _) fun v => ?_
  split
  · exact .ite (.readFiber _ _) (.throw _)
  · exact .internal _

theorem still_result (v : Value) : Preserves (Still f) (result f v) :=
  .bind (still_push v) fun _ => .pure _

section Logic

variable {P : Machine → Prop} {S : Stop → Machine → Prop}
  (hP : ∀ {α : Type} {y : Exec α}, Preserves (Still f) y → Triple P y (fun _ => P) S)
include hP

theorem steady_of_still : Logic.Steady f (fun _ => P) (fun _ => P) S where
  stop {_ s m} _ hm := hP (y := (throw s : Exec Unit)) (.throw s) m hm
  next hm := hm
  result v := hP (still_result v)
  tame h := hP (still_of_aside h.aside)
  pop := hP still_pop

theorem moves_of_still : (Logic.single f (fun _ => P) (fun _ => P) S).Moves :=
  (steady_of_still hP).moves (fun v => hP (still_push v)) (fun vs => hP (still_pushAll vs))
    (fun n => hP (still_drop n)) (fun n => hP (still_popMany n)) fun v _ => hP (still_poke _ v)

theorem asks_of_still (hE : Quiet E) : (Logic.single f (fun _ => P) (fun _ => P) S).Asks E E :=
  (steady_of_still hP).asks (fun _ => hP (still_push _)) fun _ _ => hP (still_of_undisturbed (hE _))

theorem calls_of_still (hcall : ∀ n argc setup, Triple P (performCall E f n argc setup) (fun _ => P) S)
    (n ip : Nat) : (Logic.single f (fun _ => P) (fun _ => P) S).Calls E E n n ip ip :=
  (steady_of_still hP).calls (fun _ => hP (still_push _)) (fun _ => hP (still_pushAll _))
    fun handler arguments => .bind (hP (still_push handler)) fun _ =>
      .bind (hP (still_pushAll arguments)) fun _ => .bind (hcall n _ _) fun _ => .pure fun _ h => h

theorem settle_of_still {call : Nat → CallSetup → Exec Resumption}
    (hcall : ∀ argc setup, Triple P (call argc setup) (fun _ => P) S) (returnTo : Option Nat)
    (isEntry : Bool) : Triple P (settle call f returnTo isEntry) (fun _ => P) S := by
  refine .bind (hP (still_peek 0)) fun v => ?_
  split
  · exact .bind (hP (.read _)) fun _ => .bind (hP (.bind still_pop fun _ => .pure _)) fun _ =>
      .bind (hP (still_push _)) fun _ => .bind (hP (still_pushAll _)) fun _ => hcall _ _
  · refine hP (.bind (.readFiber _ _) fun _ => .ite (.complain _) (.bind (.readFiber _ _) fun _ =>
      .ite (.complain _) (.bind (still_modifyFiber fun _ => ?_) fun _ => .pure _)))
    exact ⟨.stacks .., rfl⟩
  · exact hP (.pure _)

/-- A call keeps what its frames may come and go under. The second condition is that inside a native
function. -/
theorem performCall_of_still {Q : Machine → Prop} (hQP : ∀ m, Q m → P m)
    (hQ : ∀ {α : Type} {y : Exec α}, Preserves (Still f) y → Triple Q y (fun _ => Q) S) (hE : Quiet E)
    (hreplace : ∀ argc setup, Triple P (replaceFrame f argc setup) (fun _ => P) S)
    (hpush : ∀ frame, frame.locals = #[] → Triple P (pushFrame f frame) (fun _ => Q) S)
    (hpopped : ∀ u : Fiber → Array Value, Triple Q
      (modifyFiber f fun b => { b with frames := b.frames.pop, values := u b }) (fun _ => P) S)
    (n argc : Nat) (setup : CallSetup) : Triple P (performCall E f n argc setup) (fun _ => P) S := by
  induction n generalizing argc setup with
  | zero => exact hP (.throw _)
  | succ n ih =>
    refine .bind (hP (still_resolveCallee _ _ _)) fun argc => .bind (hreplace argc setup) fun setup =>
      .bind (hP (.read _)) fun calledFrom => .bind (hP (.read _)) fun _ => .first (hP (.complain _))
      fun _ => .bind (hP (.readFiber _ _)) fun _ => .bind (hP (.readFiber _ _)) fun callee => ?_
    split
    · exact .bind (hP (.read _)) fun _ => .bind (hP (still_push _)) fun _ =>
        .bind (hpush _ rfl) fun _ => .pure hQP
    · exact .bind (hP (.readFiber _ _)) fun _ => .bind (hpush _ rfl) fun _ =>
        .bind (hQ (still_of_undisturbed (hE _))) fun v =>
          .bind (hQ (still_of_undisturbed (undisturbed_applyContinuation hE _ _ _ _))) fun _ =>
            .bind (hpopped _) fun _ => settle_of_still hP ih _ _
    · exact hP (.internal _)

end Logic

end Still

/-- The instruction empties a slot without closing what waits there. The symbols are those of the
innermost block. -/
def Instruction.forgets (i : Instruction) (block : List Symbol) (slot : Nat) : Prop :=
  match i.op with
  | .beginFunction => True
  | .enter | .clean => i.empties slot ∧ slot ∉ i.symbolList.map Symbol.index
  | .leave | .exit => i.empties slot ∧ slot ∉ block.map Symbol.index
  | _ => False

namespace Variable

/-- An operation after which the variable goes on to wait. -/
def Tends {α : Type} (x : Variable) (Stops : Stop → Prop) (y : Exec α) : Prop :=
  x.Leads Stops (fun _ => True) x.WaitsIn x.WaitsIn y

variable {x : Variable} {Stops : Stop → Prop} {α β : Type}

namespace Tends

theorem pure (a : α) : x.Tends Stops (pure a : Exec α) := Leads.pure a

theorem bind {y : Exec α} {g : α → Exec β} (hy : x.Tends Stops y) (hg : ∀ a, x.Tends Stops (g a)) :
    x.Tends Stops (y >>= g) := Leads.bind hy hg

theorem ite {p : Prop} [Decidable p] {y z : Exec α} (hy : x.Tends Stops y) (hz : x.Tends Stops z) :
    x.Tends Stops (if p then y else z) := Leads.ite hy hz

theorem first {p : Prop} [Decidable p] {y : Exec Unit} {g : Unit → Exec β} (hy : x.Tends Stops y)
    (hg : ∀ u, x.Tends Stops (g u)) : x.Tends Stops (if p then y >>= g else g ()) := Leads.first hy hg

theorem still {y : Exec α} (hy : Preserves (Still x.fiber) y) : x.Tends Stops y :=
  Leads.still (fun _ h => h) hy fun _ _ => trivial

theorem read (g : Machine → α) : x.Tends Stops (read g) := still (.read g)

theorem modifyFrame {g : Frame → Frame} (hg : ∀ top, top.Waits x.slot x.cell → (g top).Waits x.slot x.cell) :
    x.Tends Stops (modifyFrame x.fiber g) :=
  Leads.modifyFrame (fun _ h => h) fun top _ h => h.change fun _ => hg top

end Tends

section Assigning

theorem tends_localCell (index : Nat) : x.Tends Stops (localCell x.fiber index) := by
  refine .bind (.modifyFrame fun _ h => h.reserve index) fun _ => .topFrame (fun _ h => h) fun top => ?_
  split
  · exact (Leads.pure _).conseq (fun _ h => h) fun _ h => h.1
  · rename_i hnone
    refine .bind (.still (fun _ h => h.1) (still_of_aside (detached_newCell _).aside) fun _ _ => trivial)
      fun cell => .bind (.modifyFrame (fun _ h => h.1) fun top' rest h => ?_) fun _ => .pure _
    obtain rfl : top' = top := Option.some.inj h.2
    refine h.1.change fun _ hwaits => hwaits.setLocal (fun hindex => ?_) _
    rw [hindex, hwaits.held] at hnone
    cases hnone

/-- The variable goes on to wait after an operation, however that ends. -/
abbrev logic (x : Variable) (Stops : Stop → Prop) : Logic x.fiber :=
  .single x.fiber (fun _ => x.Stands (fun _ => True) x.WaitsIn) (fun _ => x.Stands (fun _ => True) x.WaitsIn)
    fun s m => Stops s ∨ x.Stands (fun _ => True) x.WaitsIn m

variable {E : Engine} (hE : Quiet E)
include hE

theorem tends_request (request : Request) : x.Tends Stops (E request) :=
  .still (still_of_undisturbed (hE request))

theorem locals_logic : (x.logic Stops).Locals E E :=
  (steady_of_still Tends.still).locals (asks_of_still Tends.still hE) tends_localCell
    fun slots => Leads.modifyFrame (fun _ h => h) fun _ _ h => h.change fun _ hwaits => hwaits.addPending slots

end Assigning

section Calls

theorem tends_replaceFrame (argc : Nat) (setup : CallSetup) :
    x.Tends Stops (replaceFrame x.fiber argc setup) := by
  have hreplace : x.Leads Stops (fun _ => True) x.WaitsBelow x.WaitsIn (do
      let moved ← popMany x.fiber (argc + 1)
      let frame ← popFrame x.fiber
      popArguments x.fiber
      pushAll x.fiber moved
      return { setup with returnTo := frame.returnTo, isEntry := frame.isEntry }) :=
    .bind (.still (fun _ => WaitsBelow.waitsIn) (still_popMany _) fun _ _ => trivial) fun moved =>
      .bind .popFrame fun _ => .bind (Tends.still still_popArguments) fun _ =>
        .bind (Tends.still (still_pushAll moved)) fun _ => .pure _
  refine Triple.bind (Q := fun replaces m => x.Stands (fun _ => True) x.WaitsIn m ∧
    (replaces = true → x.WaitsBelow (m.fiber x.fiber).calls)) (.read fun m hm => ⟨hm, fun hplain => ?_⟩)
    fun replaces => .ite (fun h => ?_) fun _ => ?_
  · cases hcalls : (m.fiber x.fiber).calls with
    | nil =>
      have hwaits := hm.calls
      rw [hcalls] at hwaits
      exact (not_waitsIn_nil hwaits).elim
    | cons top rest =>
      have hwaits := hm.calls
      rw [hcalls] at hwaits
      refine ⟨top, rest, rfl, (waitsIn_cons.1 hwaits).resolve_right fun htop => ?_⟩
      have hback : (m.fiber x.fiber).frames.back? = some top := by
        rw [Fiber.back?_frames, hcalls]
        rfl
      simp only [hback, Option.any_some, Bool.and_eq_true, Bool.not_eq_true', Frame.hasClosers,
        List.any_eq_false] at hplain
      obtain ⟨s, hs, -⟩ := List.mem_map.1 htop.2.listed
      obtain ⟨block, hblock, hs⟩ := List.mem_flatten.1 hs
      have hempty : block = [] := by simpa using hplain.1.2.2 block hblock
      rw [hempty] at hs
      exact List.not_mem_nil hs
  · exact Triple.before hreplace fun m hm => ⟨hm.1.sound, hm.1.busy, trivial, hm.2 h⟩
  · exact Triple.before (Leads.pure setup) fun _ h => h.1

variable {E : Engine}

theorem tends_settle {call : Nat → CallSetup → Exec Resumption}
    (hcall : ∀ argc setup, x.Tends Stops (call argc setup)) (returnTo : Option Nat) (isEntry : Bool) :
    x.Tends Stops (settle call x.fiber returnTo isEntry) := settle_of_still Tends.still hcall _ _

theorem tends_performCall (hE : Quiet E) (n argc : Nat) (setup : CallSetup) :
    x.Tends Stops (performCall E x.fiber n argc setup) :=
  performCall_of_still Tends.still (fun _ h => ⟨h.sound, h.busy, h.heap, h.calls.waitsIn⟩)
    (fun h => Leads.still (fun _ => WaitsBelow.waitsIn) h fun _ _ => trivial) hE tends_replaceFrame
    (fun frame _ => Leads.pushFrame frame) (fun _ => Leads.popped) n argc setup

end Calls

/-- What comes after a moment at which the value of the variable can be closed. -/
def Brings {α : Type} (x : Variable) (Stops : Stop → Prop) (C : List Frame → Prop) (y : Exec α) : Prop :=
  Triple (x.Stands x.IsClosable C) y (fun _ => x.Stands (fun _ => True) x.WaitsIn)
    (fun s m => Stops s ∨ x.Stands (fun _ => True) x.WaitsIn m)

section Scopes

variable {C D : List Frame → Prop} {p : Prop} {blocks : List (List Symbol)}

theorem Tends.brings {y : Exec α} (hy : x.Tends Stops y) (hC : ∀ calls, C calls → x.WaitsIn calls) :
    x.Brings Stops C y :=
  Triple.before hy fun _ h => ⟨h.sound, h.busy, trivial, hC _ h.calls⟩

theorem Leads.brings {y : Exec α} {g : α → Exec β} (hy : x.Leads Stops x.IsClosable C D y)
    (hg : ∀ a, x.Leads Stops (fun _ => True) D x.WaitsIn (g a)) : x.Brings Stops C (y >>= g) :=
  Triple.bind (Triple.conseq hy (fun _ h => h)
    (fun _ _ h => (⟨h.sound, h.busy, trivial, h.calls⟩ : x.Stands (fun _ => True) D _))
    fun _ _ h => h.imp_right fun h => ⟨h.sound, h.busy, trivial, h.calls⟩) hg

theorem leads_clear {i : Instruction} (hkept : p → ¬ i.empties x.slot) :
    x.Leads Stops (fun _ => True) (x.WaitsWith p) x.WaitsIn (clearSlots x.fiber i) :=
  .bind (.bind (.still (fun _ h => h.1) still_topFrame fun _ _ => trivial) fun _ => .pure _) fun _ =>
    .modifyFrame (fun _ h => h.1) fun _ _ h =>
      waitsIn_cons.2 (h.head.imp_right fun ⟨hlen, hwaits, hp⟩ => ⟨hlen, hwaits.clear (hkept hp)⟩)

theorem tends_beginFunction (i : Instruction) :
    x.Leads Stops (fun _ => True) (x.WaitsWith False) x.WaitsIn (beginFunction x.fiber i) :=
  .bind (.bind (.still (fun _ h => h.1) still_topFrame fun _ _ => trivial) fun _ => .pure _) fun _ =>
    .modifyFrame (fun _ h => h.1) fun _ _ h =>
      waitsIn_cons.2 (.inl (h.head.resolve_right fun htop => htop.2.2))

variable {E : Engine} (hE : x.Guards Stops E)
include hE

theorem brings_enterBlock (i : Instruction)
    (hkept : p → ¬ (i.empties x.slot ∧ x.slot ∉ i.symbolList.map Symbol.index)) :
    x.Brings Stops (x.WaitsWith p) (enterBlock E x.fiber i) := by
  refine (leads_closeSymbols hE i.symbolList .nil).brings fun _ => .bind
    (.bind (.still (fun _ h => h.1) still_topFrame fun _ _ => trivial) fun _ => .pure _) fun _ =>
    .modifyFrame (fun _ h => h.1) fun top rest h => ?_
  refine waitsIn_cons.2 (h.head.imp_right fun ⟨hlen, hwaits, hp, hslot⟩ => ⟨hlen, ?_⟩)
  have hcleared := hwaits.clear fun hin => hkept hp ⟨hin, hslot⟩
  refine (hcleared.addPending _).withBlocks ?_
  rw [List.flatten_cons, List.map_append]
  exact List.mem_append_right _ (hcleared.addPending _).listed

theorem brings_cleanSlots (i : Instruction)
    (hkept : p → ¬ (i.empties x.slot ∧ x.slot ∉ i.symbolList.map Symbol.index)) :
    x.Brings Stops (x.WaitsWith p) (cleanSlots E x.fiber i) :=
  (leads_closeSymbols hE i.symbolList .nil).brings fun _ =>
    leads_clear fun hp hin => hkept hp.1 ⟨hin, hp.2⟩

theorem brings_leaveBlock (fuel : Nat) (i : Instruction)
    (hkept : p → ¬ (i.empties x.slot ∧ x.slot ∉ (blocks.headD []).map Symbol.index)) :
    x.Brings Stops (x.WaitsOver p blocks) (leaveBlock E x.fiber fuel i) :=
  (leads_closeBlock hE .nil fuel).brings fun _ => leads_clear fun hp hin => hkept hp.1 ⟨hin, hp.2⟩

theorem brings_performReturn (fuel ip : Nat) (i : Instruction) :
    x.Brings Stops x.WaitsIn (performReturn E x.fiber fuel i ip) := by
  have hrest (v : Value) : x.Leads Stops (fun _ => True) x.WaitsBelow x.WaitsIn (do
      let frame ← popFrame x.fiber
      popArguments x.fiber
      let location ← read fun m => m.code.locationAt ip
      push x.fiber v
      if frame.handlers.continuation.isSome then
        let v ← applyContinuation E x.fiber frame.handlers (← pop x.fiber) location
        push x.fiber v
      settle (performCall E x.fiber fuel) x.fiber frame.returnTo frame.isEntry) := by
    refine .bind .popFrame fun frame => ?_
    have hsettle : x.Tends Stops (settle (performCall E x.fiber fuel) x.fiber frame.returnTo
      frame.isEntry) := tends_settle (tends_performCall hE.quiet fuel) _ _
    refine Tends.bind (.still still_popArguments) fun _ => .bind (.read _) fun location =>
      .bind (.still (still_push v)) fun _ => .ite (.bind (.still still_pop) fun v => ?_) hsettle
    exact .bind (.still (still_of_undisturbed (undisturbed_applyContinuation hE.quiet _ _ _ _))) fun v =>
      .bind (.still (still_push v)) fun _ => hsettle
  have hwaits (calls : List Frame) (h : x.WaitsBelow calls) : x.WaitsIn calls := h.waitsIn
  exact (leads_closeBlocks hE .nil fuel).brings fun _ => .ite (.bind (.pure _) hrest)
    (.ite (.bind (.still hwaits still_pop fun _ _ => trivial) hrest)
      (.bind (.throw hwaits _) hrest))

end Scopes

section Execute

variable {blocks : List (List Symbol)} {E : Engine} (hE : x.Guards Stops E)
include hE

/-- The variable goes on to wait after an instruction, unless that comes to its finalizer. -/
theorem brings_execute (fuel ip : Nat) (i : Instruction) :
    x.Brings Stops (x.WaitsOver (¬ i.forgets (blocks.headD []) x.slot) blocks)
      (execute E x.fiber fuel ip i) := by
  have hC (calls : List Frame)
      (h : x.WaitsOver (¬ i.forgets (blocks.headD []) x.slot) blocks calls) : x.WaitsIn calls := h.1.1
  have htends {y : Exec Flow} (hy : x.Tends Stops y) :
      x.Brings Stops (x.WaitsOver (¬ i.forgets (blocks.headD []) x.slot) blocks) y := hy.brings hC
  have hscope {y : Exec Unit} {C : List Frame → Prop} (hy : x.Brings Stops C y)
      (hC : ∀ calls, x.WaitsOver (¬ i.forgets (blocks.headD []) x.slot) blocks calls → C calls) :
      x.Brings Stops (x.WaitsOver (¬ i.forgets (blocks.headD []) x.slot) blocks) (thenNext y) :=
    Triple.bind (Triple.before hy fun _ h => ⟨h.sound, h.busy, h.heap, hC _ h.calls⟩)
      fun _ => .pure fun _ h => h
  by_cases hplain : i.isPlain
  · exact htends ((moves_of_still Tends.still).execute_single hplain fun _ _ hm => hm)
  by_cases hoperator : i.isOperator
  · exact htends ((calls_of_still Tends.still (tends_performCall hE.quiet) fuel ip).execute
      (fun _ _ => trivial) hoperator)
  have hlocals : (x.logic Stops).Locals E E := locals_logic hE.quiet
  unfold execute
  cases hop : i.op with
  | closure => exact htends (.bind (hlocals.makeClosure (k := 0) i).triple fun _ => .still (still_result _))
  | storeLocal => exact htends (hlocals.thenNext (hlocals.storeLocal (k := 0) i))
  | bindArguments =>
    exact htends (hlocals.thenNext (hlocals.bindArguments (k := 0) i
      (.of_triple (Tends.still still_stackedArguments) fun _ _ _ => trivial)))
  | prepareIterator => exact htends (hlocals.thenNext (hlocals.prepareIterator (k := 0)))
  | beginFunction =>
    refine Triple.bind (Triple.before (tends_beginFunction i) fun m h => ?_) fun _ => .pure
      fun _ h => h
    refine ⟨h.sound, h.busy, trivial, h.calls.1.1, fun hlen => h.calls.1.2 hlen ?_⟩
    rw [forgets, hop]
    trivial
  | enter =>
    exact hscope (brings_enterBlock hE i (p := ¬ i.forgets (blocks.headD []) x.slot) fun hp => by
      rwa [forgets, hop] at hp) fun _ h => h.1
  | clean =>
    exact hscope (brings_cleanSlots hE i (p := ¬ i.forgets (blocks.headD []) x.slot) fun hp => by
      rwa [forgets, hop] at hp) fun _ h => h.1
  | leave | exit =>
    exact hscope (brings_leaveBlock hE fuel i (p := ¬ i.forgets (blocks.headD []) x.slot) fun hp => by
      rwa [forgets, hop] at hp) fun _ h => h
  | call | methodCall =>
    exact htends (.bind (tends_performCall hE.quiet fuel _ _) fun _ => .pure _)
  | ret =>
    exact Triple.bind (Triple.before (brings_performReturn hE fuel ip i)
      fun _ h => ⟨h.sound, h.busy, h.heap, h.calls.1.1⟩)
      fun _ => .pure fun _ h => h
  | _ => simp [isPlain, isOperator, isScoped, hop] at hplain hoperator

end Execute

section Unwinding

variable {C D : List Frame → Prop} {E : Engine}

theorem Leads.then_brings {y : Exec α} {g : α → Exec β} (hy : x.Leads Stops x.IsClosable C D y)
    (hg : ∀ a, x.Brings Stops D (g a)) : x.Brings Stops C (y >>= g) :=
  Triple.bind
    (Triple.failing hy fun _ _ h => h.imp_right fun h => ⟨h.sound, h.busy, trivial, h.calls⟩) hg

theorem Leads.observes (hC : ∀ calls, C calls → x.WaitsIn calls) {y : Exec α} (hy : Observes y) :
    x.Leads Stops x.IsClosable C C y := by
  refine .still hC (still_of_aside hy.aside) fun m hm => ?_
  obtain ⟨_, debug, events, hrun, -⟩ := hy m
  rw [hrun]
  exact hm

/-- What holds after an operation whose outcome is only looked at. -/
def Outcome (x : Variable) (Stops : Stop → Prop) (K : Heap → Prop) (D : List Frame → Prop) :
    Except Stop α → Machine → Prop
  | .ok _, m => x.Stands K D m
  | .error s, m => Stops s ∨ x.Stands K x.WaitsIn m

theorem Leads.attempt {K : Heap → Prop} {y : Exec α} {S : Stop → Machine → Prop}
    (hy : x.Leads Stops K C D y) : Triple (x.Stands K C) (attempt y) (x.Outcome Stops K D) S :=
  Triple.attempt hy

variable (hE : x.Guards Stops E)
include hE

theorem leads_handledError (handler : Value) (e : RuntimeError) :
    x.Leads Stops x.IsClosable x.WaitsIn x.WaitsIn (handledError E handler e) := by
  have hrest (r : Except Stop Value) : Triple (x.Outcome Stops x.IsClosable x.WaitsIn r)
      (rephrased e r) (fun _ => x.Stands x.IsClosable x.WaitsIn)
      (fun s m => Stops s ∨ x.Stands x.IsClosable x.WaitsIn m) := by
    unfold rephrased
    split
    · exact Leads.bind (.still (fun _ h => h) (.read _) fun _ h => h) fun _ => .pure _
    · exact .pure fun m hm => Or.resolve_left hm fun hs => nomatch hE.uncaught _ hs
    · exact .throw fun m hm => hm
  rw [handledError_eq]
  exact Triple.ite (fun _ => .bind (leads_request hE (fun _ h => h) _).attempt hrest)
    fun _ => .before (hrest _) fun _ h => .inr h

/-- What a frame has to close is closed before it is left, whatever fails on the way. -/
theorem brings_unwindFrames (n : Nat) (e : RuntimeError) :
    x.Brings Stops x.WaitsIn (unwindFrames E x.fiber n e) := by
  induction n generalizing e with
  | zero => exact .throw fun _ h => .inr ⟨h.sound, h.busy, trivial, h.calls⟩
  | succ n ih =>
    have hfail {s : Stop} : x.Brings Stops x.WaitsIn (throw s : Exec Resumption) :=
      .throw fun _ h => .inr ⟨h.sound, h.busy, trivial, h.calls⟩
    refine (Leads.observes (fun _ h => h) (.readFiber _ _)).then_brings fun _ => Triple.first
      (.throw fun _ h => .inr ⟨h.sound, h.busy, trivial, h.calls⟩) fun _ =>
      Triple.bind (leads_closeBlocks hE _ n).attempt fun r => ?_
    rcases r with ((raised | _) | _) | _
    case error.fault.runtime =>
      refine Triple.before ((Leads.still (fun _ h => h) (still_of_aside
        (detached_emit _ rfl).aside) fun _ h => h).then_brings fun _ => ih _)
          (fun _ h => Or.resolve_left h fun hs => nomatch hE.uncaught _ hs)
    case ok =>
      refine Leads.popFrame.then_brings fun frame => ?_
      have hsettle : x.Tends Stops (settle (performCall E x.fiber n) x.fiber frame.returnTo
        frame.isEntry) := tends_settle (tends_performCall hE.quiet n) _ _
      split
      · refine Tends.brings (.first (.still still_popArguments) fun _ => ?_) fun _ h => h
        exact .bind (tends_request hE.quiet _) fun v => .bind (.still (still_push v)) fun _ => hsettle
      · exact .ite (fun _ => hfail) fun _ => ih e
    all_goals exact .throw fun _ h => Or.imp_right (fun h => ⟨h.sound, h.busy, trivial, h.calls⟩) h

theorem brings_unwind (fuel : Nat) (e : RuntimeError) (ip : Nat) :
    x.Brings Stops x.WaitsIn (unwind E x.fiber fuel e ip) := by
  have hhandled (handlers : List Value) (e : RuntimeError) :
      x.Leads Stops x.IsClosable x.WaitsIn x.WaitsIn
        (handlers.foldlM (fun e handler => handledError E handler e) e) := by
    induction handlers generalizing e with
    | nil => exact .pure _
    | cons handler handlers ih => exact .bind (leads_handledError hE handler e) ih
  have hself (calls : List Frame) (h : x.WaitsIn calls) : x.WaitsIn calls := h
  exact (Leads.observes hself (.read _)).then_brings fun _ =>
    (Leads.observes hself (observes_reportError _ _ _)).then_brings fun _ =>
      (Leads.observes hself (.readFiber _ _)).then_brings fun handlers =>
        (hhandled handlers _).then_brings fun e => brings_unwindFrames hE fuel e

end Unwinding

end Variable

end ScriptMachine
