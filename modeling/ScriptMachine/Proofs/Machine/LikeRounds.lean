import ScriptMachine.Proofs.Machine.Likeness

namespace ScriptMachine

open Exec

def Likeness.Agree (c : Likeness) (E E' : Engine) : Prop := ∀ request, c.Alike (E request) (E' request)

namespace Likeness

variable {c : Likeness} [c.Lawful] {f : FiberId}

section Plain

variable [c.Carries f]

omit [c.Carries f] in
theorem alike_stackedArguments : c.Alike (stackedArguments f) (stackedArguments f) := by
  refine .bind alike_topFrame fun frame => .bind (.readFiber fun _ _ => rfl) fun count => ?_
  rcases count with _ | count
  · exact .internal _
  · cases count with
    | number x => exact .ite (.readFiber fun _ _ => rfl) (.throw _)
    | _ => exact .internal _

theorem loopNumber_eq (f : FiberId) (depth : Nat) : loopNumber f depth = (do
    match ← readFiber f fun b => if depth < b.values.size then
        some (b.values.getD (b.values.size - 1 - depth) .nil) else none with
    | some (.number x) => return x
    | _ => internal "JFOR on non-numbers") := by
  funext m
  have hpeek := peek_eq f depth m
  rw [loopNumber, bind_ok (readFiber_apply _ _ _)]
  split at hpeek
  · rw [bind_ok (attempt_apply hpeek), if_pos ‹_›]
    cases (m.fiber f).values.getD ((m.fiber f).values.size - 1 - depth) .nil <;> rfl
  · rw [bind_ok (attempt_apply hpeek), if_neg ‹_›]

omit [c.Carries f] in
theorem alike_loopNumber (depth : Nat) : c.Alike (loopNumber f depth) (loopNumber f depth) := by
  rw [loopNumber_eq]
  refine .bind (.readFiber fun _ _ => rfl) fun v? => ?_
  rcases v? with _ | v
  · exact .internal _
  · cases v with
    | number x => exact .pure _
    | _ => exact .internal _

end Plain

section Logic

def logic (c : Likeness) (f : FiberId) : Logic f where
  D := .free
  Post := Parking
  Does _ p x y := @AlikeRun _ c p x y
  flow := inferInstance

variable {α : Type} {x y : Exec α} {A : α → Prop} {k k' : Nat}

theorem Alike.gives (h : c.Alike x y) (hA : ∀ a, A a) : (c.logic f).Gives k k' A x y :=
  ⟨fun {_ p _ _} hg =>
    let _ : Parking _ := p
    AlikeRun.bind h fun a => hg a (hA a)⟩

theorem Alike.keeps (h : c.Alike x y) : (c.logic f).Keeps k k' x y := h.gives fun _ => trivial

theorem Alike.of_gives (h : (c.logic f).Gives k k' A x y) : c.Alike x y := by
  let _ : Parking α := ⟨fun _ => false⟩
  have hend (a : α) (_ : A a) : (c.logic f).Does k' ‹Parking α› (Pure.pure a) (Pure.pure a) :=
    AlikeRun.pure a
  intro m hm
  obtain ⟨hrel | ⟨hparks, -⟩, hsame⟩ := h.does hend m hm
  · exact ⟨hrel, hsame⟩
  · cases hparks

variable [c.Carries f]

theorem moves : (c.logic f).Moves where
  complain {_ _ p} e := @AlikeRun.complain _ c _ p e
  internal {_ _ p} message := @AlikeRun.internal _ c _ p message
  next := AlikeRun.pure Flow.next
  result _ := .of (.bind (alike_push _) fun _ => .pure _)
  pop := alike_pop.keeps
  peek depth := (alike_peek depth).keeps
  top _ hg := (Alike.keeps alike_topFrame).bind fun frame _ => hg frame
  localValue _ _ := Alike.keeps (.read fun _ _ => rfl)
  readCell _ := Alike.keeps (.read fun _ _ => rfl)
  writeCell _ _ := Alike.keeps (.detached (detached_writeCell _ _))
  metamethod? _ _ := Alike.gives (.read fun _ _ => rfl) fun _ _ _ => trivial
  handler? _ _ _ := Alike.gives (.read fun _ _ => rfl) fun _ _ _ => trivial
  table _ := Alike.gives (.read fun _ _ => rfl) fun _ _ => trivial
  shared _ _ := Alike.keeps (.read fun _ _ => rfl)
  setIndex _ _ _ := Alike.keeps (.detached (detached_setIndex _ _ _))
  height := Alike.keeps (.readFiber fun _ _ => rfl)
  push _ := (alike_push _).keeps
  pushAll _ := (alike_pushAll _).keeps
  drop n := (alike_drop n).keeps
  popMany n := (alike_popMany n).gives fun _ _ _ => trivial
  poke _ _ := (alike_poke _ _).keeps
  loopNumber depth := (alike_loopNumber depth).keeps
  newTable := Alike.keeps (.detached detached_newTable)
  fill _ _ _ := Alike.keeps (.detached (detached_modifyTable _ _))

variable {E E' : Engine} (hE : c.Agree E E') {n n' : Nat} (hn : c.Enough n n')
include hE

theorem Agree.scopes : (c.logic f).Scopes c.Enough E E' where
  toBasic := moves.toBasic
  newBuiltin name b := Alike.keeps (.detached (detached_newBuiltin name b))
  place _ := (alike_push _).keeps
  call _ _ := (hE _).keeps
  localCell _ := moves.localCell (fun _ => (alike_modifyFrame _).keeps)
    (Alike.keeps (.detached (detached_newCell _)))
  addPending _ := (alike_modifyFrame _).keeps
  newCell _ := Alike.keeps (.detached (detached_newCell _))
  globals := Alike.keeps (.read fun _ _ => rfl)
  newClosure c := Alike.keeps (.detached (detached_newClosure c))
  modifyFrame _ := (alike_modifyFrame _).keeps
  zero {_ _ _ p y} hn hy :=
    let _ : Parking _ := p
    AlikeRun.exhausted (y := y) hn hy
  succ hn := hn.succ

omit [c.Carries f] in
theorem alike_closeValue (s : Symbol) (v error : Value) :
    c.Alike (closeValue E s v error) (closeValue E' s v error) := by
  refine .ite (.bind (.read fun _ _ => rfl) fun handler => ?_) (.pure _)
  cases handler with
  | none => exact .complain _
  | some handler => exact .bind (hE _) fun _ => .pure _

theorem alike_assignLocal (s : Symbol) (v : Value) :
    c.Alike (assignLocal E f s v) (assignLocal E' f s v) :=
  .of_gives (hE.scopes.assignLocal (k := 0) s trivial)

include hn

theorem alike_closeBlocks (error : Value) :
    c.Alike (closeBlocks E f error n) (closeBlocks E' f error n') :=
  .of_gives (hE.scopes.closeBlocks (k := 0) trivial hn)

end Logic

section Calling

variable [c.Carries f] {E E' : Engine} (hE : c.Agree E E') {n n' : Nat} (hn : c.Enough n n')

theorem alike_resolveCallee (name : Option String) (chain argc : Nat) :
    c.Alike (resolveCallee f name chain argc) (resolveCallee f name chain argc) := by
  induction chain generalizing argc with
  | zero =>
    unfold resolveCallee
    refine .bind (alike_peek _) fun callee => .ite (.pure _) (.bind (.read fun _ _ => rfl)
      fun handler => ?_)
    cases handler <;> exact .complain _
  | succ chain ih =>
    unfold resolveCallee
    refine .bind (alike_peek _) fun callee => .ite (.pure _) (.bind (.read fun _ _ => rfl)
      fun handler => ?_)
    cases handler with
    | none => exact .complain _
    | some handler =>
      exact .bind (.modifyFiber (fun _ => .stacks ..) (fun _ => rfl)
        (fun _ => le_rfl) fun _ _ => rfl) fun _ => ih _

theorem alike_replaceFrame (argc : Nat) (setup : CallSetup) :
    c.Alike (replaceFrame f argc setup) (replaceFrame f argc setup) := by
  have hcan : c.Alike (canReplaceFrame f setup) (canReplaceFrame f setup) := .read fun m _ => by
    obtain ⟨budget, hfiber⟩ := Lawful.fiber (c := c) m f
    rw [hfiber]
    rfl
  exact .bind hcan fun _ => .ite (.bind (alike_popMany _) fun _ => .bind alike_popFrame fun _ =>
    .bind alike_popArguments fun _ => .bind (alike_pushAll _) fun _ => .pure _) (.pure _)

theorem alike_settle {call call' : Nat → CallSetup → Exec Resumption}
    (hcall : ∀ argc setup, c.AlikeRun (call argc setup) (call' argc setup)) (returnTo : Option Nat)
    (isEntry : Bool) :
    c.AlikeRun (settle call f returnTo isEntry) (settle call' f returnTo isEntry) := by
  refine .bind (alike_peek 0) fun v => ?_
  cases v with
  | tailCall id =>
    exact .bind (.read fun _ _ => rfl) fun _ => .bind (.bind alike_pop fun _ => .pure _) fun _ =>
      .bind (alike_push _) fun _ => .bind (alike_pushAll _) fun _ => hcall _ _
  | yieldRequest items forced =>
    refine .bind (.readFiber fun _ _ => rfl) fun _ => .ite (.complain _) fun m hm => ?_
    refine .bind hm (Alike.readFiber (fun _ _ => rfl) m hm) fun held m' hrun => ?_
    obtain ⟨hheld, rfl⟩ := Prod.mk.inj hrun
    obtain rfl := Except.ok.inj hheld
    dsimp only
    by_cases hyield : (m.fiber f).canYield
    · simp only [hyield, Bool.not_true, Bool.false_eq_true, if_false]
      exact .park hm (Carries.canYield hm hyield) returnTo (.pure _) fun _ => rfl
    · simp only [hyield, Bool.not_false, if_true]
      exact AlikeRun.complain _ m hm
  | _ => exact .pure _

include hE

omit [c.Carries f] in
theorem alike_applyContinuation (handlers : Handlers) (v : Value) (location : Option Location) :
    c.Alike (applyContinuation E f handlers v location)
      (applyContinuation E' f handlers v location) := by
  unfold applyContinuation
  cases handlers.continuation with
  | none => exact .pure _
  | some continuation =>
    exact .ite (.bind (.read fun _ _ => rfl) fun _ => .complain _) (hE _)

include hn

omit hn in
theorem alikeRunAt_enter {m : Machine} (hm : c.Good m)
    (hroom : (m.fiber f).frames.size < m.options.maxCallDepth)
    (hcall : ∀ argc setup, c.AlikeRun (performCall E f n argc setup) (performCall E' f n' argc setup))
    (argc : Nat) (setup : CallSetup) (calledFrom : Option Location) (slot : Nat) (callee : Value) :
    c.AlikeRunAt m (enter E f n argc setup calledFrom slot callee)
      (enter E' f n' argc setup calledFrom slot callee) := by
  cases callee with
  | closure id =>
    refine .read hm rfl (.followedBy hm (alike_push _ m hm) fun _ m' hrun hm' => ?_)
    rw [push, modifyFiber_apply] at hrun
    obtain ⟨-, rfl⟩ := Prod.mk.inj hrun
    have hframes : ((m.withFiber f fun b => { b with values := b.values.push (.ofNat argc) }).fiber
        f).frames = (m.fiber f).frames := Machine.fiber_withFiber_of rfl f
    exact .followedBy hm' (alikeAt_pushFrame hm' (hframes ▸ hroom) _) fun _ m'' _ hm'' =>
      AlikeRun.pure _ m'' hm''
  | native id =>
    have hpop (v : Value) : c.Alike (modifyFiber f fun b =>
          { b with frames := b.frames.pop, values := (b.values.shrink slot).push v })
        (modifyFiber f fun b =>
          { b with frames := b.frames.pop, values := (b.values.shrink slot).push v }) :=
      .modifyFiber (fun _ => .stacks ..) (fun _ => rfl)
        (fun _ => Array.size_pop.trans_le (Nat.sub_le _ _)) fun _ _ => rfl
    refine .readFiber hm (fun _ _ => rfl) (.followedBy hm (alikeAt_pushFrame hm hroom _) fun _ m' _ hm' => ?_)
    exact AlikeRun.bind (hE _) (fun v => .bind (alike_applyContinuation hE _ v calledFrom) fun v =>
      .bind (hpop v) fun _ => alike_settle hcall _ _) m' hm'
  | _ => exact AlikeRun.internal _ m hm

theorem alike_performCall (argc : Nat) (setup : CallSetup) :
    c.AlikeRun (performCall E f n argc setup) (performCall E' f n' argc setup) := by
  induction n generalizing n' argc setup with
  | zero => exact .exhausted (y := fun n => performCall E' f n argc setup) hn rfl
  | succ n ih =>
    obtain ⟨n', rfl, hle⟩ := hn.succ
    have hdeep (m : Machine) : decide ((c.of m).options.maxCallDepth ≤ ((c.of m).fiber f).frames.size) =
        decide (m.options.maxCallDepth ≤ (m.fiber f).frames.size) := by
      obtain ⟨budget, hfiber⟩ := Lawful.fiber (c := c) m f
      rw [hfiber]
      rfl
    rw [performCall_succ, performCall_succ]
    refine .bind (alike_resolveCallee _ _ _) fun argc => .bind (alike_replaceFrame argc setup)
      fun setup => .bind (.read fun _ _ => rfl) fun location m hm => .read hm (hdeep m) ?_
    by_cases hfull : m.options.maxCallDepth ≤ (m.fiber f).frames.size
    · simp only [hfull, decide_true, if_true]
      exact AlikeRun.complain (α := Resumption) .stackOverflow m hm
    · simp only [hfull, decide_false, Bool.false_eq_true, if_false]
      exact .readFiber hm (fun _ _ => rfl) (.readFiber hm (fun _ _ => rfl)
        (alikeRunAt_enter hE hm (Nat.lt_of_not_le hfull) (ih hle) _ _ _ _ _))

theorem alike_performReturn (i : Instruction) (ip : Nat) :
    c.AlikeRun (performReturn E f n i ip) (performReturn E' f n' i ip) := by
  have hsettle (frame : Frame) := alike_settle (f := f) (alike_performCall (f := f) hE hn)
    frame.returnTo frame.isEntry
  have hleave (v : Value) :
      c.AlikeRun (leaveWith E f n ip v) (leaveWith E' f n' ip v) :=
    .bind alike_popFrame fun frame => .bind alike_popArguments fun _ =>
      .bind (.read fun _ _ => rfl) fun location => .bind (alike_push v) fun _ => .ite
        (.bind alike_pop fun v => .bind (alike_applyContinuation hE _ v location) fun _ =>
          .bind (alike_push _) fun _ => hsettle frame)
        (hsettle frame)
  exact .bind (alike_closeBlocks hE hn _) fun _ => .ite (.bind (.pure _) hleave)
    (.ite (.bind alike_pop hleave) (.bind (.internal _) hleave))

end Calling

section Executing

variable [c.Carries f] {E E' : Engine} (hE : c.Agree E E') {n n' : Nat} (hn : c.Enough n n') (ip : Nat)
include hE hn

theorem alike_callHandler (handler : Value) (arguments : List Value) :
    c.AlikeRun (callHandler E f n ip handler arguments) (callHandler E' f n' ip handler arguments) :=
  .bind (alike_push _) fun _ => .bind (alike_pushAll _) fun _ =>
    .map (alike_performCall hE hn _ _) Flow.transfer parks_transfer

theorem Agree.calls : (c.logic f).Calls E E' n n' ip ip where
  toBasic := moves.toBasic
  flag _ := (alike_push _).keeps
  flags _ := (alike_pushAll _).keeps
  handler _ _ := alike_callHandler hE hn ip _ _

/-- The same instruction does alike. -/
theorem alike_execute (i : Instruction) :
    c.AlikeRun (execute E f n ip i) (execute E' f n' ip i) :=
  Logic.execute (L := c.logic f) moves (hE.calls hn ip) hE.scopes hn (fun _ _ => trivial)
    (fun _ => AlikeRun.pure (Flow.transfer (.jump i.count)))
    (alike_stackedArguments.gives fun _ _ _ => trivial)
    (fun _ => .map (alike_performCall hE hn _ _) Flow.transfer parks_transfer)
    fun _ => .map (alike_performReturn hE hn i ip) Flow.transfer parks_transfer

end Executing

section Looping

variable [c.Carries f] {E E' : Engine} (hE : c.Agree E E') {n n' : Nat} (hn : c.Enough n n') (ip : Nat)
include hE

omit [c.Carries f] in
theorem alike_handledError (handler : Value) (e : RuntimeError) :
    c.Alike (handledError E handler e) (handledError E' handler e) := by
  have hrest (r : Except Stop Value) : c.Alike (rephrased e r) (rephrased e r) := by
    unfold rephrased
    split
    · exact .bind (.read fun _ _ => rfl) fun _ => .pure _
    · exact .pure _
    · exact .throw _
  rw [handledError_eq, handledError_eq]
  refine .ite ((hE _).attempt_bind (fun s hs m => ?_) hrest) (hrest _)
  rw [rephrased_of_not_isCatchable hs]
  rfl

include hn

theorem alike_unwindFrames (e : RuntimeError) :
    c.AlikeRun (unwindFrames E f n e) (unwindFrames E' f n' e) := by
  induction n generalizing n' e with
  | zero => exact .exhausted (y := fun n => unwindFrames E' f n e) hn rfl
  | succ n ih =>
    obtain ⟨n', rfl, hle⟩ := hn.succ
    refine .bind (.readFiber fun _ _ => rfl) fun _ => .first (.fail _) fun _ =>
      .attempt_bind (alike_closeBlocks hE hle _) (fun s hs m => ?_) fun r => ?_
    · rcases s with (_ | _) | _
      · cases hs
      all_goals rfl
    rcases r with ((raised | _) | _) | _
    case error.fault.runtime =>
      exact .bind (.detached (detached_emit _ rfl)) fun _ => ih hle _
    case ok =>
      refine .bind alike_popFrame fun frame => ?_
      dsimp only
      cases frame.handlers.onError with
      | none => exact .ite (.fail _) (ih hle e)
      | some handler =>
        exact .first alike_popArguments fun _ => .bind (hE _) fun _ => .bind (alike_push _)
          fun _ => alike_settle (alike_performCall hE hle) _ _
    all_goals exact .throw _

theorem alike_unwind (e : RuntimeError) :
    c.AlikeRun (unwind E f n e ip) (unwind E' f n' e ip) :=
  .bind (.read fun _ _ => rfl) fun _ => .bind (Lawful.reportError f _ ip) fun _ =>
    .bind (.readFiber fun _ _ => rfl) fun _ =>
      .bind (.foldlM (fun e handler => alike_handledError hE handler e) _) fun e =>
        alike_unwindFrames hE hn e

variable (limit : Option Nat) (executed : Nat) {m : Machine} (hm : c.Good m)
  (hlimit : limit.isSome → c.Yields m)
include hm hlimit

theorem alike_step :
    c.AlikeRunAt m (step E f n limit executed ip) (step E' f n' limit executed ip) := by
  have hrest (i : Instruction) {m' : Machine} (hrel : c.Rel m m') : c.AlikeRunAt m'
      (if limit.any (· ≤ executed) then suspendAt f ip else execute E f n ip i)
      (if limit.any (· ≤ executed) then suspendAt f ip else execute E' f n' ip i) := by
    have hm' := Lawful.good_rel hm hrel
    by_cases hspent : limit.any (· ≤ executed)
    · rw [if_pos hspent, if_pos hspent]
      have hsome : limit.isSome := by
        cases limit with
        | none => cases hspent
        | some b => rfl
      exact .park hm' ((Lawful.yields hm hrel).2 (hlimit hsome)) (some ip)
        (.bind (alike_push _) fun _ => .pure _) fun _ => rfl
    · rw [if_neg hspent, if_neg hspent]
      exact alike_execute hE hn ip i m' hm'
  have hread : c.Alike (read fun m => m.code.get? ip) (read fun m => m.code.get? ip) :=
    .read fun _ _ => rfl
  rw [step_eq, step_eq]
  refine .bind hm (hread m hm) fun i? m' hrun => ?_
  obtain ⟨-, rfl⟩ := Prod.mk.inj hrun
  cases i? with
  | none => exact AlikeRun.internal _ m hm
  | some i =>
    have hlisten := Lawful.listening (c := c) f ip i m hm
    refine .bind hm hlisten fun _ m' hrun => hrest i ?_
    have hrel := hlisten.1
    rw [hrun] at hrel
    exact hrel

end Looping

section Hosting

variable [c.Hosts f] {E E' : Engine} (hE : c.Agree E E') {n n' : Nat} (hn : c.Enough n n') (ip : Nat)
include hE hn

section

variable (limit : Option Nat) (executed : Nat) {m : Machine} (hm : c.Good m)
  (hlimit : limit.isSome → c.Yields m)
include hm hlimit

theorem alike_round : c.AlikeRunAt m (Exec.round E f n limit executed ip)
    (Exec.round E' f n' limit executed ip) := by
  refine (alike_step hE hn ip limit executed hm hlimit).attempt_follow hm (fun s hs m => ?_)
    (fun hgood => ?_) fun hp => ?_
  · rcases s with (_ | _) | _
    · cases hs
    all_goals rfl
  · rcases (step E f n limit executed ip m).1 with ((e | _) | _) | flow
    case error.fault.runtime =>
      refine (alike_unwind hE hn ip e).follow (fun r => ?_) (fun r hp => ?_) nofun _ hgood
      · cases r with
        | jump target => exact .bind Hosts.budget fun _ => .pure _
        | _ => exact .pure _
      · cases r with
        | yielded => exact ⟨.pure _, fun _ => rfl⟩
        | _ => cases hp
    case ok => exact AlikeRun.pure _ _ hgood
    all_goals exact AlikeRun.throw _ _ hgood
  · match hr : (step E f n limit executed ip m).1, hp with
    | .ok (.transfer .yielded), _ => exact ⟨⟨Lawful.refl _, fun _ => .inr rfl⟩, rfl⟩

theorem alike_loop :
    c.AlikeRunAt m (loop E f n limit executed ip) (loop E' f n' limit executed ip) := by
  induction n generalizing n' limit executed ip m with
  | zero => exact AlikeRun.exhausted (y := fun n => loop E' f n limit executed ip) hn rfl m hm
  | succ n ih =>
    obtain ⟨n', rfl, hle⟩ := hn.succ
    have hround := alike_round (f := f) hE hle ip limit executed hm hlimit
    rw [loop_succ, loop_succ]
    refine hround.follow hm (fun r m' hrun hrel => ?_) (fun r m' hrun hp => ?_) nofun
    · cases r with
      | again limit' ip' =>
        refine ih hle ip' limit' _ (Lawful.good_rel hm hrel) fun hsome => ?_
        rcases round_again hrun with rfl | rfl
        · exact (Lawful.yields hm hrel).2 (hlimit hsome)
        · exact Carries.canYield (Lawful.good_rel hm hrel) (Fiber.canYield_of_limit hsome)
      | leave => exact AlikeRun.of alike_pop m' (Lawful.good_rel hm hrel)
    · cases r with
      | again limit' ip' => cases hp
      | leave =>
        have hparked := hround.parked hm
        rw [hrun] at hparked
        exact ⟨alike_pop m' (Lawful.good hm hparked), rfl⟩

end

theorem alike_runFrom : c.AlikeRun (runFrom E f n ip) (runFrom E' f n' ip) := fun m hm =>
  .bind hm (Hosts.budget m hm) fun limit m' hrun => by
    obtain ⟨hlimit, rfl⟩ := Prod.mk.inj hrun
    obtain rfl := Except.ok.inj hlimit
    exact alike_loop hE hn ip _ 0 hm fun h => Carries.canYield hm (Fiber.canYield_of_limit h)

end Hosting

theorem alike_closeFrames [c.Carries f] {E E' : Engine} (hE : c.Agree E E') {n n' : Nat} (hn : c.Enough n n') :
    c.Alike (closeFrames E f n) (closeFrames E' f n') := by
  induction n generalizing n' with
  | zero => exact .exhausted (y := closeFrames E' f) hn rfl
  | succ n ih =>
    obtain ⟨n', rfl, hle⟩ := hn.succ
    have hdiscard : c.Alike (discard (popFrame f)) (discard (popFrame f)) :=
      .bind alike_popFrame fun _ => .pure _
    exact .bind (.readFiber fun _ _ => rfl) fun _ => .ite (.bind (alike_closeBlocks hE hle _) fun _ =>
      .bind hdiscard fun _ => ih hle) (.pure _)

end Likeness

section KeepingTo

variable {own : FiberId → Prop} {f : FiberId} {m m' : Machine} {α : Type} {E : Engine}

/-- Runs on the stacks of some flows in the middle of a run, which leave the other ones alone. -/
def keepingTo (own : FiberId → Prop) : Likeness where
  image := id
  Good m := Sound m ∧ ∀ f, own f → Busy m f
  Rel m m' := Keeps (¬ own ·) m m' ∧ ∀ f, own f → SameRole (m.fiber f) (m'.fiber f)
  lax _ _ := False

theorem Undisturbed.keepsTo (h : Undisturbed m m') (hm : (keepingTo own).Good m) :
    (keepingTo own).Rel m m' :=
  ⟨(h hm.1).mono fun _ _ => trivial, fun f hf => by
    rw [(h hm.1).fiber f trivial (hm.2 f hf)]
    exact .refl _⟩

theorem Quiet.keepsTo (hE : Quiet E) : (keepingTo own).Agree E E := fun request m hm =>
  ⟨Undisturbed.keepsTo (hE request m) hm, fun _ => .inr rfl⟩

instance : (keepingTo own).Lawful := Likeness.Reflexive.lawful {
  refl m := ⟨.refl m, fun _ _ => .refl _⟩
  trans h h' := ⟨h.1.trans h'.1, fun f hf => (h.2 f hf).trans (h'.2 f hf)⟩
  good {m m'} hm h := by
    have hstatus (f : FiberId) (hf : Busy m f) : (m'.fiber f).status = (m.fiber f).status := by
      by_cases hown : own f
      · exact (h.2 f hown).status
      · rw [h.1.fiber f hown hf]
    exact ⟨hm.1.of_status h.1.active h.1.size hstatus, fun f hf =>
      ⟨(hm.2 f hf).1.trans_le h.1.size, hstatus f (hm.2 f hf) ▸ (hm.2 f hf).2⟩⟩
  beside hm h := h.toAside.undisturbed.keepsTo hm
  observed {m} debug events hm := Undisturbed.keepsTo (Aside.undisturbed ⟨rfl, rfl, rfl, rfl, .refl m⟩) hm
  spawned {m} id hm := Undisturbed.keepsTo (undisturbed_newFiber (.closure id) m) hm
  callback {m} id hm := ((aside_newCoroutine (.callback id) m).undisturbed).keepsTo hm
  spent {m} _ _ hm _ := Undisturbed.keepsTo (Aside.undisturbed ⟨rfl, rfl, rfl, rfl, .refl m⟩) hm }

instance : (keepingTo own).Frees where
  rel h := h

instance : (keepingTo own).Blind where
  lax _ h := h

instance : (keepingTo (· = f)).Hosts f where
  onStacks hm hrole _ _ := ⟨.withFiber _ f _, by
    rintro _ rfl
    rw [Machine.fiber_withFiber_self (hm.2 _ rfl).1]
    exact hrole⟩
  parks savedIp hm := ⟨.withFiber _ f _, by
    rintro _ rfl
    rw [Machine.fiber_withFiber_self (hm.2 _ rfl).1]
    exact .stacks ..⟩
  canYield _ _ := trivial
  budget m _ := ⟨⟨.refl m, fun _ _ => .refl _⟩, fun _ => .inr rfl⟩

/-- What a flow does on its own stacks concerns no other flow. -/
theorem alone_of_alike {x : Exec α} (hm : Sound m) (hf : Busy m f)
    (hx : (keepingTo (· = f)).Alike x x) : Alone f m (x m).2 :=
  have h := (hx m ⟨hm, fun _ h => h ▸ hf⟩).1
  ⟨h.1, h.2 f rfl⟩

end KeepingTo

end ScriptMachine
