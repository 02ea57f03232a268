import ScriptMachine.Proofs.Machine.Keeping

namespace ScriptMachine

open Exec

/-- Whether an event is one of the program and not of its debugging. -/
def Event.isProgram : Event → Bool
  | called .. | printed _ | warned _ => true
  | _ => false

/-- Other flows, another state of debugging and another record of the events, to which those of the
program are added in the same way. -/
structure Veil where
  fibers : Array Fiber
  debug : DebugState
  events : Array Event → Array Event
  push : ∀ es e, e.isProgram → events (es.push e) = (events es).push e

def Machine.veiled (m : Machine) (v : Veil) : Machine :=
  { m with fibers := v.fibers, debug := v.debug, events := v.events m.events }

/-- Code that never crashes, and neither looks at flows, debugging and past events nor changes a
flow, a coroutine or the state of debugging. -/
structure Exec.Detached {α : Type} (x : Exec α) : Prop where
  beside : Preserves Beside x
  blind : ∀ m v, x (m.veiled v) = ((x m).1, (x m).2.veiled v)
  safe : Safe x

namespace Exec.Detached

variable {α β : Type} {x y : Exec α}

theorem aside (h : Detached x) : Preserves Aside x := h.beside.mono fun _ _ => Beside.toAside

theorem undisturbed (h : Detached x) : Preserves Undisturbed x :=
  h.aside.mono fun _ _ => Aside.undisturbed

theorem debug_eq (h : Detached x) (m : Machine) : (x m).2.debug = m.debug := by
  have hblind := h.blind m ⟨m.fibers, m.debug, id, fun _ _ _ => rfl⟩
  exact congrArg (fun r => r.2.debug) hblind

theorem pure (a : α) : Detached (pure a : Exec α) := ⟨.pure a, fun _ _ => rfl, .pure a⟩

theorem fail (f : Fault) : Detached (fail f : Exec α) := ⟨.throw _, fun _ _ => rfl, .fail f⟩

theorem complain (c : Complaint) : Detached (complain c : Exec α) := fail _

theorem read {g : Machine → α} (hg : ∀ m v, g (m.veiled v) = g m) : Detached (read g) := by
  refine ⟨.read g, fun m v => ?_, .read g⟩
  change (Except.ok (g (m.veiled v)), m.veiled v) = (.ok (g m), m.veiled v)
  rw [hg]

theorem ofExcept (r : Except Fault α) : Detached (ofExcept r) := by
  cases r
  · exact fail _
  · exact pure _

theorem ofComplaint (r : Except Complaint α) : Detached (ofComplaint r) := by
  cases r
  · exact complain _
  · exact pure _

theorem bind {g : α → Exec β} (hx : Detached x) (hg : ∀ a, Detached (g a)) :
    Detached (x >>= g) := by
  refine ⟨hx.beside.bind fun a => (hg a).beside, fun m v => ?_, hx.safe.bind fun a => (hg a).safe⟩
  have hblind := hx.blind m v
  rcases hrun : x m with ⟨s | a, m'⟩ <;> rw [hrun] at hblind
  · rw [bind_error hblind, bind_error hrun]
  · rw [bind_ok hblind, bind_ok hrun]
    exact (hg a).blind m' v

theorem ite {p : Prop} [Decidable p] (hx : Detached x) (hy : Detached y) :
    Detached (if p then x else y) := by
  split
  · exact hx
  · exact hy

end Exec.Detached

section Heap

theorem Aside.of_heap {m : Machine} {h : Heap} (hn : h.natives = m.heap.natives) :
    Aside m { m with heap := h } :=
  ⟨rfl, rfl, rfl, rfl, fun id hid => ⟨hn ▸ hid, by simp only [Heap.native, hn]⟩⟩

theorem beside_emit (e : Event) : Preserves Beside (emit e) :=
  .modify fun m => ⟨⟨rfl, rfl, rfl, rfl, .refl m⟩, rfl, fun _ => rfl⟩

theorem detached_emit (e : Event) (he : e.isProgram) : Detached (emit e) := by
  refine ⟨beside_emit e, fun m v => ?_, .modify _⟩
  change (Except.ok (), { m.veiled v with events := (v.events m.events).push e }) =
    (.ok (), { m with events := m.events.push e }.veiled v)
  rw [Machine.veiled, Machine.veiled, v.push _ _ he]

theorem detached_modifyTable (t : TableId) (g : Table → Table) : Detached (modifyTable t g) :=
  ⟨.modify fun _ => .of_heap rfl rfl, fun _ _ => rfl, .modify _⟩

theorem detached_setIndex (t : TableId) (key v : Value) : Detached (setIndex t key v) :=
  .bind (.ofComplaint _) fun _ => detached_modifyTable _ _

theorem detached_writeCell (c : CellId) (v : Value) : Detached (writeCell c v) :=
  ⟨.modify fun _ => .of_heap rfl rfl, fun _ _ => rfl, .modify _⟩

theorem detached_newTable : Detached newTable :=
  ⟨.modifyGet fun _ => .of_heap rfl rfl, fun _ _ => rfl, .modifyGet _⟩

theorem detached_newCell (v : Value) : Detached (newCell v) :=
  ⟨.modifyGet fun _ => .of_heap rfl rfl, fun _ _ => rfl, .modifyGet _⟩

theorem detached_newClosure (c : Closure) : Detached (newClosure c) :=
  ⟨.modifyGet fun _ => .of_heap rfl rfl, fun _ _ => rfl, .modifyGet _⟩

theorem detached_newUserdata (u : Userdata) : Detached (newUserdata u) :=
  ⟨.modifyGet fun _ => .of_heap rfl rfl, fun _ _ => rfl, .modifyGet _⟩

theorem detached_newTailCall (t : TailCall) : Detached (newTailCall t) :=
  ⟨.modifyGet fun _ => .of_heap rfl rfl, fun _ _ => rfl, .modifyGet _⟩

theorem aside_newCoroutine (c : CoroutineBody) : Preserves Aside (newCoroutine c) :=
  .modifyGet fun _ => .of_heap rfl

theorem native_newNative (h : Heap) (n : Native) {id : NativeId} (hid : id.index < h.natives.size) :
    (h.newNative n).2.native id = h.native id := by
  simp only [Heap.native, Heap.newNative, Array.getD_eq_getD_getElem?, Array.getElem?_push]
  rw [if_neg (by omega)]

theorem detached_newNative (n : Native) : Detached (newNative n) := by
  refine ⟨.modifyGet fun m => ⟨⟨rfl, rfl, rfl, rfl, fun id hid => ⟨?_, ?_⟩⟩, rfl, fun _ => rfl⟩,
    fun _ _ => rfl, .modifyGet _⟩
  · exact hid.trans (by simp [Heap.newNative])
  · rw [native_newNative m.heap n hid]

theorem detached_newBuiltin (name : String) (b : Builtin) : Detached (newBuiltin name b) :=
  detached_newNative _

theorem detached_raise {α : Type} (v : Value) : Detached (raise v : Exec α) :=
  .bind (.read fun _ _ => rfl) fun _ => .fail _

theorem detached_countCall (id : NativeId) : Detached (Host.countCall id) := by
  refine ⟨.modifyGet fun m => ⟨⟨rfl, rfl, rfl, rfl, fun i hi => ⟨by simpa using hi, ?_⟩⟩, rfl,
    fun _ => rfl⟩, fun _ _ => rfl, .modifyGet _⟩
  simp only [Heap.native, Array.getD_eq_getD_getElem?, Array.getElem?_modify]
  split
  · rw [Array.getElem?_eq_getElem hi]
    rfl
  · rfl

end Heap

section Debugger

/-- Code that succeeds and, besides the state of debugging, changes nothing but the record of the
events, to which it adds some of its own. -/
def Exec.Observes {α : Type} (x : Exec α) : Prop :=
  ∀ m, ∃ a debug events, x m = (.ok a, { m with debug, events := m.events ++ events }) ∧
    ∀ e ∈ events, e.isProgram = false

namespace Exec.Observes

variable {α β : Type} {x y : Exec α}

theorem read (g : Machine → α) : Observes (read g) := fun m =>
  ⟨g m, m.debug, #[], Prod.ext rfl (by rw [Array.append_empty]; rfl), nofun⟩

theorem readFiber (f : FiberId) (g : Fiber → α) : Observes (readFiber f g) := read _

theorem pure (a : α) : Observes (pure a : Exec α) := read fun _ => a

theorem emit {e : Event} (he : e.isProgram = false) : Observes (emit e) := fun m =>
  ⟨(), m.debug, #[e], Prod.ext rfl (by rw [Array.append_singleton]; rfl), by simpa using he⟩

theorem modifyDebug (g : DebugState → DebugState) : Observes (modifyDebug g) := fun m =>
  ⟨(), g m.debug, #[], Prod.ext rfl (by rw [Array.append_empty]; rfl), nofun⟩

theorem bind {g : α → Exec β} (hx : Observes x) (hg : ∀ a, Observes (g a)) :
    Observes (x >>= g) := by
  intro m
  obtain ⟨a, debug, events, hrun, hevents⟩ := hx m
  obtain ⟨b, debug', events', hrest, hevents'⟩ := hg a { m with debug, events := m.events ++ events }
  refine ⟨b, debug', events ++ events', ?_, fun e he => ?_⟩
  · rw [bind_ok hrun, hrest, Array.append_assoc]
  · exact (Array.mem_append.1 he).elim (hevents e) (hevents' e)

theorem ite {p : Prop} [Decidable p] (hx : Observes x) (hy : Observes y) :
    Observes (if p then x else y) := by
  split
  · exact hx
  · exact hy

theorem forM {l : List α} {g : α → Exec PUnit} (h : ∀ a, Observes (g a)) : Observes (l.forM g) := by
  induction l with
  | nil => exact pure _
  | cons a l ih => exact (h a).bind fun _ => ih

theorem preserves {R : Machine → Machine → Prop} (hx : Observes x)
    (hR : ∀ (m : Machine) debug (events : Array Event), (∀ e ∈ events, e.isProgram = false) →
      R m { m with debug, events := m.events ++ events }) : Preserves R x := by
  intro m
  obtain ⟨_, debug, events, hrun, hevents⟩ := hx m
  rw [hrun]
  exact hR m debug events hevents

theorem aside (hx : Observes x) : Preserves Aside x :=
  hx.preserves fun m _ _ _ => ⟨rfl, rfl, rfl, rfl, .refl m⟩

end Exec.Observes

theorem observes_refresh (f : FiberId) (d : Debugger) (hard : Bool) (ip : Nat) :
    Observes (refresh f d hard ip) := by
  unfold refresh
  refine .bind (.forM fun kind => ?_) fun _ => .ite (.bind (.read _) fun _ => .emit rfl) (.pure _)
  exact .ite (.bind (.read _) fun _ => .emit rfl) (.pure _)

theorem observes_perform (f : FiberId) (d : Debugger) (ip : Nat) (a : DebugAction) :
    Observes (perform f d ip a) := by
  have hrefresh (hard : Bool) := observes_refresh f d hard ip
  have hchange : ∀ p state, Observes (perform.change f d ip p state) := fun p state =>
    .bind (.bind (.read _) fun _ => .bind (.modifyDebug _) fun _ => .pure _) fun _ => hrefresh true
  unfold perform
  split
  · exact hchange _ _
  · exact hchange _ _
  · exact hchange _ _
  · exact .bind (.bind (.read _) fun _ => .bind (.modifyDebug _) fun _ => .pure _) fun _ =>
      hrefresh true
  · exact hrefresh false
  · exact hrefresh true
  · exact .pure _

theorem observes_askDebugger (f : FiberId) (d : Debugger) (ip depth : Nat) (l : Option Location)
    (actions : List DebugAction) : Observes (askDebugger f d ip depth l actions) := by
  induction actions with
  | nil => exact .bind (.emit rfl) fun _ => .modifyDebug _
  | cons action rest ih =>
    refine .bind (.emit rfl) fun _ => .bind (.modifyDebug _) fun _ => .ite ?_ ?_
    · exact .modifyDebug _
    · exact .bind (observes_perform f d ip action) fun _ => ih

theorem observes_listen (f : FiberId) (ip : Nat) (l : Option Location) (force : Bool) :
    Observes (listen f ip l force) := by
  refine .bind (.read _) fun d? => ?_
  cases d? with
  | none => exact .pure _
  | some d =>
    refine .bind (.readFiber _ _) fun depth => ?_
    have hrest : ∀ requested : Bool, Observes (do
        modifyDebug fun s =>
          let reached := l.any s.breakpoints.contains && s.isElsewhere l
          if requested || reached then { s with action := .codeStepIn, target := none } else s
        if ← read fun m => m.debug.keepsRunning ip depth l then modifyDebug fun s => s.follow l
        else
          refresh f d false ip
          askDebugger f d ip depth l d.actions) := fun requested =>
      .bind (.modifyDebug _) fun _ => .bind (.read _) fun _ => .ite (.modifyDebug _)
        (.bind (observes_refresh f d false ip) fun _ => observes_askDebugger f d ip depth l _)
    cases force with
    | true => exact hrest true
    | false => exact .bind (.bind (.modifyDebug _) fun _ => .pure _) hrest

theorem observes_reportError (f : FiberId) (e : RuntimeError) (ip : Nat) :
    Observes (reportError f e ip) := by
  refine .bind (.read _) fun d? => ?_
  cases d? with
  | none => exact .pure _
  | some d =>
    exact .bind (.emit rfl) fun _ =>
      .ite (.bind (.read _) fun _ => observes_listen f ip _ true) (.pure _)

theorem observes_reportEnd (f : FiberId) : Observes (reportEnd f) :=
  .bind (.readFiber _ _) fun _ => .bind (.read _) fun _ => .ite (.emit rfl) (.pure _)

/-- The debugger may look at the machine before an instruction. -/
def Exec.listening (f : FiberId) (ip : Nat) (i : Instruction) : Exec Unit := do
  if ← read fun m => m.debug.enabled then listen f ip i.location false

theorem observes_listening (f : FiberId) (ip : Nat) (i : Instruction) :
    Observes (listening f ip i) :=
  .bind (.read _) fun _ => .ite (observes_listen f ip _ false) (.pure _)

theorem step_eq (E : Engine) (f : FiberId) (n : Nat) (limit : Option Nat) (executed ip : Nat) :
    step E f n limit executed ip = (do
      match ← read fun m => m.code.get? ip with
      | none => internal ("instruction pointer " ++ toString ip ++ " out of range")
      | some i =>
        listening f ip i
        if limit.any (· ≤ executed) then suspendAt f ip else execute E f n ip i) := by
  refine congrArg _ (funext fun i? => ?_)
  cases i? with
  | none => rfl
  | some i =>
    simp only [listening, bind_assoc]
    refine congrArg _ (funext fun enabled => ?_)
    cases enabled <;> rfl

theorem reportEnd_apply (f : FiberId) (m : Machine) :
    reportEnd f m = (.ok (), (reportEnd f m).2) ∧ Beside m (reportEnd f m).2 := by
  have happly : reportEnd f m = (if (m.fiber f).nesting == 0 ∧ m.debug.debugger.isSome then
      emit .ended else pure ()) m := rfl
  rw [happly]
  split
  · exact ⟨rfl, beside_emit _ m⟩
  · exact ⟨rfl, refl m⟩

section None

variable {f : FiberId} {m : Machine} (h : m.debug.debugger = none)
include h

theorem listen_of_none (ip : Nat) (l : Option Location) (force : Bool) :
    listen f ip l force m = (.ok (), m) := by
  have hread : read (fun m => m.debug.debugger) m = (.ok none, m) :=
    congrArg (fun d => (Except.ok d, m)) h
  rw [Exec.listen, bind_ok hread]
  rfl

theorem listening_of_none (ip : Nat) (i : Instruction) : listening f ip i m = (.ok (), m) := by
  have happly : listening f ip i m =
    (if m.debug.enabled then listen f ip i.location false else pure ()) m := rfl
  rw [happly]
  split
  · exact listen_of_none h ip i.location false
  · rfl

theorem reportError_of_none (e : RuntimeError) (ip : Nat) :
    reportError f e ip m = (.ok (), m) := by
  have hread : read (fun m => m.debug.debugger) m = (.ok none, m) :=
    congrArg (fun d => (Except.ok d, m)) h
  rw [Exec.reportError, bind_ok hread]
  rfl

theorem reportEnd_of_none : reportEnd f m = (.ok (), m) := by
  have happly : reportEnd f m = (if (m.fiber f).nesting == 0 ∧ m.debug.debugger.isSome then
    emit .ended else pure ()) m := rfl
  rw [happly, h, if_neg fun h => Bool.false_ne_true h.2]
  rfl

end None

end Debugger

end ScriptMachine
