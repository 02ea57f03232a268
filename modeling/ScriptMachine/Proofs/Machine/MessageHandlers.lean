import ScriptMachine.Proofs.Machine.Catching
import ScriptMachine.Proofs.Machine.Recording
import ScriptMachine.Proofs.Machine.Uncaught

namespace ScriptMachine

open Exec Recorded

variable {arguments : List Value} {function : Value} {e : RuntimeError}

/-- A message handler is called with the text of an error. -/
structure Notice where
  handler : Value
  text : String
  before : Machine
  outcome : Except Stop Value

namespace Exec

variable (E : Engine) (f : FiberId)

/-- Lets a message handler replace an error, and records the call. -/
def recordHandled (handler : Value) (e : RuntimeError) : Recorded Notice RuntimeError :=
  if handler.isCallable then do
    let call := noted (fun m r => ⟨handler, e.text, m, r.1⟩)
      (E (.call handler [.string e.text]))
    rephrased e (← call.attempt)
  else rephrased e (.error (.fault (.complain .handlerNotSet)))

/-- What an error goes through before any frame is left, with a record of the message handlers that
are called. -/
def recordAnnounce (e : RuntimeError) (ip : Nat) : Recorded Notice RuntimeError := do
  let e := e.decorate (← read fun m => m.code.locationAt ip)
  reportError f e ip
  let handlers ← readFiber f messageHandlers
  handlers.foldlM (fun e handler => recordHandled E handler e) e

/-- A request leads to a host call, made by native functions on the way. The number is that of the
engine with which the call is served. -/
inductive CallsBack : Nat → Request → Machine → Nat → Request → Machine → Prop
  | call {k function arguments m} :
      CallsBack (k + 1) (.call function arguments) m k (.call function arguments) m
  | native {k j id site arguments method m r m' r' m''}
      (h : Asks (serve · k (.invoke id site arguments method)) (engine k) m r m')
      (hrest : CallsBack k r m' j r' m'') :
      CallsBack (k + 1) (.invoke id site arguments method) m j r' m''

end Exec

/-- An instruction raises an error in the loop of a flow. -/
structure Crossing where
  level : Nat
  turn : Turn
  error : RuntimeError
  machine : Machine

namespace Crossing

variable (c : Crossing) (f : FiberId)

def instruction (E : Engine) : Exec Flow :=
  step E f c.turn.fuel c.turn.limit c.turn.executed c.turn.ip

def Raised : Prop :=
  c.instruction f (engine c.level) c.turn.machine = (.error (.fault (.runtime c.error)), c.machine)

def text : String := (c.error.decorate (c.machine.code.locationAt c.turn.ip)).text

/-- The message handlers that the loop calls for the error, and what it tells them. -/
def told : List (Value × String) :=
  (recordAnnounce (engine c.level) f c.error c.turn.ip c.machine).2.map fun n => (n.handler, n.text)

/-- The instruction comes to a host call on the flow, by way of native functions or not. -/
def Reenters (j : Nat) (r : Request) (m : Machine) : Prop :=
  ∃ r₀ m₀, Asks (c.instruction f) (engine c.level) c.turn.machine r₀ m₀ ∧
    CallsBack c.level r₀ m₀ j r m ∧ m.currentFiber = f

/-- The error comes from the loop itself: no host call on the flow raises one meanwhile. -/
def IsNew : Prop :=
  ∀ j r m, c.Reenters f j r m → ∀ e, (engine (j + 1) r m).1 ≠ .error (.fault (.runtime e))

end Crossing

/-- An error passes through the loops of a flow, which are listed with the innermost first. In each
of the others, an instruction raises what has left the loop of a host call inside. -/
inductive Passes (f : FiberId) : Crossing → List Crossing → Prop
  | raised {c} (hraised : c.Raised f) (hnew : c.IsNew f) : Passes f c [c]
  | passed {c d inner r m} (hraised : c.Raised f) (hreenters : c.Reenters f d.level r m)
      (hturn : d.turn ∈ turns (engine d.level) d.level m r)
      (hleaves : (Exec.round (engine d.level) f d.turn.fuel d.turn.limit d.turn.executed d.turn.ip
        d.turn.machine).1 = .error (.fault (.runtime c.error)))
      (hinner : Passes f d inner) : Passes f c (inner ++ [c])

section Telling

variable {E : Engine} {f : FiberId} {h : Value} {e : RuntimeError} {ip : Nat} {m m' : Machine}

theorem plain_recordHandled (handler : Value) (e : RuntimeError) :
    (recordHandled E handler e).plain = handledError E handler e := by
  rw [handledError_eq, recordHandled]
  split <;> rfl

theorem plain_recordAnnounce : (recordAnnounce E f e ip).plain = announce E f e ip := by
  unfold recordAnnounce announce
  simp only [plain_bind, plain_lift]
  refine congrArg _ (funext fun location => congrArg _ (funext fun _ => congrArg _ (funext fun hs => ?_)))
  exact plain_foldlM (fun e handler => plain_recordHandled handler e) _

theorem recordHandled_tells (hh : h.isCallable) (e : RuntimeError) (m : Machine) :
    (recordHandled E h e m).2 = [⟨h, e.text, m, (E (.call h [.string e.text]) m).1⟩] := by
  rw [recordHandled, if_pos hh]
  have hrephrased (o : Except Stop Value) (m : Machine) :
      ((liftM (rephrased e o) : Recorded Notice RuntimeError) m).2 = [] := rfl
  rw [Recorded.bind_ok rfl, hrephrased]
  rfl

theorem recordAnnounce_tells (hh : h.isCallable) (hsole : messageHandlers (m.fiber f) = [h])
    (e : RuntimeError) (ip : Nat) :
    ∃ m' outcome, (recordAnnounce E f e ip m).2 =
      [⟨h, (e.decorate (m.code.locationAt ip)).text, m', outcome⟩] := by
  obtain ⟨_, debug, events, hreport, -⟩ :=
    observes_reportError f (e.decorate (m.code.locationAt ip)) ip m
  have hhandlers : readFiber f messageHandlers { m with debug, events := m.events ++ events } =
      (.ok [h], { m with debug, events := m.events ++ events }) := congrArg (Except.ok ·, _) hsole
  have hsingle (e : RuntimeError) (p : Machine) : ∃ m' outcome,
      ((([h] : List Value).foldlM (fun e handler => recordHandled E handler e) e) p).2 =
        [⟨h, e.text, m', outcome⟩] := by
    rw [List.foldlM_cons]
    change ∃ m' outcome, ((recordHandled E h e >>= fun e => pure e) p).2 = _
    rw [bind_pure, recordHandled_tells hh]
    exact ⟨_, _, rfl⟩
  have hlog : (recordAnnounce E f e ip m).2 =
      ((([h] : List Value).foldlM (fun e handler => recordHandled E handler e)
        (e.decorate (m.code.locationAt ip))) { m with debug, events := m.events ++ events }).2 := by
    refine congrArg Prod.snd ((silent_ok rfl).trans ((silent_ok hreport).trans ?_))
    exact silent_ok hhandlers
  rw [hlog]
  exact hsingle _ _

end Telling

section Passing

variable {f : FiberId} {c : Crossing} {loops : List Crossing}

theorem Crossing.told_eq {h : Value} (hh : h.isCallable)
    (hsole : messageHandlers (c.machine.fiber f) = [h]) : c.told f = [(h, c.text)] := by
  obtain ⟨m', outcome, hlog⟩ :=
    recordAnnounce_tells (E := engine c.level) hh hsole c.error c.turn.ip
  rw [told, hlog]
  rfl

/-- What leaves the loop of a host call is what the call ends with. -/
theorem outcome_of_leaves {k : Nat} {m p : Machine} {s : Stop} {t : Turn}
    (ht : t ∈ turns (engine k) k m (.call function arguments))
    (hleaves : Exec.round (engine k) m.currentFiber t.fuel t.limit t.executed t.ip t.machine =
      (.error s, p)) : (engine (k + 1) (.call function arguments) m).1 = .error s :=
  congrArg Prod.fst (call_abandoned (driven_of_round ht hleaves).1)

theorem Exec.CallsBack.isCall {k j : Nat} {r r' : Request} {m m' : Machine}
    (h : CallsBack k r m j r' m') : ∃ function arguments, r' = .call function arguments := by
  induction h with
  | call => exact ⟨_, _, rfl⟩
  | native _ _ ih => exact ih

namespace Passes

theorem origin (h : Passes f c loops) : ∃ origin, loops.head? = some origin ∧ origin.IsNew f := by
  induction h with
  | raised _ hnew => exact ⟨_, rfl, hnew⟩
  | passed _ _ _ _ _ ih =>
    obtain ⟨origin, hhead, hnew⟩ := ih
    exact ⟨origin, by rw [List.head?_append, hhead]; rfl, hnew⟩

theorem getLast? (h : Passes f c loops) : loops.getLast? = some c := by
  cases h with
  | raised => rfl
  | passed => exact List.getLast?_concat

/-- An error that has left the loop of a host call is not new. -/
theorem isNew_iff (h : Passes f c loops) : c.IsNew f ↔ loops = [c] := by
  cases h with
  | raised _ hnew => exact iff_of_true hnew rfl
  | @passed c d inner r m _ hreenters hturn hleaves hinner =>
    obtain ⟨origin, hhead, -⟩ := hinner.origin
    refine iff_of_false (fun hnew => ?_) fun hsingle => ?_
    · obtain ⟨r₀, m₀, hasks, hcalls, rfl⟩ := hreenters
      obtain ⟨function, arguments, rfl⟩ := hcalls.isCall
      exact hnew _ _ _ ⟨r₀, m₀, hasks, hcalls, rfl⟩ _ (outcome_of_leaves hturn (Prod.ext hleaves rfl))
    · rw [List.append_left_eq_self.1 hsingle] at hhead
      cases hhead

end Passes

end Passing

section Protecting

open Library

variable {E : Engine} {site : CallSite} {a : Arguments} {m m' : Machine}

theorem xpcall_eq (hh : (a.get 1).isCallable) : Library.xpcall E site a =
    protectedCall E site "xpcall" (a.get 0) (a.skip 2) (some (a.get 1)) := by
  have hnil : (a.get 1).isNil = false := by
    cases h : a.get 1 <;> rw [h] at hh <;> first | rfl | cases hh
  unfold Library.xpcall
  dsimp only
  rw [hnil, hh]
  rfl

theorem xpcall_script (hh : (a.get 1).isCallable) {id : ClosureId} (hid : a.get 0 = .closure id) :
    ∃ r m', Library.xpcall E site a m = (.ok (.tailCall r), m') ∧
      (m'.heap.tailCall r).function = .closure id ∧
      (m'.heap.tailCall r).handlers.beforeUnwind = some (a.get 1) := by
  rw [xpcall_eq hh, hid]
  refine ⟨⟨m.heap.tailCalls.size⟩, _, rfl, ?_, ?_⟩ <;> simp [Heap.tailCall]

/-- The message handler is called once when a native function fails. -/
theorem xpcall_native (hh : (a.get 1).isCallable) {g : NativeId} (hg : a.get 0 = .native g)
    (hfails : protectNative E site "xpcall" g (a.skip 2) (some (a.get 1)) m =
      (.error (.fault (.runtime e)), m')) :
    Library.xpcall E site a m = ((recordHandled E (a.get 1) (e.decorate site.location)).plain >>=
      fun e => pure (.tuple [.bool false, e.toValue])) m' := by
  rw [xpcall_eq hh, hg, protectedCall, bind_ok (attempt_apply hfails), plain_recordHandled]
  rfl

end Protecting

/-- The loop of a host call tells the message handlers that it finds on its flow, too. -/
theorem messageHandlers_of_hosted {n : Nat} {start m : Machine} {t : Turn} (hstart : Sound start)
    (hserved : (watched (n + 1) (.call function arguments) start).1 ≠ .error .exhausted)
    (ht : t ∈ callTrace (engine n) n function arguments start)
    (hstep : step (engine n) start.currentFiber t.fuel t.limit t.executed t.ip t.machine =
      (.error (.fault (.runtime e)), m)) : ∃ own, messageHandlers (m.fiber start.currentFiber) =
      own ++ messageHandlers (start.fiber start.currentFiber) := by
  obtain ⟨own, hlaid⟩ := laidOut_of_served hstart hserved ht hstep
  have hcalls (b : Fiber) :
      messageHandlers b = b.calls.filterMap fun frame => frame.handlers.beforeUnwind := rfl
  rw [hcalls, hcalls, hlaid.calls, List.filterMap_append]
  exact ⟨_, rfl⟩

/-- A message handler is told about an error once by each loop of its flow that the error passes
through, with the message as it then stands. So it is told exactly once, with the decorated message
of the original error, if the error comes from the loop that catches it; if it has left the loop of a
host call, it was told before, since such a loop tells the handlers that it finds as well. A script
function under protection has the handler installed; for a native one that fails it is called
once. -/
theorem handler_told_once_per_loop {f : FiberId} {h : Value} {c : Crossing} {loops : List Crossing}
    (hh : h.isCallable) (hpasses : Passes f c loops)
    (hsole : ∀ d ∈ loops, messageHandlers (d.machine.fiber f) = [h]) :
    (loops.flatMap fun d => d.told f) = (loops.map fun d => (h, d.text)) ∧
    (c.IsNew f ↔ (loops.flatMap fun d => d.told f) = [(h, c.text)]) ∧
    (∃ origin, loops.head? = some origin ∧ origin.IsNew f) ∧
    (∀ {n function arguments start t e m}, Sound start →
      (watched (n + 1) (.call function arguments) start).1 ≠ .error .exhausted →
      t ∈ callTrace (engine n) n function arguments start →
      step (engine n) start.currentFiber t.fuel t.limit t.executed t.ip t.machine =
        (.error (.fault (.runtime e)), m) →
      ∃ own, messageHandlers (m.fiber start.currentFiber) =
        own ++ messageHandlers (start.fiber start.currentFiber)) ∧
    ∀ (E : Engine) (site : CallSite) (a : Arguments) (m : Machine), a.get 1 = h →
      (∀ id, a.get 0 = .closure id → ∃ r m', Library.xpcall E site a m = (.ok (.tailCall r), m') ∧
        (m'.heap.tailCall r).function = .closure id ∧
        (m'.heap.tailCall r).handlers.beforeUnwind = some h) ∧
      ∀ g e m', a.get 0 = .native g → Library.protectNative E site "xpcall" g (a.skip 2) (some h) m =
          (.error (.fault (.runtime e)), m') →
        Library.xpcall E site a m = ((recordHandled E h (e.decorate site.location)).plain >>=
          fun e => pure (.tuple [.bool false, e.toValue])) m' ∧
        ∃ outcome, (recordHandled E h (e.decorate site.location) m').2 =
          [⟨h, (e.decorate site.location).text, m', outcome⟩] := by
  have htold : (loops.flatMap fun d => d.told f) = loops.map fun d => (h, d.text) := by
    rw [List.map_eq_flatMap]
    exact List.flatMap_congr fun d hd => Crossing.told_eq hh (hsole d hd)
  refine ⟨htold, ?_, hpasses.origin, messageHandlers_of_hosted, ?_⟩
  · rw [hpasses.isNew_iff, htold]
    refine ⟨fun hsingle => hsingle ▸ rfl, fun hsingle => ?_⟩
    obtain ⟨d, rfl⟩ := List.length_eq_one_iff.1 ((List.length_map _).symm.trans (congrArg _ hsingle))
    exact congrArg ([·]) (Option.some.inj hpasses.getLast?)
  · rintro E site a m rfl
    exact ⟨fun id hid => xpcall_script hh hid, fun g e m' hg hfails =>
      ⟨xpcall_native hh hg hfails, _, recordHandled_tells hh _ m'⟩⟩

/-- A machine that is about to call a function under protection, with a message handler that is
logged. The function has a native function call another one, which raises an error. -/
def retelling : Machine where
  code := { instructions := #[
    { op := .preamble },
    { op := .literal, value := some (.native ⟨0⟩) },
    { op := .literal, value := some (.string "x") },
    { op := .call, number := 1 },
    { op := .ret, number := 0 },
    { op := .preamble },
    { op := .literal, value := some (.native ⟨1⟩) },
    { op := .call, number := 0 },
    { op := .ret, number := 1 }] }
  heap := {
    closures := #[{ entry := 0 }, { entry := 5 }]
    natives := #[
      { name := "error", behavior := .builtin .error },
      { name := "n", behavior := .host (.apply (.closure ⟨0⟩)) },
      { name := "h", behavior := .host (.labelled "E:"), logged := true },
      { name := "xpcall", behavior := .builtin .xpcall }] }
  fibers := #[{ status := .main, owner := ⟨0⟩ }]

/-- The function under protection is about to call nil instead. -/
def Crossing.callingNil : Crossing :=
  let machine := { retelling with fibers := #[{
    values := #[.closure ⟨1⟩, .ofNat 0, .nil]
    frames := #[{ base := 2, handlers := { beforeUnwind := some (.native ⟨2⟩) } }]
    status := .main, owner := ⟨0⟩ }] }
  ⟨9, ⟨8, none, 0, 7, machine⟩, .ofComplaint (.call "nil" none), machine⟩

theorem callingNil_raises (E : Engine) :
    Crossing.callingNil.instruction ⟨0⟩ E Crossing.callingNil.turn.machine =
      (.error (.fault (.runtime Crossing.callingNil.error)), Crossing.callingNil.machine) := rfl

theorem passes_callingNil : Passes ⟨0⟩ .callingNil [.callingNil] := by
  refine .raised (callingNil_raises _) fun j r m h => ?_
  obtain ⟨r₀, m₀, ⟨E, -, hne⟩, -⟩ := h
  exact (hne ((callingNil_raises E).trans (callingNil_raises _).symm)).elim

theorem handler_told_callingNil :
    ([Crossing.callingNil].flatMap fun d => d.told ⟨0⟩) =
      [(.native ⟨2⟩, "attempt to call a nil value")] :=
  ((handler_told_once_per_loop rfl passes_callingNil fun d hd => by
    obtain rfl := List.mem_singleton.1 hd
    rfl).1).trans rfl

/-- The function of which a call is logged. -/
def Event.callee? : Event → Option String
  | .called name _ => some name
  | _ => none

/-- The message handler is called twice, the second time with its own answer to the one error. -/
theorem handler_told_twice :
    ((engine 20 (.call (.native ⟨3⟩) [.closure ⟨1⟩, .native ⟨2⟩]) retelling).1 matches
      .ok (.tuple [.bool false, .string "E:E:x"])) = true ∧
    (engine 20 (.call (.native ⟨3⟩) [.closure ⟨1⟩, .native ⟨2⟩]) retelling).2.events.toList.filterMap
      Event.callee? = ["h", "h"] := by
  decide +kernel

end ScriptMachine
