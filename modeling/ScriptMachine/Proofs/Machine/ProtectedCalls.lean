import ScriptMachine.Proofs.Machine.Protection

namespace ScriptMachine

open Exec Shield

variable {f : FiberId} {m : Machine} {E E' : Engine} {id : NativeId} {callee : Value}
  {arguments : List Value} {outer : List Frame} {returnTo : Option Nat}

theorem Exec.Protected.rounds {r : Resumption} (h : Protected f returnTo outer r m)
    (limit : Option Nat) (ip : Nat) :
    Rounds f returnTo outer (.following limit ip (.transfer r)) m := by
  rcases h with ⟨rfl, hreported⟩ | ⟨s, m₀, rfl, rfl, rfl, harmed, hlands⟩
  · cases returnTo with
    | none => exact .inl ⟨rfl, hreported⟩
    | some target => exact .inr ⟨rfl, hreported⟩
  · exact hlands.rounds harmed limit ip

section HostCalls

def Exec.Contained (r : Except Stop Value) : Prop := GivesUp r ∨ ∃ v, r = .ok v ∧ v.isStatus

theorem drive_contained (hE : Serves E E') {fuel : Nat} {r : Resumption}
    (h : Protected f none outer r m)
    (hturns : ∀ ip limit, r = .jump ip → budget f m = (.ok limit, m) →
      ∀ t ∈ trace E f fuel limit 0 ip m, t.contained E f) :
    Contained (drive E f fuel r m).1 := by
  have hrounds := h.rounds none 0
  cases r with
  | jump ip =>
    have hcovers := hrounds.resolve_right nofun
    obtain ⟨limit, hbudget⟩ : ∃ limit, budget f m = (.ok limit, m) := ⟨_, rfl⟩
    rw [drive, runFrom, bind_ok hbudget]
    exact loop_resolves hE.quiet hE.answers hcovers (hturns ip limit rfl hbudget)
  | done =>
    rcases hrounds with ⟨-, -, v, htop, hv⟩ | ⟨items, forced, htop⟩
    · exact .inr ⟨v, outcome_pop htop, hv⟩
    · exact .inl (by rw [drive, outcome_pop htop]; exact ⟨items, forced, rfl⟩)
  | yielded =>
    rcases hrounds with ⟨-, -, v, htop, hv⟩ | ⟨items, forced, htop⟩
    · exact .inr ⟨v, outcome_pop htop, hv⟩
    · exact .inl (by rw [drive, outcome_pop htop]; exact ⟨items, forced, rfl⟩)

theorem Machine.prepared_world (m : Machine) (f : FiberId) :
    (m.prepared f).heap = m.heap ∧ (m.prepared f).options = m.options := by
  unfold prepared entered
  dsimp only
  split <;> exact ⟨rfl, rfl⟩

/-- A protected call by native code. -/
theorem hostCall_contained (hE : Serves E E') (hm : Sound m) (hcallee : callee.toScalar = .native id)
    (hpcall : m.heap.isPcall id)
    (hdepth : (m.fiber m.currentFiber).calls.length < m.options.maxCallDepth) {fuel : Nat}
    (hoffers : E'.Offers m.currentFiber (m.prepared m.currentFiber) (fun v => ∃ c, v = .closure c)
      (.ofStacked arguments false))
    (hturns : ∀ t ∈ callTrace E fuel callee arguments m, t.contained E m.currentFiber) :
    Contained (hostCall E m.currentFiber fuel callee arguments (m.prepared m.currentFiber)).1 := by
  have hf := hm.busy_current
  obtain ⟨hheap, hoptions⟩ := Machine.prepared_world m m.currentFiber
  obtain ⟨hsound, hbusy⟩ := hm.prepared hf hm.running_current
  have hrests : Rests m.currentFiber (m.prepared m.currentFiber) (m.fiber m.currentFiber).calls
      (m.prepared m.currentFiber) := by
    refine ⟨.refl _ _, hsound, hbusy, ?_⟩
    rw [Machine.fiber_prepared hf.1]
    rfl
  have hcallable : ∀ v : Value, (∃ c, v = .closure c) → v.isCallable := by
    rintro _ ⟨c, rfl⟩
    rfl
  rw [← hheap] at hpcall
  rw [← hoptions] at hdepth
  have hcall : Triple (fun m' => SameWorld (m.prepared m.currentFiber) m' ∧
      Poised m.currentFiber (m.prepared m.currentFiber) (m.fiber m.currentFiber).calls callee
        arguments m') (performCall E m.currentFiber fuel arguments.length { isEntry := true })
      (Protected m.currentFiber none (m.fiber m.currentFiber).calls)
      (fun stop _ => stop.isCatchable = false) := by
    refine (performCall_contained hE hcallee hpcall (fun c => ⟨c, rfl⟩) hcallable hoffers hdepth
      rfl fuel).conseq (fun _ h => h) ?_ ?_
    · rintro r m' ⟨setup, outer, ⟨rfl, rfl⟩ | ⟨frame, -, -, -, hsome⟩, h⟩
      · exact h
      · cases hsome
    · rintro stop m' ⟨setup, outer, -, h | ⟨⟨g, c, hc⟩, -⟩⟩
      · exact h
      · cases hc
  have hbegin := push_poised callee arguments hcall (m.prepared m.currentFiber) ⟨rfl, hrests⟩
  have hlands := beginCall_lands hE.quiet hm hf hm.running_current fuel callee arguments _ rfl
  rw [← beginCall] at hbegin
  unfold callTrace at hturns
  dsimp only at hturns
  rw [hostCall]
  rcases hrun : beginCall E m.currentFiber fuel callee arguments (m.prepared m.currentFiber) with
    ⟨stop | r, m'⟩ <;> rw [hrun] at hbegin hlands hturns
  · rw [bind_error hrun]
    exact .inl hbegin
  · rw [bind_ok hrun]
    refine drive_contained hE hbegin fun ip limit hr hbudget => ?_
    subst hr
    obtain ⟨own, -, hsits⟩ := hlands
    have hnone : budget m.currentFiber m' = (.ok none, m') :=
      (Machine.hosting_footing hf.1).budget_none hsits
    rw [hnone] at hbudget
    cases hbudget
    exact hturns

end HostCalls

section Instructions

/-- A run of the loop brings a status to the frames that the call at an address returns to: those
below the calling one, if the call takes its place. -/
def Exec.Delivers (E : Engine) (f : FiberId) (fuel : Nat) (limit : Option Nat) (executed ip : Nat)
    (m : Machine) : Prop :=
  Resolves E f (some (ip + 1)) (m.fiber f).calls fuel limit executed ip m ∨
    ∃ frame outer, (m.fiber f).calls = frame :: outer ∧
      Resolves E f frame.returnTo outer fuel limit executed ip m

/-- Where the call at an address returns to. -/
def Exec.Returns (f : FiberId) (ip : Nat) (m : Machine) (returnTo : Option Nat)
    (outer : List Frame) : Prop :=
  returnTo = some (ip + 1) ∧ outer = (m.fiber f).calls ∨
    ∃ frame, (m.fiber f).calls = frame :: outer ∧ returnTo = frame.returnTo

/-- A call instruction whose callee makes protected calls. -/
structure CallsPcall (f : FiberId) (m : Machine) (id : NativeId) (i : Instruction)
    (arguments : List Value) : Prop where
  call : i.op = .call ∨ i.op = .methodCall
  count : i.count = arguments.length
  values : ∃ below callee, (m.fiber f).values.toList = below ++ callee :: arguments ∧
    callee.toScalar = .native id
  pcall : m.heap.isPcall id

variable {n executed ip : Nat} {limit : Option Nat} {i : Instruction}

theorem execute_call (E : Engine) (f : FiberId) (n ip : Nat)
    (hop : i.op = .call ∨ i.op = .methodCall) : execute E f n ip i = (do
      return .transfer (← performCall E f n i.count
        { CallSetup.byInstruction ip with method := i.op == .methodCall, name := i.name })) := by
  obtain ⟨op⟩ := i
  rcases hop with rfl | rfl <;> rfl

section

variable (hE : Serves E E') (hm : Sound m) (hf : Busy m f) (hi : m.code.get? ip = some i)
  (hcalls : CallsPcall f m id i arguments)
  (hdepth : (m.fiber f).calls.length < m.options.maxCallDepth)
  (hoffers : E'.Offers f m (fun v => v.isCallable) (.ofStacked arguments (i.op == .methodCall)))
include hE hm hf hi hcalls hdepth hoffers

theorem step_contained (n : Nat) (limit : Option Nat) (executed : Nat) : Triple (· = m) (step E f n limit executed ip)
      (fun flow m' => ∃ returnTo outer, Returns f ip m returnTo outer ∧
        Rounds f returnTo outer (.following limit ip flow) m')
      (fun stop m' => ∃ returnTo outer, Returns f ip m returnTo outer ∧
        Breaks f returnTo outer True stop m') := by
  obtain ⟨below, callee, hvalues, hcallee⟩ := hcalls.values
  have hpoised : Poised f m (m.fiber f).calls callee arguments m :=
    ⟨⟨.refl _ _, hm, hf, rfl⟩, below, hvalues⟩
  have hhome : Returns f ip m (some (ip + 1)) (m.fiber f).calls := .inl ⟨rfl, rfl⟩
  have hreturns {setup : CallSetup} {outer : List Frame} (h : Replaces
      { CallSetup.byInstruction ip with method := i.op == .methodCall, name := i.name }
      (m.fiber f).calls setup outer) : Returns f ip m setup.returnTo outer := by
    rcases h with ⟨rfl, rfl⟩ | ⟨frame, hframe, -, rfl, -⟩
    · exact hhome
    · exact .inr ⟨frame, hframe, rfl⟩
  have hexecute : Triple (fun m' => SameWorld m m' ∧
      Poised f m (m.fiber f).calls callee arguments m') (execute E f n ip i)
      (fun flow m' => ∃ returnTo outer, Returns f ip m returnTo outer ∧
        Rounds f returnTo outer (.following limit ip flow) m')
      (fun stop m' => ∃ returnTo outer, Returns f ip m returnTo outer ∧
        Breaks f returnTo outer True stop m') := by
    rw [execute_call E f n ip hcalls.call, hcalls.count]
    refine .bind ((performCall_contained hE hcallee hcalls.pcall (fun _ => rfl) (fun _ h => h)
      hoffers hdepth rfl n).failing ?_) fun r => .pure ?_
    · rintro stop m' ⟨setup, outer, h, hbreaks⟩
      exact ⟨_, outer, hreturns h, hbreaks.mono fun _ => trivial⟩
    · rintro m' ⟨setup, outer, h, hprotected⟩
      exact ⟨_, outer, hreturns h, hprotected.rounds limit ip⟩
  have hlisten : Triple (Poised f m (m.fiber f).calls callee arguments)
      (listen f ip i.location false) (fun _ => Poised f m (m.fiber f).calls callee arguments)
      (fun stop m' => ∃ returnTo outer, Returns f ip m returnTo outer ∧
        Breaks f returnTo outer True stop m') :=
    ((Triple.of_state (S := fun _ _ => True) (fun m' h _ => h.undisturbed
      ((observes_listen f ip i.location false).aside m').undisturbed) fun _ _ _ => trivial).mild
        (observes_listen _ _ _ _).mild).failing fun stop m' h => ⟨_, _, hhome, .inl h⟩
  refine Triple.bind (Q := fun i? m' => i? = some i ∧ SameWorld m m' ∧
      Poised f m (m.fiber f).calls callee arguments m')
    (.read fun m' h => ?_) fun i? => .given fun hi? => ?_
  · subst h
    exact ⟨hi, rfl, hpoised⟩
  · subst hi?
    refine Triple.bind (Q := fun _ m' => SameWorld m m' ∧
      Poised f m (m.fiber f).calls callee arguments m') (.read fun _ h => h) fun _ =>
        .first (hlisten.world (sameWorld_listen f ip _ _)) fun _ => .ite (fun _ => ?_)
          fun _ => hexecute
    refine .bind (.modifyFiber fun m' h => h.2.withFiber (.stacks ..) h.2.calls)
      fun _ => .bind ((steady_rests f m (m.fiber f).calls).push _) fun _ => .pure fun m' h =>
        ⟨_, _, hhome, .inr ⟨[], true, h.1⟩⟩

theorem round_contained (hturn : Turn.contained ⟨n, limit, executed, ip, m⟩ E f) :
    Triple (· = m) (Exec.round E f n limit executed ip)
      (fun r m' => ∃ returnTo outer, Returns f ip m returnTo outer ∧
        Rounds f returnTo outer r m') (fun stop _ => stop.isCatchable = false) := by
  rintro _ rfl
  have hstep := step_contained hE hm hf hi hcalls hdepth hoffers n limit executed _ rfl
  rw [Turn.contained, Bool.and_eq_true] at hturn
  have hcaught := hturn.2
  rcases hrun : step E f n limit executed ip _ with ⟨stop | flow, m'⟩ <;> rw [hrun] at hstep
  · rcases stop with (e | _) | _
    · -- The protected call has a frame already: it catches the error.
      obtain ⟨returnTo, outer, hreturns, hbreaks⟩ := hstep
      obtain ⟨-, s, own, rfl, rfl, rfl, hstands⟩ := hbreaks.resolve_left Bool.noConfusion
      obtain ⟨top, -, htop⟩ := calls_of_sits hstands.sits
      simp only [Turn.isCaught, hrun, htop] at hcaught
      rw [round_of_runtime hrun]
      exact (recover_rounds hE.quiet hE.answers hstands n e ip
        (catches_of_append hcaught)).after (fun r m' h => ⟨_, _, hreturns, h⟩) m' rfl
    all_goals
      rw [round_of_error hrun rfl]
      rfl
  · rw [round_of_ok hrun]
    exact hstep

/-- A protected call by an instruction. -/
theorem loop_contained
    (hturns : ∀ t ∈ trace E f n limit executed ip m, t.contained E f) :
    GivesUp (loop E f n limit executed ip m).1 ∨ Delivers E f n limit executed ip m := by
  cases n with
  | zero => exact .inl rfl
  | succ n =>
    rw [trace, List.forall_mem_cons] at hturns
    obtain ⟨hturn, hturns⟩ := hturns
    have hrounds := round_contained hE hm hf hi hcalls hdepth hoffers hturn m rfl
    rcases hround : Exec.round E f n limit executed ip m with ⟨stop | r, m'⟩ <;>
      rw [hround] at hrounds hturns
    · rw [loop_succ, bind_error hround]
      exact .inl hrounds
    · obtain ⟨returnTo, outer, hreturns, hrounds⟩ := hrounds
      refine (resolves_of_round hround hrounds fun limit' ip' hr hcovers =>
        loop_resolves hE.quiet hE.answers hcovers ?_).imp_right fun h => ?_
      · subst hr
        exact hturns
      · rcases hreturns with ⟨rfl, rfl⟩ | ⟨frame, hframe, rfl⟩
        · exact .inl h
        · exact .inr ⟨frame, outer, hframe, h⟩

end

theorem Exec.Delivers.congr (h : Delivers E f n limit executed ip m)
    (hloop : loop E' f n limit executed ip m = loop E f n limit executed ip m)
    (htrace : trace E' f n limit executed ip m = trace E f n limit executed ip m) :
    Delivers E' f n limit executed ip m := by
  unfold Delivers Resolves at h ⊢
  rw [hloop, htrace]
  exact h

end Instructions

theorem serves_watched (n : Nat) : Serves (watched (n + 1)) (watched n) where
  quiet := quiet_watched _
  answers := answers_serve (watched n) n
  invoke _ _ _ _ := rfl

/-- Protected calls contain the errors that scripts can catch, if no function under protection
returns a request, the handlers that errors meet first are those of protected calls, and a native
function under protection asks only for functions that can be called, and for script functions if
the protected call is made by native code. -/
theorem pcall_contained (hm : Sound m) (n : Nat) (f : FiberId) (id : NativeId) (callee : Value)
    (arguments : List Value) :
    (callee.toScalar = .native id → m.heap.isPcall id →
      (m.fiber m.currentFiber).calls.length < m.options.maxCallDepth →
      (watched (n + 2) (.call callee arguments) m).1 ≠ .error .exhausted →
      (watched n).Offers m.currentFiber (m.prepared m.currentFiber) (fun v => ∃ c, v = .closure c)
        (.ofStacked arguments false) →
      (∀ t ∈ callTrace (watched (n + 1)) (n + 1) callee arguments m,
        t.contained (watched (n + 1)) m.currentFiber) →
      Contained (engine (n + 2) (.call callee arguments) m).1) ∧
    ∀ ip i fuel limit executed, Busy m f → m.code.get? ip = some i →
      CallsPcall f m id i arguments → (m.fiber f).calls.length < m.options.maxCallDepth →
      (loop (watched (n + 1)) f fuel limit executed ip m).1 ≠ .error .exhausted →
      (watched n).Offers f m (fun v => v.isCallable)
        (.ofStacked arguments (i.op == .methodCall)) →
      (∀ t ∈ trace (watched (n + 1)) f fuel limit executed ip m,
        t.contained (watched (n + 1)) f) →
      GivesUp (loop (engine (n + 1)) f fuel limit executed ip m).1 ∨
        Delivers (engine (n + 1)) f fuel limit executed ip m := by
  refine ⟨fun hcallee hpcall hdepth hserved hoffers hturns => ?_,
    fun ip i fuel limit executed hf hi hcalls hdepth hserved hoffers hturns => ?_⟩
  · have hsame := agrees_watched (n + 2) _ m hserved
    have hcontained := hostCall_contained (serves_watched n) hm hcallee hpcall hdepth hoffers hturns
    rw [hsame]
    simp only [watched] at hserved ⊢
    split at hserved
    · rw [if_pos ‹_›, outcome_callFunction]
      exact hcontained
    · exact (hserved rfl).elim
  · have hagrees := agrees_watched (n + 1)
    have hloop := refines_loop hagrees (le_refl fuel) f limit executed ip m hserved
    rw [hloop]
    exact (loop_contained (serves_watched n) hm hf hi hcalls hdepth hoffers hturns).imp_right
      fun h => h.congr hloop (trace_eq hagrees f fuel limit executed ip m hserved)

/-- A machine that is about to call a function under protection. The function calls nil. A second
native function asks for a call of nil. -/
def sheltered : Machine where
  code := { instructions := #[{ op := .preamble },
    { op := .literal, value := some .nil },
    { op := .call, number := 0 },
    { op := .ret, number := 1 },
    { op := .preamble },
    { op := .literal, value := some (.native ⟨0⟩) },
    { op := .literal, value := some (.closure ⟨0⟩) },
    { op := .call, number := 1 },
    { op := .ret, number := 1 }] }
  heap := {
    closures := #[{ entry := 0 }, { entry := 4 }]
    natives := #[{ name := "pcall", behavior := .builtin .pcall },
      { name := "t", behavior := .host (.tailCall (.value .nil) none none none none) }] }
  fibers := #[{
    values := #[.closure ⟨1⟩, .ofNat 0, .native ⟨0⟩, .closure ⟨0⟩]
    frames := #[{ entry := 4, base := 2, isEntry := true }], status := .main, owner := ⟨0⟩ }]

theorem sound_sheltered : Sound sheltered :=
  ⟨⟨by decide, rfl⟩, List.forall_mem_nil _⟩

theorem not_exhausted {r : Except Stop Value} (h : r.isOk = true) : r ≠ .error .exhausted := by
  rintro rfl
  cases h

theorem pcall_sheltered :
    Contained (engine 10 (.call (.native ⟨0⟩) [.closure ⟨0⟩]) sheltered).1 ∧
      (GivesUp (loop (engine 9) ⟨0⟩ 9 none 0 7 sheltered).1 ∨
        Delivers (engine 9) ⟨0⟩ 9 none 0 7 sheltered) := by
  have hheap : sheltered.heap.isPcall ⟨0⟩ := ⟨by decide, rfl⟩
  have hoffers {f : FiberId} {start : Machine} {p : Value → Prop} {method : Bool} :
      (watched 8).Offers f start p (.ofStacked [.closure ⟨0⟩] method) := fun g hg => by cases hg
  have hpcall := pcall_contained sound_sheltered 8 ⟨0⟩ ⟨0⟩ (.native ⟨0⟩) [.closure ⟨0⟩]
  refine ⟨hpcall.1 rfl hheap (by decide) (not_exhausted (by decide +kernel)) hoffers ?_,
    hpcall.2 7 { op := .call, number := 1 } 9 none 0 ⟨by decide, .inl rfl⟩ rfl
      ⟨.inl rfl, by decide, ⟨[.closure ⟨1⟩, .ofNat 0], .native ⟨0⟩, rfl, rfl⟩, hheap⟩ (by decide)
      (not_exhausted (by decide +kernel)) hoffers ?_⟩
  · exact List.all_eq_true.1 (by decide +kernel)
  · exact List.all_eq_true.1 (by decide +kernel)

/-- The function that asks for a call of nil raises an error before the protected call has a
frame. -/
theorem pcall_uncontained : Sound sheltered ∧ sheltered.heap.isPcall ⟨0⟩ ∧
    callTrace (watched 9) 9 (.native ⟨0⟩) [.native ⟨1⟩] sheltered = [] ∧
    ¬ Contained (engine 10 (.call (.native ⟨0⟩) [.native ⟨1⟩]) sheltered).1 := by
  have hrun : (match (engine 10 (.call (.native ⟨0⟩) [.native ⟨1⟩]) sheltered).1 with
      | .error s => s.isCatchable
      | .ok _ => false) = true := by decide +kernel
  refine ⟨sound_sheltered, ⟨by decide, rfl⟩, List.isEmpty_iff.1 (by decide +kernel), ?_⟩
  generalize (engine 10 (.call (.native ⟨0⟩) [.native ⟨1⟩]) sheltered).1 = result at hrun
  rintro (h | ⟨v, rfl, -⟩)
  · cases result with
    | ok v => cases hrun
    | error s => exact Bool.false_ne_true (h.symm.trans hrun)
  · cases hrun

end ScriptMachine
