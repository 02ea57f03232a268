import ScriptMachine.Proofs.Machine.FlatCalls

namespace ScriptMachine

open Exec

variable {m' m : Machine} {t : Turn} {f : FiberId} {argc : Nat}

/-- Serves native functions that do not call back and whose answer is not a request. Everything else
is stopped. -/
def plainly (s : Stop) : Engine
  | .invoke id site arguments method => do
    let v ← Exec.invoke (fun _ => throw s) id site (.ofStacked arguments method)
    if v.isRequest then throw s else return v
  | _ => throw s

section Plainly

variable {s : Stop}

theorem quiet_plainly : Quiet (plainly s) := by
  intro request
  cases request with
  | invoke id site arguments method =>
    exact .bind (undisturbed_invoke (fun _ => .throw s) site _ id) fun _ => .ite (.throw s) (.pure _)
  | _ => exact .throw s

theorem unasking_plainly : Unasking (plainly s) := by
  intro request m v m' h
  cases request with
  | invoke id site arguments method =>
    rcases hrun : Exec.invoke (fun _ => throw s) id site (.ofStacked arguments method) m with
      ⟨stop | v', m''⟩
    · rw [plainly, bind_error hrun] at h
      cases h
    · rw [plainly, bind_ok hrun] at h
      by_cases hv : v'.isRequest
      · rw [if_pos hv] at h
        cases h
      · rw [if_neg hv] at h
        cases h
        simpa using hv
  | _ => cases h

variable (hs : s.isCatchable = false)
include hs

theorem agree_throw (E : Engine) : (unlessStopped s).Agree (fun _ => throw s) E :=
  fun _ _ _ => ⟨trivial, fun _ => .inl ⟨s, rfl, hs, rfl⟩⟩

theorem plainly_served {request : Request} (h : (plainly s request m).1 ≠ .error s) (E : Engine)
    (n : Nat) : serve E n request m = plainly s request m := by
  cases request with
  | invoke id site arguments method =>
    have hsame := (Likeness.alike_invoke (agree_throw hs E) site (.ofStacked arguments method) id m
      trivial).eq_of_ne
    rcases hrun : Exec.invoke (fun _ => throw s) id site (.ofStacked arguments method) m with
      ⟨stop | v, m'⟩ <;> rw [hrun] at hsame
    · rw [plainly, bind_error hrun] at h ⊢
      exact hsame fun hstop => h (congrArg Except.error (Except.error.inj hstop))
    · rw [plainly, bind_ok hrun] at h ⊢
      by_cases hv : v.isRequest
      · rw [if_pos hv] at h
        exact (h rfl).elim
      · rw [if_neg hv]
        exact hsame nofun
  | _ => exact (h rfl).elim

theorem agree_plainly (n : Nat) : (unlessStopped s).Agree (plainly s) (engine (n + 1)) := by
  intro request m _
  refine ⟨trivial, fun _ => ?_⟩
  by_cases h : (plainly s request m).1 = .error s
  · exact .inl ⟨s, h, hs, rfl⟩
  · exact .inr (plainly_served hs h _ _)

end Plainly

section Turns

variable {s : Stop} (hs : s.isCatchable = false) {E E' : Engine}
  (hE : (unlessStopped s).Agree E E') {m : Machine} {n : Nat} {function : Value}
  {arguments : List Value} (hserved : (callFunction E n function arguments m).1 ≠ .error s)
include hE hserved

theorem hostCall_of_agree : hostCall E' m.currentFiber n function arguments (m.prepared m.currentFiber) =
    hostCall E m.currentFiber n function arguments (m.prepared m.currentFiber) := by
  rw [outcome_callFunction] at hserved
  exact ((Likeness.alike_hostCall hE (.inl rfl) function arguments).alike _ trivial).eq_of_ne hserved

theorem callFunction_of_agree :
    callFunction E' n function arguments m = callFunction E n function arguments m :=
  callFunction_congr E E' n m (hostCall_of_agree hE hserved)

include hs

/-- Unless a host call is stopped it goes through the same turns, and each of them ends in the same
way. -/
theorem turns_of_agree : turns E' n m (.call function arguments) = turns E n m (.call function arguments) ∧
    ∀ t ∈ turns E n m (.call function arguments), t.ends E' m.currentFiber = t.ends E m.currentFiber := by
  rw [outcome_callFunction] at hserved
  have hbegin := ((Likeness.alike_beginCall (f := m.currentFiber) hE (.inl (rfl : n = n)) function
    arguments).alike (m.prepared m.currentFiber) trivial).eq_of_ne
  rw [hostCall] at hserved
  simp only [turns]
  rcases hrun : beginCall E m.currentFiber n function arguments (m.prepared m.currentFiber) with
    ⟨stop | r, m'⟩ <;> rw [hrun] at hbegin
  · rw [bind_error hrun] at hserved
    rw [hbegin fun h => hserved (congrArg Except.error (Except.error.inj h))]
    exact ⟨rfl, List.forall_mem_nil _⟩
  · rw [bind_ok hrun] at hserved
    rw [hbegin (by simp)]
    cases r with
    | jump ip =>
      have hloop : (loop E m.currentFiber n (m'.fiber m.currentFiber).limit 0 ip m').1 ≠ .error s := by
        simp only [drive, runFrom] at hserved
        rw [bind_ok (budget_apply _ _)] at hserved
        exact hserved
      exact ⟨trace_of_agree hE _ _ _ _ _ _ hloop, fun t => ends_of_agree hs hE hloop⟩
    | done => exact ⟨rfl, List.forall_mem_nil _⟩
    | yielded => exact ⟨rfl, List.forall_mem_nil _⟩

end Turns

/-- A host call on an idle flow, in which all calls are in tail position, no frame has handlers or
anything to close, and native functions neither call back nor answer with requests. -/
structure TailCalling (n : Nat) (function : Value) (arguments : List Value) (m : Machine) : Prop where
  sound : Sound m
  idle : (m.fiber m.currentFiber).frames = #[]
  threshold : 0 < m.options.tailCallThreshold
  natives : ∃ s : Stop, s.isCatchable = false ∧
    (callFunction (plainly s) n function arguments m).1 ≠ .error s
  flat : ∀ t ∈ turns (engine n) n m (.call function arguments), t.Flat (engine n) m.currentFiber

theorem Turn.Flat.congr {E E' : Engine} (h : t.Flat E f) (hends : t.ends E f = t.ends E' f) :
    t.Flat E' f := by
  refine ⟨hends ▸ h.plain, fun i hi => ?_⟩
  have htail := h.tail i hi
  rw [MakesNoCall, hends] at htail
  exact htail

theorem hostCall_zero (E E' : Engine) (f : FiberId) (function : Value) (arguments : List Value)
    (m : Machine) : hostCall E' f 0 function arguments m = hostCall E f 0 function arguments m := rfl

namespace TailCalling

variable {n : Nat} {function : Value} {arguments : List Value} {m : Machine} {r : Request}

section Serving

variable (h : TailCalling (n + 1) function arguments m) {s : Stop} (hs : s.isCatchable = false)
  (hserved : (callFunction (plainly s) (n + 1) function arguments m).1 ≠ .error s)
include h hs hserved

theorem within_plainly {E' : Engine}
    (hsame : SameUpTo m.currentFiber (m.options.tailCallThreshold + 1) (plainly s) E') :
    callFunction E' (n + 1) function arguments m =
        callFunction (plainly s) (n + 1) function arguments m ∧
      ∀ t ∈ turns (engine (n + 1)) (n + 1) m (.call function arguments),
        t.Within m m.currentFiber m.options.tailCallThreshold := by
  obtain ⟨hturns, hends⟩ := turns_of_agree hs (agree_plainly hs n) hserved
  have hflat := h.flat
  rw [hturns] at hflat ⊢
  obtain ⟨hcall, hwithin⟩ := hostCall_within quiet_plainly unasking_plainly hsame h.sound h.idle
    h.threshold rfl function arguments fun t ht => (hflat t ht).congr (hends t ht)
  exact ⟨callFunction_congr _ _ _ m hcall, hwithin⟩

theorem plainly_of_asks
    (hasks : Asks (serve · (n + 1) (.call function arguments)) (engine (n + 1)) m r m') :
    (m'.fiber m.currentFiber).calls.length ≤ m.options.tailCallThreshold + 1 ∧
      (plainly s r m').1 ≠ .error s := by
  classical
  obtain ⟨E', honly, hne⟩ := hasks
  have hreal := callFunction_of_agree (agree_plainly hs n) hserved
  -- The engine that serves everything but this request plainly.
  obtain ⟨E₁, hhere, helsewhere⟩ : ∃ E₁ : Engine, E₁ r m' = E' r m' ∧
      ∀ r₁ m₁, ¬ (r₁ = r ∧ m₁ = m') → E₁ r₁ m₁ = plainly s r₁ m₁ :=
    ⟨fun r₁ m₁ => if r₁ = r ∧ m₁ = m' then E' r₁ m₁ else plainly s r₁ m₁, if_pos ⟨rfl, rfl⟩,
      fun _ _ hne => if_neg hne⟩
  have hagree : (unlessStopped s).Agree E₁ E' := by
    intro r₁ m₁ hm₁
    by_cases hat : r₁ = r ∧ m₁ = m'
    · obtain ⟨rfl, rfl⟩ := hat
      exact ⟨trivial, fun _ => .inr hhere.symm⟩
    · have hother := agree_plainly hs n r₁ m₁ hm₁
      have hE' : E' r₁ m₁ = engine (n + 1) r₁ m₁ := by
        by_contra hdiff
        exact hat (honly r₁ m₁ hdiff)
      refine ⟨trivial, fun hover => ?_⟩
      have hother := hother.2 hover
      rw [Likeness.SameAt] at hother ⊢
      rw [helsewhere _ _ hat]
      exact hother.imp_right hE'.trans
  have hdiffers : callFunction E₁ (n + 1) function arguments m ≠
      callFunction (plainly s) (n + 1) function arguments m := by
    intro hEq
    rw [← hEq] at hserved hreal
    exact hne ((callFunction_of_agree hagree hserved).trans hreal.symm)
  constructor
  · by_contra hdeep
    refine hdiffers (h.within_plainly hs hserved fun r₁ m₁ hm₁ => helsewhere _ _ ?_).1
    rintro ⟨-, rfl⟩
    exact hdeep hm₁
  · intro hstop
    have hlax : (unlessStopped s).Agree (plainly s) E₁ := by
      intro r₁ m₁ _
      refine ⟨trivial, fun _ => ?_⟩
      by_cases hat : r₁ = r ∧ m₁ = m'
      · obtain ⟨rfl, rfl⟩ := hat
        exact .inl ⟨s, hstop, hs, rfl⟩
      · exact .inr (helsewhere _ _ hat)
    exact hdiffers (callFunction_of_agree hlax hserved)

end Serving

section Requests

variable (h : TailCalling n function arguments m)
include h

theorem within_of_mem_turns (ht : t ∈ turns (engine n) n m (.call function arguments)) :
    t.Within m m.currentFiber m.options.tailCallThreshold := by
  cases n with
  | zero => cases ht
  | succ n =>
    obtain ⟨s, hs, hserved⟩ := h.natives
    have hsame : SameUpTo m.currentFiber (m.options.tailCallThreshold + 1) (plainly s) (plainly s) :=
      fun _ _ _ => rfl
    exact (h.within_plainly hs hserved hsame).2 t ht

theorem of_asks (hasks : Asks (serve · n (.call function arguments)) (engine n) m r m') :
    (m'.fiber m.currentFiber).calls.length ≤ m.options.tailCallThreshold + 1 ∧
      (∀ k r' m'', ¬ Asks (serve · k r) (engine k) m' r' m'') ∧ ∀ E k, turns E k m' r = [] := by
  cases n with
  | zero =>
    obtain ⟨E', -, hne⟩ := hasks
    exact (hne (callFunction_congr _ _ _ m (hostCall_zero _ _ _ _ _ _))).elim
  | succ n =>
    obtain ⟨s, hs, hserved⟩ := h.natives
    obtain ⟨hdepth, hplain⟩ := h.plainly_of_asks hs hserved hasks
    refine ⟨hdepth, fun k r' m'' ⟨E', _, hne⟩ => hne ?_, fun E k => ?_⟩
    · exact (plainly_served hs hplain E' k).trans (plainly_served hs hplain (engine k) k).symm
    · cases r with
      | invoke id site arguments method => rfl
      | _ => exact (hplain rfl).elim

theorem of_reached {k : Nat} (hr : Reached (n + 1) (· (.call function arguments)) m k r m') :
    k = n + 1 ∧ r = .call function arguments ∧ m' = m ∨
      k = n ∧ Asks (serve · n (.call function arguments)) (engine n) m r m' := by
  induction hr with
  | outer hasks =>
    obtain ⟨E', honly, hne⟩ := hasks
    obtain ⟨hr, hm⟩ := honly _ _ hne
    exact .inl ⟨rfl, hr.symm, hm.symm⟩
  | nested _ hasks ih =>
    obtain ⟨hk, rfl, rfl⟩ | ⟨rfl, houter⟩ := ih
    · cases hk
      exact .inr ⟨rfl, hasks⟩
    · exact ((h.of_asks houter).2.1 _ _ _ hasks).elim

/-- However many calls are made, user code runs on top of few frames. -/
theorem depth_of_userCode (hrun : UserCode (n + 1) (· (.call function arguments)) m m') :
    (m'.fiber m.currentFiber).frames.size ≤ m.options.tailCallThreshold + 1 := by
  rw [Fiber.size_frames]
  have hidle : (m.fiber m.currentFiber).calls = [] := by simp [Fiber.calls, h.idle]
  cases hrun with
  | request hr =>
    obtain ⟨-, -, rfl⟩ | ⟨-, hasks⟩ := h.of_reached hr
    · rw [hidle]
      exact Nat.zero_le _
    · exact (h.of_asks hasks).1
  | turn hr ht =>
    obtain ⟨hk, rfl, rfl⟩ | ⟨rfl, hasks⟩ := h.of_reached hr
    · cases hk
      obtain ⟨-, own, -, hlen, hsits⟩ := h.within_of_mem_turns ht
      rw [Footing.calls_bare hsits]
      exact hlen
    · rw [(h.of_asks hasks).2.2] at ht
      cases ht

end Requests

end TailCalling

/-- A call comes to look at the depth of the stack, and whatever serves requests, it is raised there
that the stack overflows. -/
def Exec.Overflows (f : FiberId) (argc : Nat) (setup : CallSetup) (m : Machine) : Prop :=
  ∃ p m', approach f argc setup m = (.ok p, m') ∧
    ∀ E n, enterCallee E f n p.1 p.2 m' = (.error (.fault (.complain .stackOverflow)), m')

theorem not_overflows {setup : CallSetup} (h : ∀ p m', approach f argc setup m = (.ok p, m') →
      (m'.fiber f).frames.size < m'.options.maxCallDepth) : ¬ Overflows f argc setup m := by
  rintro ⟨p, m', hrun, hraised⟩
  have hraised := hraised (fun _ => throw .crash) 0
  rw [enterCallee_apply, if_neg (Nat.not_le_of_lt (h p m' hrun))] at hraised
  cases hcallee : m'.callee f p.1 <;> rw [hcallee] at hraised <;> cases (Prod.mk.inj hraised).1

namespace TailCalling

variable {n : Nat} {function : Value} {arguments : List Value} {m : Machine}
  (h : TailCalling n function arguments m)
  (hroom : m.options.tailCallThreshold < m.options.maxCallDepth)
include h hroom

omit h in
theorem room_of_ready {own : List Frame} (hready : (m.bare m.currentFiber).Ready own argc m')
    (hlen : own.length ≤ m.options.tailCallThreshold) :
    (m'.fiber m.currentFiber).frames.size < m'.options.maxCallDepth := by
  have hoptions : m'.options = m.options :=
    hready.alone.keeps.options.trans (Machine.options_prepared m m.currentFiber)
  have hcalls : (m'.fiber m.currentFiber).calls = own := Footing.calls_bare hready
  rw [Fiber.size_frames, hcalls, hoptions]
  omega

theorem called_not_overflows : ¬ Overflows m.currentFiber arguments.length { isEntry := true }
    (m.called function arguments) := by
  refine not_overflows fun p m' hrun => ?_
  obtain ⟨-, own, hlen, hready⟩ := approach_called h.sound h.idle function arguments hrun
  exact room_of_ready hroom hready (hlen.trans (Nat.zero_le _))

theorem turn_not_overflows (ht : t ∈ turns (engine n) n m (.call function arguments))
    {i : Instruction} (hi : t.machine.code.get? t.ip = some i) (hcall : i.isCall) :
    ¬ Overflows m.currentFiber i.count (i.callSetup t.ip)
      (listening m.currentFiber t.ip i t.machine).2 := by
  refine not_overflows fun p m' hrun => ?_
  have hflat := h.flat t ht
  obtain ⟨hlimit, own, hopen, hlen, hsits⟩ := h.within_of_mem_turns ht
  obtain ⟨fuel, limit, executed, ip, machine⟩ := t
  cases hlimit
  obtain ⟨-, own', hlen', hready⟩ := approach_tail hsits hopen hlen h.threshold rfl hflat hi hcall
    ((observes_listening m.currentFiber ip i).aside.undisturbed machine) hrun
  exact room_of_ready hroom hready hlen'

end TailCalling

open Session Operation

/-- The depth of calls. Under fixed options no stack ever has more frames than it may hold. If all
calls of a host call are in tail position, then its stack never has more than one frame above the
threshold, and where that many fit it is never raised that the stack overflows. -/
theorem call_depth_bounded (n : Nat) :
    (∀ o m, m.Shallow o → ∀ ops op, (∀ op' ∈ op :: ops, op'.Modest) →
      (runAll n ops m).Shallow o ∧ (op.run (engine n) (runAll n ops m)).2.Shallow o ∧
        ∀ m', UserCode n (op.run ·) (runAll n ops m) m' → m'.Shallow o) ∧
    ∀ function arguments m, TailCalling n function arguments m →
      (∀ m', UserCode (n + 1) (· (.call function arguments)) m m' →
        (m'.fiber m.currentFiber).frames.size ≤ m.options.tailCallThreshold + 1) ∧
      (m.options.tailCallThreshold < m.options.maxCallDepth →
        ¬ Overflows m.currentFiber arguments.length { isEntry := true } (m.called function arguments) ∧
        ∀ t ∈ turns (engine n) n m (.call function arguments), ∀ i,
          t.machine.code.get? t.ip = some i → i.isCall →
            ¬ Overflows m.currentFiber i.count (i.callSetup t.ip)
              (listening m.currentFiber t.ip i t.machine).2) := by
  refine ⟨fun o m hm ops op hops => ?_, fun function arguments m h =>
    ⟨fun _ => h.depth_of_userCode, fun hroom => ⟨h.called_not_overflows hroom,
      fun _ ht _ hi hcall => h.turn_not_overflows hroom ht hi hcall⟩⟩⟩
  rw [List.forall_mem_cons] at hops
  have hstart := shallow_runAll hm n hops.2
  exact ⟨hstart, (bounded_run hops.1).shallow hstart n,
    fun _ => shallow_of_userCode (bounded_run hops.1) hstart⟩

/-- A machine whose function calls itself in tail position, without end. -/
def recursing : Machine where
  code := { instructions := #[{ op := .preamble },
    { op := .literal, value := some (.closure ⟨0⟩) },
    { op := .call, number := 0 },
    { op := .ret, number := 1 }] }
  options := { maxCallDepth := 2, tailCallThreshold := 1 }
  heap := { closures := #[{ entry := 0 }] }
  fibers := #[{ status := .main, owner := ⟨0⟩ }]

/-- A turn that either makes a call in tail position, or does nothing that could make one. -/
def Turn.isFlat (t : Turn) (E : Engine) (f : FiberId) : Bool :=
  (t.machine.fiber f).isPlain && ((t.ends E f).2.fiber f).isPlain &&
    (t.machine.code.get? t.ip).all fun i =>
      if i.isCall then (t.machine.code.get? (t.ip + 1)).any Instruction.returnsOne
      else (i.op == .preamble || i.op == .literal) &&
        decide (((t.ends E f).2.fiber f).calls.length ≤ (t.machine.fiber f).calls.length)

theorem Turn.flat_of_isFlat {E : Engine} (h : t.isFlat E f) : t.Flat E f := by
  rw [isFlat, Bool.and_eq_true, Bool.and_eq_true] at h
  refine ⟨h.1, fun i hi => ?_⟩
  have htail := h.2
  rw [hi, Option.all_some] at htail
  split_ifs at htail ⊢ with hcall
  · exact htail
  · rw [Bool.and_eq_true, Bool.or_eq_true, beq_iff_eq, beq_iff_eq, decide_eq_true_eq] at htail
    refine ⟨fun E' => ?_, htail.2⟩
    have hexecute : execute E' f t.fuel t.ip i = execute E f t.fuel t.ip i := by
      rcases htail.1 with hop | hop <;> simp only [execute, hop]
    have hread : read (fun m => m.code.get? t.ip) t.machine = (.ok (some i), t.machine) :=
      congrArg (Except.ok ·, t.machine) hi
    rw [ends, ends, step_eq, step_eq, bind_ok hread, bind_ok hread]
    dsimp only
    rw [hexecute]

theorem tailCalling_recursing : TailCalling 12 (.closure ⟨0⟩) [] recursing where
  sound := ⟨⟨by decide, rfl⟩, List.forall_mem_nil _⟩
  idle := rfl
  threshold := by decide
  natives := ⟨.crash, rfl, fun h => absurd (congrArg Ending.of h) (by decide +kernel)⟩
  flat := by
    have hall : (turns (engine 12) 12 recursing (.call (.closure ⟨0⟩) [])).all
        (·.isFlat (engine 12) ⟨0⟩) := by decide +kernel
    exact fun t ht => Turn.flat_of_isFlat (List.all_eq_true.1 hall t ht)

/-- That machine runs until it is stopped, on a stack that holds two frames. -/
theorem call_depth_recursing :
    ((callFunction (engine 12) 12 (.closure ⟨0⟩) [] recursing).1 matches .error .exhausted) = true ∧
    TailCalling 12 (.closure ⟨0⟩) [] recursing ∧ recursing.Shallow recursing.options ∧
    (∀ m', UserCode 13 (· (.call (.closure ⟨0⟩) [])) recursing m' →
      (m'.fiber ⟨0⟩).frames.size ≤ 2) ∧
    ¬ Overflows ⟨0⟩ 0 { isEntry := true } (recursing.called (.closure ⟨0⟩) []) ∧
    (∀ m', UserCode 12 (· (.call (.closure ⟨0⟩) [])) recursing m' → m'.Shallow recursing.options) := by
  have hshallow : recursing.Shallow recursing.options := by
    refine ⟨rfl, fun ⟨i⟩ => ?_⟩
    cases i <;> exact Nat.zero_le _
  have hbounded := call_depth_bounded 12
  obtain ⟨hflat, hroom⟩ := hbounded.2 _ _ _ tailCalling_recursing
  exact ⟨by decide +kernel, tailCalling_recursing, hshallow, hflat, (hroom (by decide)).1,
    (hbounded.1 _ _ hshallow [] (.call (.closure ⟨0⟩) []) (by simp [Operation.Modest])).2.2⟩

end ScriptMachine
