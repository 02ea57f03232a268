import ScriptMachine.Proofs.Machine.VariableAccess

namespace ScriptMachine

open Exec Value

section Seeing

theorem Value.toScalar_idem : ∀ v : Value, v.toScalar.toScalar = v.toScalar
  | .tuple [] => rfl
  | .tuple (v :: _) => v.toScalar_idem
  | .nil | .bool _ | .number _ | .string _ | .table _ | .closure _ | .native _ | .coroutine _
  | .userdata _ | .yieldRequest .. | .tailCall _ => rfl

theorem Value.spread_concat (front : List Value) (v : Value) :
    spread (front ++ [v]) = front ++ v.toList := by
  induction front with
  | nil => rfl
  | cons w front ih =>
    cases front with
    | nil => rfl
    | cons _ _ => exact congrArg (w :: ·) ih

namespace Arguments

/-- The arguments from a position on, each as it is got by its number. -/
def getFrom (a : Arguments) (position : Nat) : List Value :=
  (List.range' position (a.length - position)).map a.get

/-- What a parameter stands for: the argument at its position, or for a variadic one the tuple of all
arguments from there on. -/
def parameter (a : Arguments) (position : Nat) (p : Symbol) : Value :=
  if p.name = variadicName then .tuple (a.getFrom position) else a.get position

variable (a : Arguments) (position : Nat)

theorem get_eq : a.get position = ((a.values[position]?).getD .nil).toScalar := by
  rw [get]
  cases a.values[position]? <;> rfl

theorem getFrom_eq : a.getFrom position = (a.values.drop position).map toScalar := by
  refine List.ext_getElem? fun j => ?_
  rw [getFrom, List.getElem?_map, List.getElem?_map, List.getElem?_drop, length]
  by_cases hj : j < a.values.length - position
  · have hlt : position + j < a.values.length := by omega
    rw [List.getElem?_range' hj, Nat.one_mul, Option.map_some, get_eq, List.getElem?_eq_getElem hlt]
    rfl
  · rw [List.getElem?_eq_none (by simpa using hj), List.getElem?_eq_none (by omega)]
    rfl

theorem parameter_eq (p : Symbol) : parameterValue a.values position p = a.parameter position p := by
  rw [parameterValue, parameter, getFrom_eq, get_eq]

/-- A tuple of the arguments from a position on, behind others, is all that is got after them. -/
theorem getFrom_forward (front : List Value) (method method' : Bool) (vs : List Value) :
    (ofStacked (front ++ [.tuple ((ofStacked vs method).getFrom position)]) method').getFrom 0 =
      front.map toScalar ++ ((ofStacked vs method).getFrom 0).drop position := by
  rw [getFrom_eq, getFrom_eq, getFrom_eq, List.drop_zero, List.drop_zero, ofStacked, spread_concat]
  have hidem : toScalar ∘ toScalar = toScalar := funext toScalar_idem
  simp [toList, hidem]

end Arguments

end Seeing

section Binding

variable {E : Engine} {m : Machine} {f : FiberId} {frame : Frame} {outer : List Frame} {vs : List Value}

/-- Parameters that are not to be closed, in slots of their own. -/
structure Parameters (ps : List Symbol) : Prop where
  plain : ∀ p ∈ ps, p.isToBeClosed = false
  distinct : (ps.map Symbol.index).Nodup

/-- Binding assigns one parameter after another, and each keeps what it got. -/
theorem Exec.assignLocals_apply (value : Nat → Symbol → Value) {ps : List Symbol} (hps : Parameters ps)
    (hcalls : (m.fiber f).calls = frame :: outer) (hhoused : frame.Housed m.heap) (k : Nat) :
    ∃ frame' m', ((ps.zipIdx k).forM fun (p, position) => assignLocal E f p (value position p)) m = (.ok (), m') ∧
      (m'.fiber f).calls = frame' :: outer ∧
      (∀ j p, ps[j]? = some p → frame'.localValue m'.heap p.index = value (k + j) p) ∧
      ∀ slot, slot ∉ ps.map Symbol.index → frame'.localValue m'.heap slot = frame.localValue m.heap slot := by
  induction ps generalizing m frame k with
  | nil => exact ⟨frame, m, rfl, hcalls, fun _ _ h => (nomatch h), fun _ _ => rfl⟩
  | cons p ps ih =>
    obtain ⟨hnew, hdistinct⟩ := List.nodup_cons.1 hps.distinct
    obtain ⟨frame₁, m₁, hassign, hassigned⟩ :=
      assignLocal_apply E hcalls hhoused (hps.plain p List.mem_cons_self) (value k p)
    obtain ⟨frame', m', hrest, hcalls', hvalues, hother⟩ := ih
      ⟨fun q hq => hps.plain q (List.mem_cons_of_mem _ hq), hdistinct⟩ hassigned.calls hassigned.housed (k + 1)
    refine ⟨frame', m', (bind_ok hassign).trans hrest, hcalls', fun j q hq => ?_, fun slot hslot => ?_⟩
    · cases j with
      | zero =>
        cases hq
        exact (hother _ hnew).trans hassigned.value
      | succ j => exact (hvalues j q hq).trans (by rw [Nat.add_right_comm, Nat.add_assoc])
    · rw [List.map_cons, List.mem_cons, not_or] at hslot
      exact (hother slot hslot.2).trans (hassigned.other slot hslot.1)

end Binding

section Forwarding

variable {E : Engine} {m m₁ m' : Machine} {f : FiberId} {c c' : Value} {vs vs' : List Value}
  {hops : List (Nat × List Value)} {outer : List Frame} {frame : Frame}

/-- The frame of a script function that is entered has received the values above the function. -/
theorem Machine.OnTop.received (h : m.OnTop f (c :: vs)) {id : ClosureId} (hc : c.toScalar = .closure id)
    {n : Nat} {setup : CallSetup} {r : Resumption}
    (hcall : performCall E f (n + 1) vs.length setup m = (.ok r, m₁)) :
    ∃ frame outer, (m₁.fiber f).calls = frame :: outer ∧ m₁.Received f frame vs := by
  rw [performCall_succ, bind_ok (h.resolveCallee_function (by rw [hc]; rfl))] at hcall
  obtain ⟨setup', m₂, hreplace, henter⟩ := bind_eq_ok hcall
  have htop : m₂.OnTop f (c :: vs) := by
    have := onTop_replaceFrame setup m h
    rwa [hreplace] at this
  obtain ⟨below, hbelow⟩ := htop.suffix
  have hsize := size_eq hbelow
  rw [enterCallee_apply] at henter
  split at henter
  · cases henter
  rw [htop.callee_eq, hc] at henter
  obtain ⟨-, rfl⟩ := Prod.mk.inj henter
  refine ⟨_, _, (htop.received_enter ?_).1, (htop.received_enter ?_).2⟩ <;> rfl

/-- Calls of which each passes on its variadic parameter, found at a position, behind other arguments
to the next. -/
inductive Forwards (f : FiberId) : Machine → Value → List Value → List (Nat × List Value) →
    Machine → Value → List Value → Prop
  | here {m : Machine} {c : Value} {vs : List Value} : Forwards f m c vs [] m c vs
  /-- A script function is entered, binds its parameters, and later loads the variadic one when the
  next function and the other arguments are on the stack. -/
  | on {E : Engine} {m m₁ m₂ m₃ m₄ m₅ m' : Machine} {c c' c'' : Value} {vs vs'' front : List Value}
      {id : ClosureId} {n fuel ip position : Nat} {setup : CallSetup} {r : Resumption} {i : Instruction}
      {p : Symbol} {frame₁ frame₂ frame₃ frame₄ : Frame} {outer₁ outer₂ outer₃ outer₄ : List Frame}
      {hops : List (Nat × List Value)}
      (hclosure : c.toScalar = .closure id) (hlow : vs.length < 2 ^ 53)
      (hcall : performCall E f (n + 1) vs.length setup m = (.ok r, m₁))
      (hframe₁ : (m₁.fiber f).calls = frame₁ :: outer₁) (hframe₂ : (m₂.fiber f).calls = frame₂ :: outer₂)
      (hbase : frame₂.base = frame₁.base) (hvalues : (m₂.fiber f).values = (m₁.fiber f).values)
      (hhoused : frame₂.Housed m₂.heap) (hparameters : Parameters i.symbolList)
      (hposition : i.symbolList[position]? = some p) (hname : p.name = variadicName)
      (hbind : bindArguments E f i m₂ = (.ok (), m₃)) (hframe₃ : (m₃.fiber f).calls = frame₃ :: outer₃)
      (hframe₄ : (m₄.fiber f).calls = frame₄ :: outer₄)
      (hkept : frame₄.localValue m₄.heap p.index = frame₃.localValue m₃.heap p.index)
      (hnext : m₄.OnTop f (c' :: front))
      (hload : execute E f fuel ip { op := .loadLocal, symbol := some p } m₄ = (.ok .next, m₅))
      (hrest : Forwards f m₅ c' (front ++ [frame₄.localValue m₄.heap p.index]) hops m' c'' vs'') :
      Forwards f m c vs ((position, front) :: hops) m' c'' vs''

/-- The arguments at the end of calls that pass on theirs from a position behind others. -/
def forwarded : List (Nat × List Value) → List Value → List Value
  | [], arguments => arguments
  | (position, front) :: hops, arguments =>
    forwarded hops (front.map toScalar ++ arguments.drop position)

theorem Exec.bindArguments_apply (hstacked : stackedArguments f m = (.ok vs, m)) (i : Instruction)
    (method : Bool) : bindArguments E f i m = (i.symbolList.zipIdx.forM fun (p, position) =>
      assignLocal E f p ((Arguments.ofStacked vs method).parameter position p)) m := by
  refine (bind_ok hstacked).trans ?_
  have hvalue : parameterValue (spread vs) = (Arguments.ofStacked vs method).parameter :=
    funext₂ (Arguments.ofStacked vs method).parameter_eq
  rw [hvalue]

/-- A script function finds in the slots of its parameters the arguments as a native function would
get them. -/
theorem Exec.bindArguments_binds {i : Instruction} (hcalls : (m.fiber f).calls = frame :: outer)
    (hhoused : frame.Housed m.heap) (hstacked : stackedArguments f m = (.ok vs, m))
    (hps : Parameters i.symbolList) (method : Bool) :
    ∃ frame' m', bindArguments E f i m = (.ok (), m') ∧ (m'.fiber f).calls = frame' :: outer ∧
      ∀ position p, i.symbolList[position]? = some p → frame'.localValue m'.heap p.index =
        (Arguments.ofStacked vs method).parameter position p := by
  obtain ⟨frame', m', hrun, hcalls', hvalues, -⟩ :=
    assignLocals_apply (E := E) (Arguments.ofStacked vs method).parameter hps hcalls hhoused 0
  refine ⟨frame', m', ?_, hcalls', fun position p hp => ?_⟩
  · rw [bindArguments_apply hstacked i method]
    exact hrun
  · rw [hvalues position p hp, Nat.zero_add]

theorem Machine.OnTop.load (h : m.OnTop f (c :: vs)) {fuel ip : Nat} {p : Symbol}
    (hcalls : (m.fiber f).calls = frame :: outer)
    (hload : execute E f fuel ip { op := .loadLocal, symbol := some p } m = (.ok .next, m')) :
    m'.OnTop f (c :: (vs ++ [frame.localValue m.heap p.index])) := by
  have hpush : execute E f fuel ip { op := .loadLocal, symbol := some p } m = (.ok .next,
      m.withFiber f fun b => { b with values := b.values.push (frame.localValue m.heap p.index) }) :=
    bind_ok (bind_ok (topFrame_apply hcalls))
  obtain ⟨-, rfl⟩ := Prod.mk.inj (hpush.symm.trans hload)
  refine ⟨m.present_withFiber h.index_lt, ?_⟩
  obtain ⟨below, hbelow⟩ := h.suffix
  rw [Machine.fiber_withFiber_self h.index_lt]
  exact ⟨below, by simp [← hbelow]⟩

/-- Functions of scripts and of the host get the same arguments. A function that passes on its
variadic parameter as the last argument passes on all it got from that position, also through any
number of calls. -/
theorem arguments_forwarded (h : m.OnTop f (c :: vs)) (hforwards : Forwards f m c vs hops m' c' vs') (method : Bool) :
    let a := Arguments.ofStacked vs' method
    m'.OnTop f (c' :: vs') ∧ a.getFrom 0 = forwarded hops ((Arguments.ofStacked vs method).getFrom 0) ∧
    (c'.toScalar.isCallable → (m'.fiber f).frames.size < m'.options.maxCallDepth → vs'.length < 2 ^ 53 →
      ∀ k n setup, m'.Gives k f n vs'.length setup a.values c'.toScalar) ∧
    ∀ E m, stackedArguments f m = (.ok vs', m) → ∀ i,
      bindArguments E f i m = (i.symbolList.zipIdx.forM fun (p, position) =>
        assignLocal E f p (a.parameter position p)) m ∧
      ∀ frame outer, (m.fiber f).calls = frame :: outer → frame.Housed m.heap → Parameters i.symbolList →
        ∃ frame' m', bindArguments E f i m = (.ok (), m') ∧ (m'.fiber f).calls = frame' :: outer ∧
          ∀ position p, i.symbolList[position]? = some p →
            frame'.localValue m'.heap p.index = a.parameter position p := by
  obtain ⟨htop, hseen⟩ : m'.OnTop f (c' :: vs') ∧ (Arguments.ofStacked vs' method).getFrom 0 =
      forwarded hops ((Arguments.ofStacked vs method).getFrom 0) := by
    induction hforwards with
    | here => exact ⟨h, rfl⟩
    | on hclosure hlow hcall hframe₁ hframe₂ hbase hvalues hhoused hps hposition hname hbind hframe₃ hframe₄
        hkept hnext hload _ ih =>
      obtain ⟨htop, hseen⟩ := ih (hnext.load hframe₄ hload)
      refine ⟨htop, hseen.trans (congrArg (forwarded _) ?_)⟩
      obtain ⟨frame, outer, hcalls, below, above, hstack, hheight⟩ := h.received hclosure hcall
      cases hcalls.symm.trans hframe₁
      rw [← hvalues] at hstack
      have hreceived : Machine.Received _ f _ _ := ⟨below, above, hstack, hbase.trans hheight⟩
      obtain ⟨_, _, hrun, hcalls', hbound⟩ := bindArguments_binds (E := _) hframe₂ hhoused
        (hreceived.stackedArguments_apply hframe₂ hlow) hps method
      obtain ⟨-, rfl⟩ := Prod.mk.inj (hrun.symm.trans hbind)
      cases hcalls'.symm.trans hframe₃
      rw [hkept, hbound _ _ hposition, Arguments.parameter, if_pos hname]
      exact Arguments.getFrom_forward _ _ _ _ _
  refine ⟨htop, hseen, fun hc hroom hlow k n setup => htop.gives hc hroom hlow k n setup,
    fun E m hstacked i => ⟨bindArguments_apply hstacked i method, fun frame outer hcalls hhoused hps =>
      bindArguments_binds hcalls hhoused hstacked hps method⟩⟩

/-- A function with a parameter in front of the variadic one passes on its second argument alone. -/
theorem arguments_forwarded_second : ∃ m m' c' vs', Forwards ⟨0⟩ m (.closure ⟨0⟩) [.nil, .bool true] [(1, [])]
      m' c' vs' ∧ (Arguments.ofStacked vs' false).getFrom 0 = [.bool true] := by
  let b : Fiber := { values := #[.closure ⟨0⟩, .nil, .bool true], status := .running, owner := ⟨0⟩ }
  let m : Machine := { fibers := #[b] }
  let i := Instruction.bindArguments [.localVar "a" 0 false false, .localVar variadicName 1 false false]
  let E : Engine := fun _ => throw .crash
  let m₁ := (enterCallee E ⟨0⟩ 0 2 (.byInstruction 0) m).2
  have htop : m.OnTop ⟨0⟩ (.closure ⟨0⟩ :: [.nil, .bool true]) := ⟨by decide, List.suffix_rfl⟩
  have hcall : performCall E ⟨0⟩ 1 2 (.byInstruction 0) m = (.ok (.jump 0), m₁) := by
    rw [performCall_succ]
    exact bind_ok (htop.resolveCallee_function rfl)
  obtain ⟨frame₁, outer₁, hcalls₁, hreceived⟩ := htop.received rfl hcall
  have hhoused : frame₁.Housed m₁.heap := Frame.housed_of_empty (by cases hcalls₁; rfl) _
  have hps : Parameters i.symbolList := ⟨by decide, by decide⟩
  obtain ⟨frame₃, m₃, hbind, hcalls₃, -⟩ := bindArguments_binds (E := E) hcalls₁ hhoused
    (hreceived.stackedArguments_apply hcalls₁ (by decide)) hps false
  let m₄ := m₃.withFiber ⟨0⟩ fun b => { b with values := b.values.push (.native ⟨0⟩) }
  have hcalls₄ : (m₄.fiber ⟨0⟩).calls = frame₃ :: outer₁ :=
    (Machine.fiber_withFiber_of (v := Fiber.calls) rfl _).trans hcalls₃
  have hnext : m₄.OnTop ⟨0⟩ [.native ⟨0⟩] := by
    have hlt := Machine.index_lt_of_calls hcalls₃
    refine ⟨m₃.present_withFiber hlt, (m₃.fiber ⟨0⟩).values.toList, ?_⟩
    rw [Machine.fiber_withFiber_self hlt, Array.toList_push]
  have hload : execute E ⟨0⟩ 0 0 { op := .loadLocal, symbol := i.symbolList[1]? } m₄ = (.ok .next, _) :=
    bind_ok (bind_ok (topFrame_apply hcalls₄))
  have hforwards : Forwards ⟨0⟩ m (.closure ⟨0⟩) [.nil, .bool true] [(1, [])] _ _ _ :=
    .on rfl (by decide) hcall hcalls₁ hcalls₁ rfl rfl hhoused hps rfl rfl hbind hcalls₃ hcalls₄ rfl hnext
      hload .here
  exact ⟨m, _, _, _, hforwards, (arguments_forwarded htop hforwards false).2.1⟩

end Forwarding

end ScriptMachine
