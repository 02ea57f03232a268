import ScriptMachine.Proofs.Machine.TailCalls

namespace ScriptMachine

open Exec Machine

/-- A call of a value goes on with handlers, each the call handler of the one before, down to a last
one. -/
inductive Heap.CallsVia (h : Heap) : Value → List Value → Value → Prop
  | here (c : Value) : CallsVia h c [] c
  | handler {c handler last : Value} {handlers : List Value} (hobject : c.toScalar.isCallable = false)
      (hhandler : h.metamethod? c.toScalar "__call" = some handler)
      (hrest : CallsVia h handler handlers last) : CallsVia h c (handler :: handlers) last

/-- These values are on top of the stack of a flow, the last one uppermost. -/
structure Machine.OnTop (m : Machine) (f : FiberId) (vs : List Value) : Prop where
  index_lt : f.index < m.fibers.size
  suffix : vs <:+ (m.fiber f).values.toList

/-- What is left of a call when a native function has answered. -/
def Exec.finishNative (E : Engine) (f : FiberId) (n : Nat) (setup : CallSetup)
    (calledFrom : Option Location) (slot : Nat) (v : Value) : Exec Resumption := do
  let v ← applyContinuation E f setup.handlers v calledFrom
  modifyFiber f fun b => { b with frames := b.frames.pop, values := (b.values.shrink slot).push v }
  settle (performCall E f n) f setup.returnTo setup.isEntry

/-- A function gets exactly these arguments when it is entered: a native one is run with them, and a
script function binds its parameters to them. -/
def Machine.Gives (m : Machine) (k : Nat) (f : FiberId) (n argc : Nat) (setup : CallSetup)
    (arguments : List Value) : Value → Prop
  | .native id =>
    let calledFrom := setup.calledBy.bind m.code.locationAt
    let slot := (m.fiber f).values.size - argc - 1
    enterCallee (engine (k + 1)) f n argc setup m =
      (do
        let v ← invoke (engine k) id ⟨f, calledFrom⟩ ⟨arguments, setup.method⟩
        finishNative (engine (k + 1)) f n setup calledFrom slot v)
      (m.withFiber f fun b => { b with frames := b.frames.push (setup.nativeFrame id slot calledFrom) })
  | .closure id => ∃ m', enterCallee (engine (k + 1)) f n argc setup m =
      (.ok (.jump (m.heap.closure id).entry), m') ∧
      ∀ E i, bindArguments E f i m' = (i.symbolList.zipIdx.forM fun (s, position) =>
        assignLocal E f s (parameterValue arguments position s)) m'
  | _ => False

section Stacked

variable {m m' : Machine} {f : FiberId} {c handler : Value} {vs : List Value}

theorem insertIdx_length_append {α : Type} (below vs : List α) (a : α) :
    (below ++ vs).insertIdx below.length a = below ++ a :: vs := by
  induction below with
  | nil => rfl
  | cons b below ih => exact congrArg (b :: ·) ih

namespace Machine.OnTop

theorem size_eq {below : List Value} (hbelow : below ++ c :: vs = (m.fiber f).values.toList) :
    (m.fiber f).values.size = below.length + vs.length + 1 := by
  rw [← Array.length_toList, ← hbelow, List.length_append, List.length_cons, Nat.add_assoc]

theorem getD_eq {below : List Value} (hbelow : below ++ c :: vs = (m.fiber f).values.toList) :
    (m.fiber f).values.getD below.length .nil = c := by
  rw [Array.getD_eq_getD_getElem?, ← Array.getElem?_toList, ← hbelow,
    List.getElem?_append_right le_rfl, Nat.sub_self]
  rfl

variable (h : m.OnTop f (c :: vs))
include h

theorem peek_apply : peek f vs.length m = (.ok c, m) := by
  obtain ⟨below, hbelow⟩ := h.suffix
  have hsize := size_eq hbelow
  have hslot : (m.fiber f).values.size - 1 - vs.length = below.length := by omega
  rw [Exec.peek_eq, if_pos (by omega), hslot, getD_eq hbelow]

theorem callee_eq : m.callee f vs.length = c.toScalar := by
  obtain ⟨below, hbelow⟩ := h.suffix
  have hslot : (m.fiber f).values.size - vs.length - 1 = below.length := by
    rw [size_eq hbelow]
    omega
  rw [callee, hslot, getD_eq hbelow]

theorem arguments_eq : m.arguments f vs.length = vs := by
  obtain ⟨below, hbelow⟩ := h.suffix
  have hslot : (m.fiber f).values.size - vs.length - 1 = below.length := by
    rw [size_eq hbelow]
    omega
  rw [arguments, hslot, Array.toList_extract, ← hbelow]
  simp

theorem insert (handler : Value) : (m.withFiber f fun b => { b with
    values := b.values.insertIdxIfInBounds (b.values.size - vs.length - 1) handler }).OnTop f
      (handler :: c :: vs) := by
  obtain ⟨below, hbelow⟩ := h.suffix
  have hsize := size_eq hbelow
  have hslot : (m.fiber f).values.size - vs.length - 1 = below.length := by omega
  refine ⟨?_, below, ?_⟩
  · rw [withFiber, Array.size_modify]
    exact h.index_lt
  · rw [fiber_withFiber_self h.index_lt, hslot, Array.insertIdxIfInBounds, dif_pos (by omega),
      Array.toList_insertIdx, ← hbelow, insertIdx_length_append]

end Machine.OnTop

end Stacked

section Resolving

variable {m : Machine} {f : FiberId} {c handler last : Value} {vs handlers : List Value}
  {name : Option String} {chain : Nat}

namespace Machine.OnTop

variable (h : m.OnTop f (c :: vs))
include h

theorem resolveCallee_function (hc : c.toScalar.isCallable) :
    resolveCallee f name chain vs.length m = (.ok vs.length, m) := by
  rw [resolveCallee_eq, examineCallee, bind_ok h.peek_apply, if_pos hc]
  rfl

theorem resolveCallee_none (hc : c.toScalar.isCallable = false)
    (hnone : m.heap.metamethod? c.toScalar "__call" = none) :
    resolveCallee f name chain vs.length m =
      (.error (.fault (.complain (.call c.toScalar.typeName name))), m) := by
  have hmeta : metamethod? c.toScalar "__call" m = (.ok none, m) := hnone ▸ rfl
  rw [resolveCallee_eq, examineCallee, bind_ok h.peek_apply, if_neg (by rw [hc]; exact Bool.false_ne_true), bind_ok hmeta]
  rfl

theorem resolveCallee_zero (hc : c.toScalar.isCallable = false)
    (hhandler : m.heap.metamethod? c.toScalar "__call" = some handler) :
    resolveCallee f name 0 vs.length m = (.error (.fault (.complain .callChain)), m) := by
  have hmeta : metamethod? c.toScalar "__call" m = (.ok (some handler), m) := hhandler ▸ rfl
  rw [resolveCallee_eq, examineCallee, bind_ok h.peek_apply, if_neg (by rw [hc]; exact Bool.false_ne_true), bind_ok hmeta]
  rfl

theorem resolveCallee_succ (hc : c.toScalar.isCallable = false)
    (hhandler : m.heap.metamethod? c.toScalar "__call" = some handler) :
    resolveCallee f name (chain + 1) vs.length m =
      resolveCallee f name chain (vs.length + 1) (m.withFiber f fun b => { b with
        values := b.values.insertIdxIfInBounds (b.values.size - vs.length - 1) handler }) := by
  have hmeta : metamethod? c.toScalar "__call" m = (.ok (some handler), m) := hhandler ▸ rfl
  rw [resolveCallee_eq, examineCallee, bind_ok h.peek_apply, if_neg (by rw [hc]; exact Bool.false_ne_true), bind_ok hmeta]
  rfl

/-- As long as the chain may be, each handler in turn goes below the values that were there. -/
theorem resolveCallee_via (hvia : m.heap.CallsVia c handlers last) :
    ∃ values, let m₁ := m.withFiber f fun b => { b with values }
      m₁.OnTop f (last :: ((c :: handlers).dropLast.reverse ++ vs)) ∧
      ∀ name chain, resolveCallee f name (chain + handlers.length) vs.length m =
        resolveCallee f name chain ((c :: handlers).dropLast.reverse ++ vs).length m₁ := by
  induction handlers generalizing c m vs with
  | nil =>
    cases hvia
    refine ⟨(m.fiber f).values, ?_⟩
    rw [withFiber_eq_self rfl]
    exact ⟨h, fun _ _ => rfl⟩
  | cons handler handlers ih =>
    cases hvia with
    | handler hobject hhandler hrest =>
    obtain ⟨values, htop, hrun⟩ := ih (h.insert handler) hrest
    rw [withFiber_withFiber] at htop hrun
    have hlist : ((c :: handler :: handlers).dropLast.reverse ++ vs) =
        (handler :: handlers).dropLast.reverse ++ c :: vs := by
      rw [List.dropLast_cons_cons, List.reverse_cons, List.append_assoc, List.singleton_append]
    rw [hlist]
    refine ⟨values, htop, fun name chain => ?_⟩
    rw [List.length_cons, ← Nat.add_assoc, h.resolveCallee_succ hobject hhandler]
    exact hrun name chain

end Machine.OnTop

theorem Heap.CallsVia.cut {h : Heap} (hvia : h.CallsVia c handlers last) {n : Nat}
    (hn : n < handlers.length) : ∃ taken c' handler, taken.length = n ∧ h.CallsVia c taken c' ∧
      c'.toScalar.isCallable = false ∧ h.metamethod? c'.toScalar "__call" = some handler := by
  induction hvia generalizing n with
  | here c => cases hn
  | @handler c handler last handlers hobject hhandler _ ih =>
    cases n with
    | zero => exact ⟨[], c, handler, rfl, .here c, hobject, hhandler⟩
    | succ n =>
      obtain ⟨taken, c', next, hlength, htaken, hnext⟩ := ih (Nat.lt_of_succ_lt_succ hn)
      exact ⟨handler :: taken, c', next, congrArg (· + 1) hlength, .handler hobject hhandler htaken, hnext⟩

theorem Heap.CallsVia.trans {h : Heap} {c' : Value} {handlers' : List Value}
    (hvia : h.CallsVia c handlers c') (hvia' : h.CallsVia c' handlers' last) :
    h.CallsVia c (handlers ++ handlers') last := by
  induction hvia with
  | here _ => exact hvia'
  | handler hobject hhandler _ ih => exact .handler hobject hhandler (ih hvia')

theorem Heap.CallsVia.exists_of_cycle {h : Heap} (hvia : h.CallsVia c handlers last)
    {round : List Value} (hround : h.CallsVia last round last) (hne : round ≠ []) (n : Nat) :
    ∃ long, n ≤ long.length ∧ h.CallsVia c long last := by
  induction n with
  | zero => exact ⟨handlers, Nat.zero_le _, hvia⟩
  | succ n ih =>
    obtain ⟨long, hlength, hlong⟩ := ih
    refine ⟨long ++ round, ?_, hlong.trans hround⟩
    have hround := List.length_pos_iff.2 hne
    rw [List.length_append]
    omega

theorem resolveCallee_long (h : m.OnTop f (c :: vs)) (hvia : m.heap.CallsVia c handlers last)
    (hlong : chain < handlers.length) :
    (resolveCallee f name chain vs.length m).1 = .error (.fault (.complain .callChain)) := by
  obtain ⟨taken, c', handler, hlength, htaken, hobject, hhandler⟩ := hvia.cut hlong
  obtain ⟨values, htop, hrun⟩ := h.resolveCallee_via htaken
  have hzero := hrun name 0
  rw [hlength, Nat.zero_add, htop.resolveCallee_zero hobject hhandler] at hzero
  rw [hzero]

end Resolving

section Giving

variable {m m' : Machine} {f : FiberId} {c : Value} {vs : List Value} {setup setup' : CallSetup}

theorem Machine.present_withFiber {g : Fiber → Fiber} (h : f.index < m.fibers.size) :
    f.index < (m.withFiber f g).fibers.size := by
  rwa [withFiber, Array.size_modify]

theorem present_popArguments : Triple (fun m => f.index < m.fibers.size) (popArguments f)
    (fun _ m => f.index < m.fibers.size) (fun _ _ => True) := by
  have hpop : Triple (fun m => f.index < m.fibers.size) (pop f)
      (fun _ m => f.index < m.fibers.size) (fun _ _ => True) := by
    refine .bind (Q := fun _ m => f.index < m.fibers.size) (.read fun _ h => h) fun v? => ?_
    cases v? with
    | none => exact .throw fun _ _ => trivial
    | some v => exact .bind (.modifyFiber fun m hm => m.present_withFiber hm) fun _ => .pure fun _ h => h
  refine .bind hpop fun v => ?_
  cases v with
  | number x =>
    refine .ite (fun _ => .ite (fun _ => ?_) fun _ => .throw fun _ _ => trivial)
      fun _ => .throw fun _ _ => trivial
    exact .bind (Q := fun _ m => f.index < m.fibers.size) (.read fun _ h => h) fun _ =>
      .ite (fun _ => .throw fun _ _ => trivial)
        fun _ => .modifyFiber fun m hm => m.present_withFiber hm
  | _ => exact .throw fun _ _ => trivial

theorem onTop_replaceFrame (setup : CallSetup) : Triple (fun m => m.OnTop f (c :: vs)) (replaceFrame f vs.length setup)
    (fun _ m => m.OnTop f (c :: vs)) (fun _ _ => True) := by
  refine .bind (Q := fun _ m => m.OnTop f (c :: vs)) (.read fun _ h => h) fun b =>
    .ite (fun _ => ?_) fun _ => .pure fun _ h => h
  refine .bind (Q := fun moved m => moved = c :: vs ∧ f.index < m.fibers.size) (fun m h => ?_)
    fun moved => .given fun hmoved => ?_
  · obtain ⟨below, hbelow⟩ := h.suffix
    have hsize := OnTop.size_eq hbelow
    rw [popMany_eq, if_neg (by omega)]
    refine ⟨?_, m.present_withFiber h.index_lt⟩
    have hslot : (m.fiber f).values.size - (vs.length + 1) = below.length := by omega
    rw [hslot, Array.toList_extract, ← Array.length_toList, ← hbelow]
    simp
  · subst hmoved
    refine .bind (Q := fun _ m => f.index < m.fibers.size) (fun m hm => ?_) fun frame =>
      .bind present_popArguments fun _ => .bind (Q := fun _ m => m.OnTop f (c :: vs))
        (.modifyFiber fun m hm => ⟨m.present_withFiber hm, ?_⟩) fun _ => .pure fun _ h => h
    · cases hcalls : (m.fiber f).calls with
      | nil =>
        obtain ⟨message, htop⟩ := topFrame_nil hcalls
        rw [popFrame, bind_error htop]
        trivial
      | cons frame outer =>
        rw [popFrame_apply hcalls]
        exact m.present_withFiber hm
    · rw [fiber_withFiber_self hm]
      dsimp only
      rw [Array.appendList_eq_append, Array.toList_appendList]
      exact List.suffix_append _ _

/-- The frame of a function has stacked arguments and their number below it. -/
def Machine.Received (m : Machine) (f : FiberId) (frame : Frame) (vs : List Value) : Prop :=
  ∃ below above, (m.fiber f).values.toList = below ++ vs ++ .ofNat vs.length :: above ∧
    frame.base = below.length + vs.length + 1

theorem Machine.Received.stackedArguments_apply {frame : Frame} (h : m.Received f frame vs)
    {outer : List Frame} (hcalls : (m.fiber f).calls = frame :: outer) (hlow : vs.length < 2 ^ 53) :
    stackedArguments f m = (.ok vs, m) := by
  obtain ⟨below, above, hvalues, hbase⟩ := h
  have hcount : readFiber f (fun b => if frame.base = 0 then none else b.values[frame.base - 1]?) m =
      (.ok (some (.number (.ofNat vs.length))), m) := by
    rw [readFiber_apply, if_neg (by omega), hbase, Nat.add_sub_cancel, ← Array.getElem?_toList, hvalues,
      ← List.length_append, List.getElem?_append_right le_rfl, Nat.sub_self]
    rfl
  rw [stackedArguments, bind_ok (topFrame_apply hcalls), bind_ok hcount]
  dsimp only
  rw [countOf_ofNat hlow, if_pos (by omega), readFiber_apply, hbase, Array.toList_extract, hvalues]
  simp

theorem Machine.OnTop.received_enter (h : m.OnTop f (c :: vs)) {frame : Frame}
    (hbase : frame.base = (m.fiber f).values.size - vs.length - 1 + vs.length + 2) :
    let m' := (m.withFiber f fun b => { b with values := b.values.push (.ofNat vs.length) }).withFiber f
      fun b => { b with frames := b.frames.push frame }
    (m'.fiber f).calls = frame :: (m.fiber f).calls ∧ m'.Received f frame vs := by
  intro m'
  obtain ⟨below, hbelow⟩ := h.suffix
  have hsize := size_eq hbelow
  have hfiber : m'.fiber f = { m.fiber f with
      values := (m.fiber f).values.push (.ofNat vs.length), frames := (m.fiber f).frames.push frame } := by
    rw [fiber_withFiber_self (m.present_withFiber h.index_lt),
      fiber_withFiber_self h.index_lt]
  refine ⟨?_, below ++ [c], [], ?_, ?_⟩
  · rw [hfiber]
    exact Fiber.calls_push _ _
  · rw [hfiber, Array.toList_push, ← hbelow]
    simp
  · rw [hbase, hsize, List.length_append, List.length_singleton]
    omega

/-- A function that is called is given the values above it, the last one spread. -/
theorem Machine.OnTop.gives (h : m.OnTop f (c :: vs)) (hc : c.toScalar.isCallable)
    (hroom : (m.fiber f).frames.size < m.options.maxCallDepth) (hlow : vs.length < 2 ^ 53)
    (k n : Nat) (setup : CallSetup) :
    m.Gives k f n vs.length setup (Value.spread vs) c.toScalar := by
  have henter (E : Engine) : enterCallee E f n vs.length setup m =
      enter E f n vs.length setup (setup.calledBy.bind m.code.locationAt)
        ((m.fiber f).values.size - vs.length - 1) c.toScalar m := by
    rw [enterCallee_apply, if_neg (by omega), h.callee_eq]
  cases hcallee : c.toScalar with
  | native id =>
    have harguments : ((m.fiber f).values.extract ((m.fiber f).values.size - vs.length - 1 + 1)
        ((m.fiber f).values.size - vs.length - 1 + 1 + vs.length)).toList = vs := h.arguments_eq
    rw [Gives, henter, hcallee, enter, bind_ok (readFiber_apply _ _ _), harguments]
    rfl
  | closure id =>
    rw [Gives, henter, hcallee]
    refine ⟨_, rfl, fun E i => ?_⟩
    refine bind_ok ((h.received_enter ?_).2.stackedArguments_apply (h.received_enter ?_).1 hlow) <;> rfl
  | _ =>
    rw [hcallee] at hc
    cases hc

theorem Value.spread_append_cons (front vs : List Value) (hc : ∀ items, c ≠ .tuple items) :
    Value.spread (front ++ c :: vs) = front ++ c.toScalar :: Value.spread vs := by
  have hscalar : c.toScalar = c := by
    cases c with
    | tuple items => exact absurd rfl (hc items)
    | _ => rfl
  rw [hscalar]
  induction front with
  | nil =>
    cases vs with
    | nil =>
      cases c with
      | tuple items => exact absurd rfl (hc items)
      | _ => rfl
    | cons v vs => rfl
  | cons v front ih =>
    cases front with
    | nil => exact congrArg (v :: ·) ih
    | cons w front => exact congrArg (v :: ·) ih

/-- A call of an object goes on to the last one in the chain of its call handlers, if that one is a
function and the chain is not too long. The function is given the object and all handlers between,
the last one first, in front of the arguments, and the last value of all is spread. Longer chains
and cycles, and chains to a value that cannot be called, are errors. -/
theorem call_passes_object_and_arguments {last : Value} {handlers : List Value}
    (h : m.OnTop f (c :: vs)) (hvia : m.heap.CallsVia c handlers last) (k n : Nat)
    (setup : CallSetup) :
    let given := (c :: handlers).dropLast.reverse ++ vs
    let call := performCall (engine (k + 1)) f (n + 1) vs.length setup
    (last.toScalar.isCallable → handlers.length ≤ maxCallChain → ∃ values,
      let m₁ := m.withFiber f fun b => { b with values }
      call m = (replaceFrame f given.length setup >>=
        enterCallee (engine (k + 1)) f n given.length) m₁ ∧
      ∀ setup' m₂, replaceFrame f given.length setup m₁ = (.ok setup', m₂) →
        (m₂.fiber f).frames.size < m₂.options.maxCallDepth → given.length < 2 ^ 53 →
          m₂.Gives k f n given.length setup' (Value.spread given) last.toScalar) ∧
    (handlers ≠ [] → (∀ items, c ≠ .tuple items) →
      Value.spread given = handlers.dropLast.reverse ++ c.toScalar :: Value.spread vs) ∧
    (maxCallChain < handlers.length ∨ (∃ round ≠ [], m.heap.CallsVia last round last) →
      (call m).1 = .error (.fault (.complain .callChain))) ∧
    (last.toScalar.isCallable = false → m.heap.metamethod? last.toScalar "__call" = none →
      handlers.length ≤ maxCallChain →
        (call m).1 = .error (.fault (.complain (.call last.toScalar.typeName setup.name)))) := by
  intro given call
  obtain ⟨values, htop, hresolve⟩ := h.resolveCallee_via hvia
  obtain ⟨m₁, hm₁⟩ : ∃ m₁, (m.withFiber f fun b => { b with values }) = m₁ := ⟨_, rfl⟩
  rw [hm₁] at htop hresolve
  have hcall : call = _ := performCall_succ (engine (k + 1)) f n vs.length setup
  have hchain (hle : handlers.length ≤ maxCallChain) :
      resolveCallee f setup.name maxCallChain vs.length m =
        resolveCallee f setup.name (maxCallChain - handlers.length) given.length m₁ := by
    rw [← hresolve, Nat.sub_add_cancel hle]
  refine ⟨fun hlast hle => ⟨values, ?_, fun setup' m₂ hreplace hroom hlow => ?_⟩,
    fun hne hc => ?_, fun hlong => ?_, fun hlast hnone hle => ?_⟩
  · rw [hm₁, hcall, bind_ok ((hchain hle).trans (htop.resolveCallee_function hlast))]
  · have htop₂ : m₂.OnTop f (last :: given) := by
      have hkept := onTop_replaceFrame setup m₁ htop
      rw [hm₁] at hreplace
      rwa [hreplace] at hkept
    exact htop₂.gives hlast hroom hlow k n setup'
  · obtain ⟨handler, handlers, rfl⟩ := List.exists_cons_of_ne_nil hne
    have hgiven : given = (handler :: handlers).dropLast.reverse ++ c :: vs := by
      simp [given, List.dropLast_cons_cons]
    rw [hgiven]
    exact Value.spread_append_cons _ _ hc
  · obtain ⟨long, hlength, hlong⟩ : ∃ long, maxCallChain < long.length ∧ m.heap.CallsVia c long last := by
      rcases hlong with hlong | ⟨round, hne, hround⟩
      · exact ⟨handlers, hlong, hvia⟩
      · exact hvia.exists_of_cycle hround hne (maxCallChain + 1)
    have hresolve : (resolveCallee f setup.name maxCallChain vs.length m).1 = _ :=
      resolveCallee_long h hlong hlength
    rcases hrun : resolveCallee f setup.name maxCallChain vs.length m with ⟨s | argc, m'⟩
    · rw [hrun] at hresolve
      rw [hcall, bind_error hrun]
      exact congrArg Except.error (Except.error.inj hresolve)
    · rw [hrun] at hresolve
      cases hresolve
  · rw [hcall, bind_error ((hchain hle).trans (htop.resolveCallee_none hlast (hm₁ ▸ hnone)))]

end Giving

theorem replaceFrame_of_outside {setup : CallSetup} (h : setup.returnTo = none) (f : FiberId)
    (argc : Nat) (m : Machine) : replaceFrame f argc setup m = (.ok setup, m) := by
  have hcan : canReplaceFrame f setup m = (.ok false, m) := by
    rw [canReplaceFrame_eq, h, Option.bind_none, Option.any_none, Bool.and_false]
  rw [replaceFrame, bind_ok hcan]
  rfl

/-- A machine that is about to call the values on its stack, with an object whose call handler answers
with its arguments. -/
def callingObject (values : Array Value) : Machine where
  heap := {
    tables := #[({} : Table).append (.string "__call") (.string "__call") (.native ⟨0⟩),
      { metatable := some ⟨0⟩ }]
    natives := #[{ name := "h", behavior := .host .arguments }] }
  fibers := #[{ values, frames := #[{ base := 0, isEntry := true }], status := .main, owner := ⟨0⟩ }]

/-- The handler of an object is given the object and an argument. -/
theorem call_passes_callingObject : ∃ values,
    let m₁ := (callingObject #[.table ⟨1⟩, .bool true]).withFiber ⟨0⟩ fun b => { b with values }
    performCall (engine 2) ⟨0⟩ 2 1 {} (callingObject #[.table ⟨1⟩, .bool true]) =
      enterCallee (engine 2) ⟨0⟩ 1 2 {} m₁ ∧
    m₁.Gives 1 ⟨0⟩ 1 2 {} [.table ⟨1⟩, .bool true] (.native ⟨0⟩) := by
  have hvia : (callingObject #[.table ⟨1⟩, .bool true]).heap.CallsVia (.table ⟨1⟩) [.native ⟨0⟩]
      (.native ⟨0⟩) := .handler rfl rfl (.here _)
  have htop : (callingObject #[.table ⟨1⟩, .bool true]).OnTop ⟨0⟩ [.table ⟨1⟩, .bool true] :=
    ⟨by decide, List.suffix_refl _⟩
  obtain ⟨hcall, -⟩ := call_passes_object_and_arguments htop hvia 1 1 {}
  obtain ⟨values, hrun, hgives⟩ := hcall rfl (by decide)
  have hreplace : replaceFrame ⟨0⟩ 2 {} _ = _ := replaceFrame_of_outside rfl ⟨0⟩ 2
    ((callingObject #[.table ⟨1⟩, .bool true]).withFiber ⟨0⟩ fun b => { b with values })
  have hroom : 1 < (callingObject #[]).options.maxCallDepth := by decide
  exact ⟨values, hrun.trans (bind_ok hreplace), hgives _ _ hreplace hroom (by decide)⟩

/-- A tuple that is called without arguments is spread, and its other items arrive at the handler as
well. -/
theorem call_spreads_tuple :
    ((performCall (engine 2) ⟨0⟩ 2 0 {} (callingObject #[.tuple [.table ⟨1⟩, .bool true]])).2.fiber
      ⟨0⟩).values = #[.tuple [.table ⟨1⟩, .bool true]] := by
  have htop : (callingObject #[.tuple [.table ⟨1⟩, .bool true]]).OnTop ⟨0⟩
      [.tuple [.table ⟨1⟩, .bool true]] := ⟨by decide, List.suffix_refl _⟩
  have hresolve : resolveCallee ⟨0⟩ none maxCallChain 0 _ = _ :=
    htop.resolveCallee_succ rfl rfl
  have hvalues : #[Value.tuple [.table ⟨1⟩, .bool true]].insertIdxIfInBounds 0 (.native ⟨0⟩) =
      #[.native ⟨0⟩, .tuple [.table ⟨1⟩, .bool true]] := by
    simp [Array.insertIdxIfInBounds]
  have hinsert : (callingObject #[.tuple [.table ⟨1⟩, .bool true]]).withFiber ⟨0⟩ (fun b => { b with
      values := b.values.insertIdxIfInBounds (b.values.size - 0 - 1) (.native ⟨0⟩) }) = _ :=
    congrArg callingObject hvalues
  rw [performCall_succ, bind_ok (hresolve.trans
    ((htop.insert (.native ⟨0⟩)).resolveCallee_function rfl)), bind_ok (replaceFrame_of_outside rfl _ _ _)]
  exact congrArg (fun m => ((enterCallee (engine 2) ⟨0⟩ 1 1 {} m).2.fiber ⟨0⟩).values) hinsert

end ScriptMachine
