import ScriptMachine.Proofs.Machine.Balance
import ScriptMachine.Proofs.Machine.CallableObjects

namespace ScriptMachine

open Exec Machine

/-- What an access leaves of the stack once it has popped the object, and the key unless the
instruction holds it. -/
def Instruction.pending (i : Instruction) (values : Array Value) : Array Value :=
  if i.value.isSome then values.pop else values.pop.pop

/-- What the call of a handler comes to when it is on the stack with its arguments. -/
def Exec.enterHandler (E : Engine) (f : FiberId) (n ip argc : Nat) : Exec Flow := do
  let setup ← replaceFrame f argc (.byInstruction ip)
  return .transfer (← enterCallee E f n argc setup)

/-- Two stacks of one height are the same but for the place at a depth. -/
structure SameBut (depth : Nat) (values values' : Array Value) : Prop where
  size : values'.size = values.size
  other : ∀ j, j ≠ values.size - 1 - depth → values'[j]? = values[j]?

theorem sameBut_pop_push {values : Array Value} (h : 0 < values.size) (v : Value) :
    SameBut 0 values (values.pop.push v) := by
  refine ⟨?_, fun j hj => ?_⟩
  · rw [Array.size_push, Array.size_pop]
    omega
  · rw [Array.getElem?_push, Array.size_pop, if_neg (by omega), Array.getElem?_pop]
    split
    · rfl
    · rw [Array.getElem?_eq_none (by omega)]

section Popping

variable {m m' : Machine} {f : FiberId} {i : Instruction} {v : Value}

theorem Exec.bind_eq_ok {α β : Type} {x : Exec α} {g : α → Exec β} {b : β}
    (h : (x >>= g) m = (.ok b, m')) : ∃ a m₁, x m = (.ok a, m₁) ∧ g a m₁ = (.ok b, m') := by
  rcases hx : x m with ⟨s | a, m₁⟩
  · rw [bind_error hx] at h
    cases h
  · rw [bind_ok hx] at h
    exact ⟨a, m₁, rfl, h⟩

theorem Exec.Preserves.state_eq {α : Type} {x : Exec α} {r : Except Stop α} (hx : Preserves Eq x)
    (h : x m = (r, m')) : m' = m := (congrArg Prod.snd h).symm.trans (hx m).symm

theorem Exec.pop_eq_ok (h : pop f m = (.ok v, m')) :
    m' = m.withFiber f fun b => { b with values := b.values.pop } := by
  cases hv : (m.fiber f).values.back? with
  | none =>
    have hread : readFiber f (fun b => b.values.back?) m = (.ok none, m) := by
      rw [readFiber_apply, hv]
    rw [pop, bind_ok hread] at h
    cases h
  | some w =>
    rw [pop_apply hv] at h
    exact (congrArg Prod.snd h).symm

theorem Exec.popObjectAndKey_eq_ok {p : Value × Value} (h : popObjectAndKey f i m = (.ok p, m')) :
    m' = m.withFiber f fun b => { b with values := i.pending b.values } := by
  unfold popObjectAndKey at h
  unfold Instruction.pending
  cases hvalue : i.value with
  | none =>
    rw [hvalue] at h
    obtain ⟨key, m₁, hkey, h⟩ := bind_eq_ok h
    obtain ⟨object, m₂, hobject, h⟩ := bind_eq_ok h
    obtain rfl := pop_eq_ok hkey
    obtain rfl := pop_eq_ok hobject
    rw [withFiber_withFiber] at h
    exact (congrArg Prod.snd h).symm
  | some key =>
    rw [hvalue] at h
    obtain ⟨_, m₁, hkey, h⟩ := bind_eq_ok h
    obtain ⟨object, m₂, hobject, h⟩ := bind_eq_ok h
    obtain ⟨-, rfl⟩ := Prod.mk.inj hkey
    obtain rfl := pop_eq_ok hobject
    exact (congrArg Prod.snd h).symm

theorem Exec.storedValue_eq_ok (h : storedValue f i m = (.ok v, m')) :
    m' = m ∧ i.count < (m.fiber f).values.size := by
  obtain ⟨w, m₁, hpeek, hitem⟩ := bind_eq_ok h
  obtain rfl : m₁ = m := (congrArg Prod.snd hpeek).symm.trans (peek_state f i.count m)
  refine ⟨(congrArg Prod.snd hitem).symm, ?_⟩
  by_contra hge
  rw [peek_eq, if_neg hge] at hpeek
  cases hpeek

end Popping

section Storing

variable {E : Engine} {m m' : Machine} {f : FiberId} {fuel ip : Nat} {mode : Indexing}
  {object key v : Value} {flow : Flow}

theorem Exec.accessStep_state (object key : Value) (mode : Indexing) (event : String) :
    Preserves Eq (accessStep object key mode event) := by
  refine .bind (.read _) fun handler => ?_
  cases object with
  | table t =>
    refine .bind (.read _) fun _ => .ite (.pure _) ?_
    cases handler with
    | some handler => exact .pure _
    | none => exact .ite (.complain _) (.pure _)
  | _ =>
    cases handler with
    | some handler => exact .pure _
    | none => exact .complain _

theorem Exec.accessStep_table (hmode : mode ≠ .list) (t : TableId) (key : Value) (event : String)
    (m : Machine) : accessStep (.table t) key mode event m =
      (.ok (if ((m.heap.table t).get key).isNil then
        (m.heap.metamethod? (.table t) event).elim .here .via else .here), m) := by
  have hmeta : metamethod? (.table t) event m = (.ok (m.heap.metamethod? (.table t) event), m) := rfl
  have htable : table t m = (.ok (m.heap.table t), m) := rfl
  rw [accessStep, bind_ok hmeta]
  dsimp only
  rw [bind_ok htable]
  cases hnil : ((m.heap.table t).get key).isNil with
  | false =>
    rw [if_pos (by simp [hmode]), if_neg Bool.false_ne_true]
    rfl
  | true =>
    rw [if_neg (by simp), if_pos rfl]
    cases m.heap.metamethod? (.table t) event with
    | some handler => rfl
    | none =>
      dsimp only
      rw [if_neg hmode]
      rfl

theorem Exec.setIndex_eq_ok {t : TableId} (h : setIndex t key v m = (.ok (), m')) :
    m' = { m with heap := m.heap.modifyTable t fun t => t.insert key.toScalar v } := by
  obtain ⟨_, m₁, hcheck, hinsert⟩ := bind_eq_ok h
  obtain rfl : m₁ = m := Preserves.state_eq (.ofComplaint _) hcheck
  exact (congrArg Prod.snd hinsert).symm

/-- A store ends at a table, or goes on with a call in the place of the value on top. -/
theorem Exec.writeThrough_eq_ok {hops : Nat}
    (h : writeThrough E f fuel ip mode key v hops object m = (.ok flow, m')) :
    flow = .next ∧ m'.fibers = m.fibers ∨ ∃ handler object', handler.isCallable ∧
      callHandler E f fuel ip handler [object', key, v]
        (m.withFiber f fun b => { b with values := b.values.pop }) = (.ok flow, m') := by
  induction hops generalizing object with
  | zero => cases h
  | succ hops ih =>
    obtain ⟨access, m₁, haccess, hrest⟩ := bind_eq_ok h
    obtain rfl := (accessStep_state _ _ _ _).state_eq haccess
    cases access with
    | here =>
      cases object with
      | table t =>
        obtain ⟨_, m₂, hset, hnext⟩ := bind_eq_ok hrest
        obtain rfl := setIndex_eq_ok hset
        obtain ⟨hflow, rfl⟩ := Prod.mk.inj hnext
        exact .inl ⟨(Except.ok.inj hflow).symm, rfl⟩
      | _ => cases hrest
    | via handler =>
      dsimp only at hrest
      split at hrest
      · refine .inr ⟨handler, object, ‹_›, ?_⟩
        split at hrest
        · cases hrest
        · obtain ⟨_, m₂, hdiscard, hcall⟩ := bind_eq_ok hrest
          obtain ⟨top, m₃, hpop, hunit⟩ := bind_eq_ok (g := fun _ => pure ()) hdiscard
          obtain rfl := pop_eq_ok hpop
          obtain ⟨-, rfl⟩ := Prod.mk.inj hunit
          exact hcall
      · exact ih hrest

theorem Machine.index_lt_of_values {j : Nat} (h : j < (m.fiber f).values.size) :
    f.index < m.fibers.size := by
  by_contra hf
  rw [fiber, Array.getD_eq_getD_getElem?, Array.getElem?_eq_none (Nat.le_of_not_lt hf)] at h
  exact Nat.not_lt_zero _ h

theorem shrink_stacked (vs : Array Value) (callee : Value) (arguments : List Value) :
    ((vs.push callee).appendList arguments).shrink vs.size = vs := by
  refine shrink_eq_of_kept fun i hi => ?_
  rw [getElem?_appendList, Array.size_push, if_pos (by omega), Array.getElem?_push, if_neg (by omega)]

/-- The machine when a function and its arguments have been put on the stack. -/
def Machine.stacked (m : Machine) (f : FiberId) (callee : Value) (arguments : List Value) : Machine :=
  m.withFiber f fun b => { b with values := (b.values.push callee).appendList arguments }

theorem Machine.onTop_stacked (hf : f.index < m.fibers.size) (callee : Value) (arguments : List Value) :
    (m.stacked f callee arguments).OnTop f (callee :: arguments) := by
  refine ⟨m.present_withFiber hf, ?_⟩
  rw [stacked, fiber_withFiber_self hf]
  dsimp only
  rw [Array.appendList_eq_append, Array.toList_appendList, Array.toList_push, List.append_assoc]
  exact List.suffix_append _ _

theorem Machine.below_stacked (hf : f.index < m.fibers.size) (callee : Value) (arguments : List Value) :
    (m.stacked f callee arguments).below f arguments.length = (m.fiber f).values := by
  have hslot : (m.fiber f).values.size + 1 + arguments.length - arguments.length - 1 =
      (m.fiber f).values.size := by omega
  rw [below, stacked, fiber_withFiber_self hf]
  dsimp only
  rw [size_appendList, Array.size_push, hslot, shrink_stacked]

/-- A function as handler is called with the arguments above what is on the stack. -/
theorem Exec.callHandler_apply {handler : Value} (hf : f.index < m.fibers.size)
    (hcallable : handler.isCallable) (n : Nat) (arguments : List Value) :
    callHandler E f (n + 1) ip handler arguments m =
      enterHandler E f n ip arguments.length (m.stacked f handler arguments) := by
  have hscalar : handler.toScalar = handler := by
    cases handler with
    | tuple items => cases hcallable
    | _ => rfl
  have hresolve : resolveCallee f none maxCallChain arguments.length (m.stacked f handler arguments) =
      (.ok arguments.length, m.stacked f handler arguments) :=
    (onTop_stacked hf handler arguments).resolveCallee_function (by rwa [hscalar])
  have hperform : performCall E f (n + 1) arguments.length (.byInstruction ip)
      (m.stacked f handler arguments) = (replaceFrame f arguments.length (.byInstruction ip) >>=
        enterCallee E f n arguments.length) (m.stacked f handler arguments) := by
    rw [performCall_succ]
    exact bind_ok hresolve
  rw [callHandler, push, bind_ok (modifyFiber_apply _ _ _), pushAll, bind_ok (modifyFiber_apply _ _ _),
    withFiber_withFiber, enterHandler, ← bind_assoc, bind_apply, bind_apply, ← hperform]
  rfl

/-- A store that goes straight to a table leaves what is pending on the stack. One that goes through
a function leaves, when the function has come back, its result in the place of the value on top, and
everything else. -/
theorem store_leaves_pending_values {n : Nat} {i : Instruction} (hop : i.op = .setIndex mode)
    (hrun : execute E f (n + 1) ip i m = (.ok flow, m')) :
    let pending := i.pending (m.fiber f).values
    flow = .next ∧ (m'.fiber f).values = pending ∨
    ∃ handler object key v m₁, handler.isCallable ∧
      m₁ = (m.withFiber f fun b => { b with values := pending.pop }).stacked f handler [object, key, v] ∧
      enterHandler E f n ip 3 m₁ = (.ok flow, m') ∧
      ∀ result r m₂, result.isRequest = false →
        ComesBack E f 3 (.byInstruction ip) m₁ result r m₂ →
          r = .jump (ip + 1) ∧ (m₂.fiber f).calls = (m.fiber f).calls ∧
          (m₂.fiber f).values = pending.pop.push result ∧ SameBut 0 pending (m₂.fiber f).values := by
  intro pending
  have hexecute : execute E f (n + 1) ip i = setIndexed E f (n + 1) ip mode i := by
    unfold execute
    rw [hop]
  rw [hexecute] at hrun
  obtain ⟨⟨object, key⟩, m₁, hpop, hrest⟩ := bind_eq_ok hrun
  obtain ⟨v, m₂, hstored, hwrite⟩ := bind_eq_ok hrest
  obtain rfl := popObjectAndKey_eq_ok hpop
  obtain ⟨rfl, hdepth⟩ := storedValue_eq_ok hstored
  have hf : f.index < m.fibers.size := by
    have hlt := Machine.index_lt_of_values hdepth
    rwa [Machine.withFiber, Array.size_modify] at hlt
  rw [Machine.fiber_withFiber_self hf] at hdepth
  rcases writeThrough_eq_ok hwrite with ⟨hflow, hfibers⟩ | ⟨handler, object', hcallable, hcall⟩
  · refine .inl ⟨hflow, ?_⟩
    have hfiber : m'.fiber f = _ := congrArg (fun fibers => fibers.getD f.index default) hfibers
    rw [hfiber]
    exact congrArg Fiber.values (Machine.fiber_withFiber_self hf)
  · have hpopped : ((m.withFiber f fun b => { b with values := i.pending b.values }).withFiber f fun b =>
        { b with values := b.values.pop }) = m.withFiber f fun b => { b with values := pending.pop } := by
      rw [Machine.withFiber_withFiber]
      exact Machine.withFiber_congr rfl
    have hf₀ : f.index < (m.withFiber f fun b => { b with values := pending.pop }).fibers.size :=
      m.present_withFiber hf
    rw [hpopped, callHandler_apply hf₀ hcallable] at hcall
    refine .inr ⟨handler, object', key, v, _, hcallable, rfl, hcall, fun result r m₂ hresult hback => ?_⟩
    obtain ⟨hr, hcalls, hvalues⟩ := hback.stacks rfl hresult
    have hbelow := Machine.below_stacked hf₀ handler [object', key, v]
    rw [Machine.fiber_withFiber_self hf] at hbelow
    rw [show ([object', key, v].length) = 3 from rfl] at hbelow
    rw [hbelow] at hvalues
    refine ⟨hr, hcalls.trans ?_, hvalues, ?_⟩
    · rw [Machine.stacked, Machine.withFiber_withFiber, Machine.fiber_withFiber_self hf]
      rfl
    · rw [hvalues]
      exact sameBut_pop_push (Nat.zero_lt_of_lt hdepth) result

end Storing

/-- A machine with two pending values and, above them, an object whose handler for new keys is a
function. -/
def storing : Machine where
  heap := {
    tables := #[({} : Table).append (.string "__newindex") (.string "__newindex") (.native ⟨0⟩),
      { metatable := some ⟨0⟩ }]
    natives := #[{ name := "h", behavior := .host (.const .nil) }] }
  fibers := #[{
    values := #[.bool false, .bool true, .table ⟨1⟩]
    frames := #[{ base := 0, isEntry := true }], status := .main, owner := ⟨0⟩ }]

def storingLower : Instruction :=
  { op := .setIndex .plain, number := 1, value := some (.string "k") }

def stored : Machine := { storing with
  fibers := #[{
    values := #[.bool false, .nil]
    frames := #[{ base := 0, isEntry := true }], status := .main, owner := ⟨0⟩ }] }

theorem execute_storing :
    execute (engine 2) ⟨0⟩ 2 0 storingLower storing = (.ok (.transfer (.jump 1)), stored) := rfl

/-- The store goes through the handler. -/
theorem store_leaves_storing : ∃ handler object key v m₁, handler.isCallable ∧
    m₁ = (storing.withFiber ⟨0⟩ fun b => { b with values := #[.bool false] }).stacked ⟨0⟩ handler
      [object, key, v] ∧
    enterHandler (engine 2) ⟨0⟩ 1 0 3 m₁ = (.ok (.transfer (.jump 1)), stored) ∧
    ∀ result r m₂, result.isRequest = false →
      ComesBack (engine 2) ⟨0⟩ 3 (.byInstruction 0) m₁ result r m₂ →
        r = .jump 1 ∧ (m₂.fiber ⟨0⟩).values = #[.bool false, result] := by
  rcases store_leaves_pending_values (show storingLower.op = .setIndex .plain from rfl) execute_storing with
    ⟨hflow, -⟩ | ⟨handler, object, key, v, m₁, hcallable, hm₁, hcall, hback⟩
  · cases hflow
  · exact ⟨handler, object, key, v, m₁, hcallable, hm₁, hcall, fun result r m₂ hresult hcome =>
      ⟨(hback result r m₂ hresult hcome).1, (hback result r m₂ hresult hcome).2.2.1⟩⟩

/-- The result of the handler is in the place of a pending value other than the stored one. -/
theorem store_replaces_pending : ∃ m', execute (engine 2) ⟨0⟩ 2 0 storingLower storing =
      (.ok (.transfer (.jump 1)), m') ∧
    storingLower.pending (storing.fiber ⟨0⟩).values = #[.bool false, .bool true] ∧
    (m'.fiber ⟨0⟩).values = #[.bool false, .nil] ∧
    ¬SameBut storingLower.count #[.bool false, .bool true] (m'.fiber ⟨0⟩).values := by
  refine ⟨stored, execute_storing, rfl, rfl, fun h => ?_⟩
  have htop := h.other 1 (by decide)
  cases htop

end ScriptMachine
