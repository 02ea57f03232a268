import ScriptMachine.Code.Assembly
import ScriptMachine.Proofs.Chunk.Symbols
import ScriptMachine.Proofs.Machine.MirroredTables

namespace ScriptMachine

open Exec Machine Function

namespace Symbol

def root : Symbol → Symbol
  | global _ environment => environment.root
  | s => s

def isSlot : Symbol → Bool
  | localVar .. | upvalue .. => true
  | _ => false

theorem accessSize_eq (s : Symbol) : s.accessSize = min 2 (s.depth + 1) := by
  cases s with
  | global name environment => simp [accessSize, depth]
  | _ => rfl

end Symbol

section Emission

open Instruction

/-- What emitting an access to a variable gives: the size that is reported and the code with the
instructions behind it, or an internal fault. -/
def Code.Accesses (c : Code) (s : Symbol) : Except Fault (Nat × Code) → Prop
  | .ok (n, c') => s.root.isSlot = true ∧ n = min 2 (s.depth + 1) ∧
    ∃ is : List Instruction, c' = c.emitAll is ∧ is.length = s.depth + 1
  | .error e => s.root.isSlot = false ∧ ∃ text, e = .internal text

/-- The instructions of an access to a variable, or an internal fault. -/
def Symbol.Emits (s : Symbol) : Except Fault (List Instruction) → Prop
  | .ok is => s.root.isSlot = true ∧ is.length = s.depth + 1
  | .error e => s.root.isSlot = false ∧ ∃ text, e = .internal text

/-- A variable is loaded by one instruction for its root and one for each environment. -/
theorem Symbol.emits_load (s : Symbol) : s.Emits (load s) := by
  induction s with
  | localVar | upvalue => exact ⟨rfl, rfl⟩
  | defaultEnvironment => exact ⟨rfl, _, rfl⟩
  | global name environment ih =>
    rw [load]
    cases hload : load environment with
    | ok is =>
      rw [hload] at ih
      exact ⟨ih.1, List.length_append.trans (congrArg (· + 1) ih.2)⟩
    | error e =>
      rw [hload] at ih
      exact ih

theorem Symbol.emits_store (s : Symbol) (offset item : Int32) : s.Emits (store s offset item) := by
  cases s with
  | localVar | upvalue => exact ⟨rfl, rfl⟩
  | defaultEnvironment => exact ⟨rfl, _, rfl⟩
  | global name environment =>
    have henvironment := environment.emits_load
    rw [store]
    cases hload : load environment with
    | ok is =>
      rw [hload] at henvironment
      exact ⟨henvironment.1, List.length_append.trans (congrArg (· + 1) henvironment.2)⟩
    | error e =>
      rw [hload] at henvironment
      exact henvironment

variable {s : Symbol}

theorem Symbol.Emits.accesses {r : Except Fault (List Instruction)} (h : s.Emits r) (c : Code) :
    c.Accesses s (do return (s.accessSize, c.emitAll (← r))) := by
  cases r with
  | ok is => exact ⟨h.1, s.accessSize_eq, is, rfl, h.2⟩
  | error e => exact h

theorem Code.Accesses.code_answerResult {a : Assembly} {r : Except Fault (Nat × Code)}
    (h : a.code.Accesses s r) : ∃ is : List Instruction,
      (a.answerResult (r.map fun (n, c) => (some n, c))).code = a.code.emitAll is ∧
      is.length = if s.root.isSlot then s.depth + 1 else 0 := by
  cases r with
  | ok r =>
    obtain ⟨hslot, -, is, hcode, hlength⟩ := h
    exact ⟨is, hcode, by rw [hslot, hlength]; rfl⟩
  | error e => exact ⟨[], rfl, by rw [h.1]; rfl⟩

/-- Accesses to a variable are emitted exactly if it comes down to a local or an upvalue, and else
fail and add nothing. They add an instruction for each environment and one more, but the size that
is reported is never more than two. -/
theorem access_reports_size (a : Assembly) (s : Symbol) (offset item : Int32) :
    a.code.Accesses s (a.code.emitLoad s) ∧ a.code.Accesses s (a.code.emitStore s offset item) ∧
    (∃ is : List Instruction, (a.line (.load s)).code = a.code.emitAll is ∧
      is.length = if s.root.isSlot then s.depth + 1 else 0) ∧
    ∃ is : List Instruction, (a.line (.store s offset item)).code = a.code.emitAll is ∧
      is.length = if s.root.isSlot then s.depth + 1 else 0 := by
  have hload : a.code.Accesses s (a.code.emitLoad s) := s.emits_load.accesses a.code
  have hstore : a.code.Accesses s (a.code.emitStore s offset item) :=
    (s.emits_store offset item).accesses a.code
  refine ⟨hload, hstore, ?_, ?_⟩
  · rw [Assembly.line]
    exact hload.code_answerResult
  · rw [Assembly.line]
    exact hstore.code_answerResult

/-- The code for a field of a global has three instructions, and a size of two is reported. -/
theorem nested_access_underreported : ∃ c, ({} : Code).emitLoad
    (.global "y" (.global "x" (.upvalue environmentName 0))) = .ok (2, c) ∧ c.size = 3 := ⟨_, rfl, rfl⟩

end Emission

section Locals

namespace Frame

variable (frame : Frame) (slot : Nat)

theorem local?_reserve : (frame.reserve slot).local? = frame.local? := by
  funext j
  unfold reserve
  split
  · rfl
  · rw [local?, local?, Array.getElem?_append]
    split
    · rfl
    · rename_i hj
      rw [Array.getElem?_eq_none (Nat.le_of_not_lt hj), Array.getElem?_replicate]
      split <;> rfl

theorem lt_size_reserve : slot < (frame.reserve slot).locals.size := by
  unfold reserve
  split
  · assumption
  · rw [Array.size_append, Array.size_replicate]
    omega

theorem local?_setLocal (cell : Option CellId) (h : slot < frame.locals.size ∨ cell = none) :
    (frame.setLocal slot cell).local? = update frame.local? slot cell := by
  funext j
  rw [local?, setLocal, Array.getElem?_setIfInBounds]
  by_cases hj : j = slot
  · rw [if_pos hj.symm, hj, update_self]
    split
    · rfl
    · rename_i hlt
      rw [h.resolve_left hlt]
      rfl
  · rw [if_neg (Ne.symm hj), update_of_ne hj, local?]

/-- The cells in the slots of a frame exist, and each is in one slot only. -/
structure Housed (h : Heap) : Prop where
  present : ∀ i c, frame.local? i = some c → c.index < h.cells.size
  separate : ∀ i j c, frame.local? i = some c → frame.local? j = some c → i = j

theorem housed_of_empty {frame : Frame} (h : frame.locals = #[]) (heap : Heap) : frame.Housed heap := by
  have hnone (i : Nat) : frame.local? i = none := by rw [local?, h]; rfl
  exact ⟨fun i c hc => by simp [hnone] at hc, fun i j c hc => by simp [hnone] at hc⟩

end Frame

theorem Heap.cell_setCell (h : Heap) (c c' : CellId) (v : Value) (hc : c.index < h.cells.size) :
    (h.setCell c v).cell c' = if c' = c then v else h.cell c' := by
  rw [cell, setCell, Array.getD_eq_getD_getElem?, Array.getElem?_setIfInBounds]
  by_cases hEq : c' = c
  · rw [if_pos hEq, if_pos (congrArg _ hEq.symm), if_pos hc]
    rfl
  · rw [if_neg hEq, if_neg fun hindex => hEq (congrArg CellId.mk hindex.symm), cell,
      Array.getD_eq_getD_getElem?]

theorem Heap.cell_newCell (h : Heap) (v : Value) {c : CellId} (hc : c.index < h.cells.size) :
    (h.newCell v).2.cell c = h.cell c := by
  rw [cell, newCell, Array.getD_eq_getD_getElem?, Array.getElem?_push, if_neg (Nat.ne_of_lt hc), cell,
    Array.getD_eq_getD_getElem?]

variable {m : Machine} {f : FiberId} {frame : Frame} {outer : List Frame} {s : Symbol}

/-- A local of the top frame has been assigned. Nothing else has changed for the frame. -/
structure Assigned (f : FiberId) (frame : Frame) (outer : List Frame) (slot : Nat) (v : Value)
    (m : Machine) (frame' : Frame) (m' : Machine) : Prop where
  calls : (m'.fiber f).calls = frame' :: outer
  values : (m'.fiber f).values = (m.fiber f).values
  housed : frame'.Housed m'.heap
  value : frame'.localValue m'.heap slot = v
  other : ∀ j ≠ slot, frame'.localValue m'.heap j = frame.localValue m.heap j

/-- The slot of a local has a cell of its own, which gets the value. -/
theorem Frame.Housed.assigned (h : frame.Housed m.heap) {frame' : Frame} {m' : Machine} {slot : Nat}
    {cell : CellId} {heap : Heap} (v : Value) (hslots : frame'.local? = update frame.local? slot cell)
    (hcell : frame.local? slot = some cell ∧ heap = m.heap ∨
      cell.index = m.heap.cells.size ∧ heap = (m.heap.newCell .nil).2)
    (hheap : m'.heap = heap.setCell cell v) (hcalls : (m'.fiber f).calls = frame' :: outer)
    (hvalues : (m'.fiber f).values = (m.fiber f).values) : Assigned f frame outer slot v m frame' m' := by
  have hlt : cell.index < heap.cells.size ∧ m.heap.cells.size ≤ heap.cells.size := by
    rcases hcell with ⟨hcell, rfl⟩ | ⟨hcell, rfl⟩
    · exact ⟨h.present slot cell hcell, le_rfl⟩
    · simp [Heap.newCell, hcell]
  have hsize : m'.heap.cells.size = heap.cells.size := by rw [hheap, Heap.setCell, Array.size_setIfInBounds]
  have hne (j : Nat) (hj : j ≠ slot) (c : CellId) (hc : frame.local? j = some c) :
      c ≠ cell ∧ heap.cell c = m.heap.cell c := by
    have hpresent := h.present j c hc
    rcases hcell with ⟨hcell, rfl⟩ | ⟨hcell, rfl⟩
    · exact ⟨fun heq => hj (h.separate j slot cell (heq ▸ hc) hcell), rfl⟩
    · exact ⟨fun heq => by rw [heq] at hpresent; omega, Heap.cell_newCell _ _ hpresent⟩
  refine ⟨hcalls, hvalues, ⟨fun i c hc => ?_, fun i j c hi hj => ?_⟩, ?_, fun j hj => ?_⟩
  · rw [hslots] at hc
    rw [hsize]
    by_cases hi : i = slot
    · rw [hi, update_self] at hc
      exact Option.some.inj hc ▸ hlt.1
    · rw [update_of_ne hi] at hc
      exact (h.present i c hc).trans_le hlt.2
  · rw [hslots] at hi hj
    by_cases his : i = slot <;> by_cases hjs : j = slot
    · exact his.trans hjs.symm
    · rw [his, update_self] at hi
      rw [update_of_ne hjs] at hj
      exact absurd (Option.some.inj hi).symm (hne j hjs c hj).1
    · rw [hjs, update_self] at hj
      rw [update_of_ne his] at hi
      exact absurd (Option.some.inj hj).symm (hne i his c hi).1
    · rw [update_of_ne his] at hi
      rw [update_of_ne hjs] at hj
      exact h.separate i j c hi hj
  · rw [Frame.localValue, hslots, update_self, hheap]
    exact (Heap.cell_setCell _ _ _ _ hlt.1).trans (if_pos rfl)
  · rw [Frame.localValue, Frame.localValue, hslots, update_of_ne hj, hheap]
    cases hc : frame.local? j with
    | none => rfl
    | some c =>
      obtain ⟨hcell, heq⟩ := hne j hj c hc
      exact (Heap.cell_setCell _ _ _ _ hlt.1).trans ((if_neg hcell).trans heq)

theorem Exec.assignLocal_apply (E : Engine) (hcalls : (m.fiber f).calls = frame :: outer)
    (hhoused : frame.Housed m.heap) (hs : s.isToBeClosed = false) (v : Value) :
    ∃ frame' m', assignLocal E f s v m = (.ok (), m') ∧
      Assigned f frame outer s.index v m frame' m' := by
  have hreserved := calls_withTop hcalls (·.reserve s.index)
  have hvalues (m : Machine) (g : Frame → Frame) : ((m.withTop f g).fiber f).values = (m.fiber f).values :=
    fiber_withFiber_of (v := Fiber.values) rfl f
  have hassign : assignLocal E f s v m = (do writeCell (← localCell f s.index) v) m := by
    rw [assignLocal, hs]
    exact bind_ok (bind_ok (topFrame_apply hcalls))
  have hlocal : localCell f s.index m = _ :=
    (bind_ok (modifyFrame_apply _ _ _)).trans (bind_ok (topFrame_apply hreserved))
  rw [hassign]
  cases hcell : (frame.reserve s.index).local? s.index with
  | some cell =>
    rw [hcell] at hlocal
    rw [bind_ok hlocal]
    rw [Frame.local?_reserve] at hcell
    refine ⟨_, _, rfl, hhoused.assigned v ?_ (.inl ⟨hcell, rfl⟩) rfl hreserved (hvalues m _)⟩
    rw [Frame.local?_reserve, update_eq_self_iff.2 hcell.symm]
  | none =>
    rw [hcell] at hlocal
    rw [bind_ok hlocal]
    have hset := calls_withTop (m := { m.withTop f (·.reserve s.index) with
      heap := (m.heap.newCell .nil).2 }) hreserved (·.setLocal s.index (some ⟨m.heap.cells.size⟩))
    refine ⟨_, _, rfl, hhoused.assigned v ?_ (.inr ⟨rfl, rfl⟩) rfl hset ?_⟩
    · rw [Frame.local?_setLocal _ _ _ (.inl (frame.lt_size_reserve _)), Frame.local?_reserve]
      rfl
    · exact (hvalues _ _).trans (hvalues m _)

end Locals

/-- Instructions are executed one after another. -/
inductive Exec.Straight (E : Engine) (f : FiberId) (fuel : Nat) :
    Nat → List Instruction → Machine → Machine → Prop
  | done {ip : Nat} {m : Machine} : Straight E f fuel ip [] m m
  | next {ip : Nat} {i : Instruction} {is : List Instruction} {m m₁ m' : Machine}
      (hi : execute E f fuel ip i m = (.ok .next, m₁)) (hrest : Straight E f fuel (ip + 1) is m₁ m') :
      Straight E f fuel ip (i :: is) m m'

/-- An element of a tuple as a single value, nil if it is missing. Any other value is its own first
element. -/
def Value.element (v : Value) (n : Nat) : Value :=
  match v with
  | .tuple items => (items[n]?.map toScalar).getD .nil
  | v => if n = 0 then v else .nil

/-- The table without a metatable that a value is. -/
def Heap.plainTable? (h : Heap) (v : Value) : Option TableId :=
  match v.toScalar with
  | .table t => if (h.table t).metatable = none then some t else none
  | _ => none

/-- What a variable of a frame holds, if its environments are tables without metatables. -/
def Frame.valueOf? (frame : Frame) (h : Heap) : Symbol → Option Value
  | .localVar _ index _ _ => some (frame.localValue h index)
  | .upvalue _ index => frame.upvalues[index]?.map h.cell
  | .global name environment =>
    ((frame.valueOf? h environment).bind h.plainTable?).map fun t => (h.table t).get (.string name)
  | .defaultEnvironment => none

/-- The table that holds a global. -/
def Frame.homeOf? (frame : Frame) (h : Heap) (s : Symbol) : Option TableId :=
  s.environment?.bind fun environment => (frame.valueOf? h environment).bind h.plainTable?

/-- A variable that can be stored in: a local that is not to be closed, an upvalue that the frame has,
or a global in a table that is there. -/
def Frame.Stores (frame : Frame) (h : Heap) : Symbol → Prop
  | .localVar _ _ _ toBeClosed => toBeClosed = false
  | .upvalue _ index => ∃ c, frame.upvalues[index]? = some c ∧ c.index < h.cells.size
  | s@(.global ..) => ∃ t, frame.homeOf? h s = some t ∧ t.index < h.tables.size ∧ (h.table t).Indexed
  | .defaultEnvironment => False

section Running

open Instruction

variable {E : Engine} {f : FiberId} {fuel ip : Nat} {m m₁ m' : Machine} {frame : Frame} {outer : List Frame}
  {s : Symbol} {v : Value} {is : List Instruction} {i : Instruction}

theorem Exec.Straight.snoc (h : Straight E f fuel ip is m m₁)
    (hi : ∀ ip, execute E f fuel ip i m₁ = (.ok .next, m')) : Straight E f fuel ip (is ++ [i]) m m' := by
  induction h with
  | done => exact .next (hi _) .done
  | next h _ ih => exact .next h (ih hi)

theorem Heap.stopsAt_plain {h : Heap} {t : TableId} (ht : h.plainTable? v = some t) (key : Value) :
    v.toScalar = .table t ∧ h.StopsAt key t [] t := by
  unfold plainTable? at ht
  split at ht
  · rename_i hv
    split at ht
    · rename_i hmeta
      cases ht
      have hnone (event : String) : h.metamethod? (.table t) event = none := by
        rw [metamethod?, metatable?, hmeta]
        rfl
      exact ⟨hv, .here t, List.forall_mem_nil _, .inr ⟨hnone _, hnone _⟩⟩
    · cases ht
  · cases ht

theorem Exec.popObjectAndKey_loaded {name : String} (hf : f.index < m.fibers.size)
    (hi : i.value = some (.string name)) : popObjectAndKey f i (m.withFiber f fun b =>
      { b with values := b.values.push v }) = (.ok (v.toScalar, .string name), m) := by
  have hback : ((m.withFiber f fun b => { b with values := b.values.push v }).fiber f).values.back? =
      some v := by
    rw [fiber_withFiber_self hf]
    exact Array.back?_push
  have hsame : ((m.withFiber f fun b => { b with values := b.values.push v }).withFiber f fun b =>
      { b with values := b.values.pop }) = m := by
    rw [withFiber_withFiber]
    exact withFiber_eq_self (by simp [comp])
  have hpop := pop_apply hback
  rw [hsame] at hpop
  rw [popObjectAndKey, hi]
  exact bind_ok hpop

/-- The code that loads a variable pushes what it holds. -/
theorem Exec.straight_load (hcalls : (m.fiber f).calls = frame :: outer)
    (hv : frame.valueOf? m.heap s = some v) : ∃ is, load s = .ok is ∧ ∀ E fuel ip,
      Straight E f fuel ip is m (m.withFiber f fun b => { b with values := b.values.push v }) := by
  induction s generalizing v with
  | localVar name index constant toBeClosed =>
    refine ⟨_, rfl, fun E fuel ip => .next ?_ .done⟩
    cases hv
    exact bind_ok (bind_ok (topFrame_apply hcalls))
  | upvalue name index =>
    obtain ⟨c, hc, rfl⟩ := Option.map_eq_some_iff.1 hv
    refine ⟨_, rfl, fun E fuel ip => .next ?_ .done⟩
    have hload : loadUpvalue f { op := .loadUpvalue, symbol := some (.upvalue name index) } m =
        push f (m.heap.cell c) m := by
      refine (bind_ok (topFrame_apply hcalls)).trans ?_
      dsimp only [Symbol.index]
      rw [hc]
      rfl
    exact bind_ok hload
  | global name environment ih =>
    obtain ⟨t, hhome, rfl⟩ := Option.map_eq_some_iff.1 hv
    obtain ⟨w, hw, ht⟩ := Option.bind_eq_some_iff.1 hhome
    obtain ⟨hscalar, hstops⟩ := Heap.stopsAt_plain ht (.string name)
    obtain ⟨is, hload, hrun⟩ := ih hw
    refine ⟨is ++ [Instruction.getIndex .plain (some (.string name))], by rw [load, hload]; rfl,
      fun E fuel ip => (hrun E fuel ip).snoc fun ip => ?_⟩
    have hpop := popObjectAndKey_loaded (v := w) (index_lt_of_calls hcalls)
      (show (Instruction.getIndex .plain (some (.string name))).value = _ from rfl)
    rw [hscalar] at hpop
    exact (getIndex_apply rfl hpop).trans (readThrough_stopsAt (by decide) hstops (by decide))
  | defaultEnvironment => cases hv

theorem Exec.storedValue_apply (hi : i.count < (m.fiber f).values.size)
    (hv : (m.fiber f).values[(m.fiber f).values.size - 1 - i.count]? = some v) :
    storedValue f i m = (.ok (storedItem v i.count2), m) := by
  have hpeek : peek f i.count m = (.ok v, m) := by
    rw [peek_eq, if_pos hi, Array.getD_eq_getD_getElem?, hv]
    rfl
  exact bind_ok hpeek

/-- The code that stores in a variable leaves the stack as it was. The variable then holds the value,
if it is still the same one. -/
theorem Exec.straight_store (hcalls : (m.fiber f).calls = frame :: outer) (hhoused : frame.Housed m.heap)
    (hs : frame.Stores m.heap s) {offset item : Int32}
    (hsize : offset.toInt.toNat < (m.fiber f).values.size)
    (hv : (m.fiber f).values[(m.fiber f).values.size - 1 - offset.toInt.toNat]? = some v) :
    ∃ is frame' m', store s offset item = .ok is ∧ (∀ E fuel ip, Straight E f fuel ip is m m') ∧
      (m'.fiber f).calls = frame' :: outer ∧ (m'.fiber f).values = (m.fiber f).values ∧
      (frame'.homeOf? m'.heap s = frame.homeOf? m.heap s →
        frame'.valueOf? m'.heap s = some (storedItem v item.toInt.toNat)) := by
  cases s with
  | localVar name index constant toBeClosed =>
    obtain ⟨frame', m', hassign, hassigned⟩ := assignLocal_apply (fun _ => throw .crash) hcalls hhoused
      (s := .localVar name index constant toBeClosed) hs (storedItem v item.toInt.toNat)
    refine ⟨_, frame', m', rfl, fun E fuel ip => .next ?_ .done, hassigned.calls, hassigned.values,
      fun _ => congrArg some hassigned.value⟩
    have hsame : assignLocal E f (.localVar name index constant toBeClosed) (storedItem v item.toInt.toNat) m =
        (.ok (), m') := by
      rw [← hassign]
      unfold assignLocal
      rw [show Symbol.isToBeClosed (.localVar name index constant toBeClosed) = false from hs]
      rfl
    exact bind_ok ((bind_ok (storedValue_apply (i := { op := .storeLocal, number := offset, number2 := item })
      hsize hv)).trans hsame)
  | upvalue name index =>
    obtain ⟨c, hc, hlt⟩ := hs
    refine ⟨_, frame, { m with heap := m.heap.setCell c (storedItem v item.toInt.toNat) }, rfl,
      fun E fuel ip => .next ?_ .done, hcalls, rfl, fun _ => ?_⟩
    · let i : Instruction :=
        { op := .storeUpvalue, symbol := some (.upvalue name index), number := offset, number2 := item }
      have hstore : storeUpvalue f i m = writeCell c (storedItem v item.toInt.toNat) m := by
        refine (bind_ok (storedValue_apply (i := i) hsize hv)).trans ((bind_ok (topFrame_apply hcalls)).trans ?_)
        dsimp only [Symbol.index]
        rw [hc]
        rfl
      exact bind_ok hstore
    · rw [Frame.valueOf?, hc]
      exact congrArg some ((Heap.cell_setCell _ _ _ _ hlt).trans (if_pos rfl))
  | global name environment =>
    obtain ⟨t, hhome, hlt, hindexed⟩ := hs
    obtain ⟨w, hw, ht⟩ := Option.bind_eq_some_iff.1 (show (frame.valueOf? m.heap environment).bind _ = _ from hhome)
    obtain ⟨hscalar, hstops⟩ := Heap.stopsAt_plain ht (.string name)
    obtain ⟨is, hload, hrun⟩ := straight_load hcalls hw
    let i : Instruction :=
      { Instruction.setIndex .plain offset item (some (.string name)) with symbol := some (.global name environment) }
    let key : Value := .string name
    let v' := storedItem v item.toInt.toNat
    refine ⟨is ++ [i], frame, { m with heap := m.heap.modifyTable t fun t => t.insert key v' },
      by rw [store, hload]; rfl, fun E fuel ip => (hrun E fuel ip).snoc fun ip => ?_, hcalls, rfl, fun hsame => ?_⟩
    · have hpop := popObjectAndKey_loaded (v := w) (i := i) (index_lt_of_calls hcalls) rfl
      rw [hscalar] at hpop
      exact (setIndexed_apply rfl hpop (storedValue_apply (i := i) hsize hv)).trans
        (writeThrough_stopsAt (by decide) hstops (by decide) rfl)
    · rw [hhome] at hsame
      refine (congrArg (Option.map _) hsame).trans (congrArg some ?_)
      dsimp only
      rw [Heap.table_modifyTable_self hlt]
      exact (hindexed.get_insertEntry (a := key) (b := key) rfl rfl fun _ h => by cases h).trans (if_pos rfl)
  | defaultEnvironment => exact hs.elim

/-- Storing a value of the stack in a variable and then loading the variable pushes exactly the part
of the value that the store was to take. -/
theorem load_after_store (hcalls : (m.fiber f).calls = frame :: outer) (hhoused : frame.Housed m.heap)
    (hs : frame.Stores m.heap s) (offset item : Int32)
    (hsize : offset.toInt.toNat < (m.fiber f).values.size)
    (hv : (m.fiber f).values[(m.fiber f).values.size - 1 - offset.toInt.toNat]? = some v) :
    ∃ is js frame' m', store s offset item = .ok is ∧ load s = .ok js ∧
      (∀ E fuel ip, Straight E f fuel ip is m m') ∧
      (m'.fiber f).calls = frame' :: outer ∧ (m'.fiber f).values = (m.fiber f).values ∧
      (frame'.homeOf? m'.heap s = frame.homeOf? m.heap s → ∀ E fuel ip, Straight E f fuel ip js m'
        (m'.withFiber f fun b => { b with values := b.values.push (v.element item.toInt.toNat) })) := by
  have helement : storedItem v item.toInt.toNat = v.element item.toInt.toNat := by
    cases v with
    | tuple items =>
      change ((items[item.toInt.toNat]?).getD .nil).toScalar = _
      rw [Value.element]
      cases items[item.toInt.toNat]? <;> rfl
    | _ => rfl
  obtain ⟨is, frame', m', hstore, hrun, hcalls', hvalues, hholds⟩ := straight_store hcalls hhoused hs hsize hv
  have hslot : s.root.isSlot = true := by
    have hemits := s.emits_store offset item
    rw [hstore] at hemits
    exact hemits.1
  cases hload : load s with
  | error e =>
    have hemits := s.emits_load
    rw [hload] at hemits
    exact absurd hemits.1 (by simp [hslot])
  | ok js =>
    refine ⟨is, js, frame', m', hstore, rfl, hrun, hcalls', hvalues, fun hsame => ?_⟩
    obtain ⟨js', hload', hrun'⟩ := straight_load hcalls' (hholds hsame)
    obtain rfl := Except.ok.inj (hload.symm.trans hload')
    rwa [helement] at hrun'

/-- A tuple below the top of a stack, as it is found by a store at an offset of one. -/
theorem load_after_store_second : let s : Symbol := .localVar "x" 3 false false
    let values := #[.tuple [.nil, .bool true], .nil]
    let b : Fiber := { frames := #[{ base := 0 }], values, status := .running, owner := ⟨0⟩ }
    let m : Machine := { fibers := #[b] }
    ∃ is js m', store s 1 1 = .ok is ∧ load s = .ok js ∧ (∀ E fuel ip, Straight E ⟨0⟩ fuel ip is m m') ∧
      ∀ E fuel ip, Straight E ⟨0⟩ fuel ip js m'
        (m'.withFiber ⟨0⟩ fun b => { b with values := b.values.push (.bool true) }) := by
  intro s values b m
  obtain ⟨is, js, _, m', hstore, hload, hrun, -, -, hrun'⟩ :=
    load_after_store (m := m) (f := ⟨0⟩) (s := s) rfl (Frame.housed_of_empty rfl _) rfl 1 1 (by decide) rfl
  exact ⟨is, js, m', hstore, hload, hrun, hrun' rfl⟩

end Running

end ScriptMachine
