import ScriptMachine.Proofs.Machine.Effects

namespace ScriptMachine

variable {v : Value} {u : Frame → Frame}

def Value.isAtom : Value → Bool
  | .tuple _ | .yieldRequest _ _ | .tailCall _ => false
  | _ => true

/-- Which values may be where. -/
structure Discipline where
  /-- The values that may be on value stacks and in variables. -/
  Held : Value → Prop
  /-- The values that may be in tuples and in tables, and that may be raised. -/
  Part : Value → Prop
  part_of_isAtom {v : Value} : v.isAtom → Part v
  held_of_part {v : Value} : Part v → Held v
  held_tuple {vs : List Value} : Held (.tuple vs) ↔ ∀ v ∈ vs, Part v
  /-- A value that may be held may be a part, unless it is a tuple. -/
  part_of_held {v : Value} : Held v → (∀ vs, v ≠ .tuple vs) → Part v
  parts_of_held {items : List Value} {forced : Bool} :
    Held (.yieldRequest items forced) → ∀ v ∈ items, Part v

namespace Discipline

/-- The values that a call may end with: those that may be held, and requests. -/
def Answer (D : Discipline) : Value → Prop
  | .yieldRequest items _ => ∀ v ∈ items, D.Part v
  | .tailCall _ => True
  | v => D.Held v

/-- Requests may be held like other values. -/
def AdmitsRequests (D : Discipline) : Prop := ∀ v, D.Answer v → D.Held v

def AllHeld (D : Discipline) (vs : List Value) : Prop := ∀ v ∈ vs, D.Held v

def AllParts (D : Discipline) (vs : List Value) : Prop := ∀ v ∈ vs, D.Part v

section

variable {D : Discipline} {v : Value} {vs ws : List Value}

theorem allHeld_nil : D.AllHeld [] := List.forall_mem_nil _

theorem allHeld_cons : D.AllHeld (v :: vs) ↔ D.Held v ∧ D.AllHeld vs := List.forall_mem_cons

theorem allHeld_singleton : D.AllHeld [v] ↔ D.Held v := List.forall_mem_singleton

theorem allParts_cons : D.AllParts (v :: vs) ↔ D.Part v ∧ D.AllParts vs := List.forall_mem_cons

theorem allParts_singleton : D.AllParts [v] ↔ D.Part v := List.forall_mem_singleton

theorem AllHeld.drop (h : D.AllHeld vs) (n : Nat) : D.AllHeld (vs.drop n) :=
  fun v hv => h v (List.mem_of_mem_drop hv)

theorem AllParts.drop (h : D.AllParts vs) (n : Nat) : D.AllParts (vs.drop n) :=
  fun v hv => h v (List.mem_of_mem_drop hv)

theorem AllParts.append (h : D.AllParts vs) (h' : D.AllParts ws) : D.AllParts (vs ++ ws) :=
  fun v hv => (List.mem_append.1 hv).elim (h v) (h' v)

theorem held_of_isAtom (h : v.isAtom) : D.Held v := D.held_of_part (D.part_of_isAtom h)

theorem held_tuple_of_isAtom (h : ∀ v ∈ vs, v.isAtom) : D.Held (.tuple vs) :=
  D.held_tuple.2 fun v hv => D.part_of_isAtom (h v hv)

theorem AllParts.allHeld (h : D.AllParts vs) : D.AllHeld vs := fun v hv => D.held_of_part (h v hv)

theorem answer_of_held (h : D.Held v) : D.Answer v := by
  cases v with
  | yieldRequest items forced => exact D.parts_of_held h
  | tailCall id => trivial
  | _ => exact h

theorem held_of_answer (h : D.Answer v) (hrequest : ¬v.isRequest) : D.Held v := by
  cases v with
  | yieldRequest items forced => exact (hrequest rfl).elim
  | tailCall id => exact (hrequest rfl).elim
  | _ => exact h

theorem AllHeld.getD (h : D.AllHeld vs) (i : Nat) : D.Held ((vs[i]?).getD .nil) := by
  cases hi : vs[i]? with
  | none => exact held_of_isAtom rfl
  | some v => exact h v (List.mem_of_getElem? hi)

theorem part_toScalar : ∀ {v : Value}, D.Held v → D.Part v.toScalar
  | .tuple [], _ => D.part_of_isAtom rfl
  | .tuple (v :: _), h =>
    part_toScalar (v := v) (D.held_of_part (allParts_cons.1 (D.held_tuple.1 h)).1)
  | .nil, h | .bool _, h | .number _, h | .string _, h | .table _, h | .closure _, h | .native _, h
  | .coroutine _, h | .userdata _, h | .yieldRequest _ _, h | .tailCall _, h => D.part_of_held h nofun

theorem AllHeld.map_toScalar (h : D.AllHeld vs) : D.AllParts (vs.map Value.toScalar) := by
  intro v hv
  obtain ⟨w, hw, rfl⟩ := List.mem_map.1 hv
  exact part_toScalar (h w hw)

theorem allParts_toList (h : D.Held v) : D.AllParts v.toList := by
  unfold Value.toList
  split
  · exact D.held_tuple.1 h
  · rename_i hne
    exact allParts_singleton.2 (D.part_of_held h hne)

theorem part_headD (h : D.AllParts vs) : D.Part (vs.headD .nil) := by
  cases vs with
  | nil => exact D.part_of_isAtom rfl
  | cons v vs => exact (allParts_cons.1 h).1

theorem part_leading (h : D.Held v) : D.Part v.leading := by
  unfold Value.leading
  split
  · exact part_headD (D.held_tuple.1 h)
  · rename_i hne
    exact D.part_of_held h hne

theorem AllHeld.join (h : D.AllHeld vs) : D.AllParts (Value.join vs) := by
  fun_induction Value.join vs with
  | case1 => exact List.forall_mem_nil _
  | case2 v => exact allParts_toList (allHeld_singleton.1 h)
  | case3 v vs _ ih =>
    exact allParts_cons.2 ⟨part_leading (allHeld_cons.1 h).1, ih (allHeld_cons.1 h).2⟩

theorem held_pack (h : D.AllHeld vs) : D.Held (Value.pack vs) := by
  have hjoin := h.join
  unfold Value.pack
  split
  · rename_i v hv
    rw [hv] at hjoin
    exact D.held_of_part (allParts_singleton.1 hjoin)
  · exact D.held_tuple.2 hjoin

theorem AllHeld.spread (h : D.AllHeld vs) : D.AllHeld (Value.spread vs) := by
  fun_induction Value.spread vs with
  | case1 => exact h
  | case2 v => exact (allParts_toList (allHeld_singleton.1 h)).allHeld
  | case3 v vs _ ih => exact allHeld_cons.2 ⟨(allHeld_cons.1 h).1, ih (allHeld_cons.1 h).2⟩

end

end Discipline

/-- All values may be everywhere. -/
def Discipline.free : Discipline where
  Held _ := True
  Part _ := True
  part_of_isAtom _ := trivial
  held_of_part _ := trivial
  held_tuple := ⟨fun _ _ _ => trivial, fun _ => trivial⟩
  part_of_held _ _ := trivial
  parts_of_held _ _ _ := trivial

/-- How many values on top of the stack an instruction takes away or writes over. -/
def Instruction.demand (i : Instruction) : Nat :=
  let key := if i.value.isSome then 0 else 1
  match i.op with
  | .pop | .makeTuple => i.count
  | .swap => max i.count i.count2 + 1
  | .scalar | .toBool | .not | .toNumber | .increment | .initNext => 1
  | .conditionalNot | .initPair => 2
  | .getIndex _ => key + 1
  | .setIndex _ => key + 2
  | .call | .methodCall => i.count + 1
  | .ret => if i.number = 1 then 1 else 0
  | .jumpIfFalse | .jumpIfNil | .jumpIfTrueOrPop | .jumpIfFalseOrPop | .prepareIterator => 1
  | .updateIterator => 2
  | .arith _ | .concat | .eq | .less | .lessEq | .bitwise _ => 2
  | .neg | .len | .bitNot => 1
  | _ => 0

def Instruction.isOperator (i : Instruction) : Bool :=
  match i.op with
  | .getIndex _ | .setIndex _ | .arith _ | .neg | .len | .concat | .eq | .less | .lessEq | .bitwise _
  | .bitNot => true
  | _ => false

def Instruction.isScoped (i : Instruction) : Bool :=
  match i.op with
  | .closure | .storeLocal | .beginFunction | .enter | .leave | .exit | .clean | .prepareIterator => true
  | _ => false

def Instruction.isPlain (i : Instruction) : Bool :=
  match i.op with
  | .bindArguments | .call | .methodCall | .ret => false
  | _ => !i.isOperator && !i.isScoped

open Exec Discipline Instruction

section Values

variable {D : Discipline}

theorem part_storedItem (hv : D.Held v) (item : Nat) : D.Part (storedItem v item) := by
  unfold storedItem
  split
  · exact part_toScalar ((allParts_toList hv).allHeld.getD item)
  · split
    · exact part_toScalar hv
    · exact D.part_of_isAtom rfl

theorem held_parameterValue {arguments : List Value} (h : D.AllHeld arguments) (position : Nat)
    (s : Symbol) : D.Held (parameterValue arguments position s) := by
  unfold parameterValue
  split
  · exact D.held_tuple.2 (h.drop position).map_toScalar
  · exact D.held_of_part (part_toScalar (h.getD position))

theorem allParts_triple {items : List Value} (h : D.AllParts items) : D.AllParts (triple items) :=
  fun v hv => h.append (fun _ hw => List.eq_of_mem_replicate hw ▸ D.part_of_isAtom rfl) v
    (List.mem_of_mem_take hv)

end Values

/-- The operation never crashes, and leaves all flows alone. -/
structure Exec.Tame {α : Type} (x : Exec α) : Prop where
  safe : Safe x
  aside : Preserves Aside x

section Tame

theorem Exec.Tame.read {α : Type} (g : Machine → α) : Tame (read g) := ⟨.read g, .read g⟩

theorem tame_peek (f : FiberId) (depth : Nat) : Tame (peek f depth) := ⟨safe_peek f depth, aside_peek f depth⟩

theorem tame_topFrame (f : FiberId) : Tame (topFrame f) := ⟨safe_topFrame f, aside_topFrame f⟩

theorem Exec.Detached.tame {α : Type} {x : Exec α} (h : Detached x) : Tame x := ⟨h.safe, h.aside⟩

theorem tame_loopNumber (f : FiberId) (depth : Nat) : Tame (loopNumber f depth) := by
  refine ⟨.attempt (safe_peek f depth) fun v _ => ?_,
    .bind (.attempt (aside_peek f depth)) fun v => ?_⟩ <;> split
  · exact .pure _
  · exact .internal _
  · exact .pure _
  · exact .internal _

end Tame

/-- A change of the variables of a frame. -/
structure Frame.Inner (u : Frame → Frame) : Prop where
  like : ∀ frame : Frame, frame.Like (u frame)
  apart : ∀ (frame : Frame) entry returnTo,
    u { frame with entry, returnTo } = { u frame with entry, returnTo }

theorem Frame.Inner.comp {v : Frame → Frame} (hu : Inner u) (hv : Inner v) : Inner (u ∘ v) where
  like frame := (hv.like frame).trans (hu.like _)
  apart frame entry returnTo := by
    rw [Function.comp, hv.apart, hu.apart]
    rfl

theorem Frame.inner_reserve (index : Nat) : Inner (·.reserve index) := by
  constructor <;> intro frame <;> unfold reserve
  · split <;> exact ⟨rfl, rfl, rfl, rfl, rfl⟩
  · intros
    dsimp only
    split <;> rfl

theorem Frame.inner_clear (first last : Int32) : Inner (·.clear first last) := by
  constructor <;> intro frame <;> unfold clear
  · split <;> exact ⟨rfl, rfl, rfl, rfl, rfl⟩
  · intros
    split <;> rfl

theorem Frame.inner_blocks (b : List (List Symbol)) : Inner ({ · with blocks := b }) :=
  ⟨fun _ => ⟨rfl, rfl, rfl, rfl, rfl⟩, fun _ _ _ => rfl⟩

theorem Frame.inner_setLocal (index : Nat) (cell : Option CellId) : Inner (·.setLocal index cell) :=
  ⟨fun _ => ⟨rfl, rfl, rfl, rfl, rfl⟩, fun _ _ _ => rfl⟩

theorem Frame.inner_addPending (slots : List Nat) : Inner (·.addPending slots) :=
  ⟨fun _ => ⟨rfl, rfl, rfl, rfl, rfl⟩, fun _ _ _ => rfl⟩

/-- A way to reason about the instructions of a flow, in two runs at once. -/
structure Logic (f : FiberId) where
  D : Discipline
  /-- What can be said of the end of an operation. -/
  Post : Type → Type
  /-- What the operation comes to in the two runs, if the flow has so many values of its own. -/
  Does : {α : Type} → Nat → Post α → Exec α → Exec α → Prop
  flow : Post Flow

namespace Logic

variable {f : FiberId} {α β : Type} {i : Instruction} {A : α → Prop} {error : Value} {E : Engine}
  {n n' ip : Nat} {x' x y' y : Exec α} {p : Prop}

/-- Whatever follows the operation may rely on its result and on so many values. -/
structure Gives (L : Logic f) (k k' : Nat) (A : α → Prop) (x x' : Exec α) : Prop where
  lead {β : Type} {Q : L.Post β} {g g' : α → Exec β} : (∀ a, A a → L.Does k' Q (g a) (g' a)) →
    L.Does k Q (x >>= g) (x' >>= g')

abbrev Keeps (L : Logic f) (k k' : Nat) (x x' : Exec α) : Prop := L.Gives k k' (fun _ => True) x x'

/-- What is said of an operation that looks at the top of the stack, at variables and at objects. -/
structure Basic (L : Logic f) : Prop where
  complain {α : Type} {k : Nat} {Q : L.Post α} (c : Complaint) : L.Does k Q (complain c) (complain c)
  internal {α : Type} {k : Nat} {Q : L.Post α} (message : String) :
    L.Does k Q (internal message) (internal message)
  next {k : Nat} : L.Does k L.flow (pure .next) (pure .next)
  result {k : Nat} {v : Value} : L.D.Held v → L.Does k L.flow (result f v) (result f v)
  pop {k : Nat} : L.Gives (k + 1) k L.D.Held (pop f) (pop f)
  peek {k : Nat} (depth : Nat) : L.Gives k k L.D.Held (peek f depth) (peek f depth)
  top {α : Type} {k k' : Nat} {A : α → Prop} {g g' : Frame → Exec α} :
    (∀ (frame : Frame) entry returnTo, g' { frame with entry, returnTo } = g' frame) →
      (∀ frame, L.Gives k k' A (g frame) (g' frame)) →
      L.Gives k k' A (topFrame f >>= g) (topFrame f >>= g')
  localValue {k : Nat} (frame : Frame) (index : Nat) : L.Gives k k L.D.Held
    (read fun m => frame.localValue m.heap index) (read fun m => frame.localValue m.heap index)
  readCell {k : Nat} (cell : CellId) : L.Gives k k L.D.Held (readCell cell) (readCell cell)
  writeCell {k : Nat} {v : Value} (cell : CellId) : L.D.Held v →
    L.Keeps k k (writeCell cell v) (writeCell cell v)
  metamethod? {k : Nat} (v : Value) (event : String) : L.Gives k k (fun h => ∀ w ∈ h, L.D.Held w)
    (metamethod? v event) (metamethod? v event)
  handler? {k : Nat} (l r : Value) (event : String) : L.Gives k k (fun h => ∀ w ∈ h, L.D.Held w)
    (read fun m => m.heap.metamethod? l event <|> m.heap.metamethod? r event)
    (read fun m => m.heap.metamethod? l event <|> m.heap.metamethod? r event)
  table {k : Nat} (t : TableId) : L.Gives k k (fun t => ∀ key, L.D.Part (t.get key)) (table t) (table t)
  shared {k : Nat} (l r : Value) : L.Keeps k k (read fun m => shareMetatable m.heap l r)
    (read fun m => shareMetatable m.heap l r)
  setIndex {k : Nat} {key v : Value} (t : TableId) : L.D.Held key → L.D.Part v →
    L.Keeps k k (setIndex t key v) (setIndex t key v)

/-- What is said of operations on the value stack and of new tables. -/
structure Moves (L : Logic f) : Prop extends L.Basic where
  height {k : Nat} : L.Keeps k k (height f) (height f)
  push {k : Nat} {v : Value} : L.D.Held v → L.Keeps k (k + 1) (push f v) (push f v)
  pushAll {k : Nat} {vs : List Value} : L.D.AllHeld vs →
    L.Keeps k (k + vs.length) (pushAll f vs) (pushAll f vs)
  drop {k : Nat} (n : Nat) : L.Keeps (k + n) k (drop f n) (drop f n)
  popMany {k : Nat} (n : Nat) : L.Gives (k + n) k L.D.AllHeld (popMany f n) (popMany f n)
  poke {k depth : Nat} {v : Value} : depth < k → L.D.Held v →
    L.Keeps k k (poke f depth v) (poke f depth v)
  loopNumber {k : Nat} (depth : Nat) : L.Keeps k k (loopNumber f depth) (loopNumber f depth)
  newTable {k : Nat} : L.Gives k k L.D.Held newTable newTable
  fill {k : Nat} {v : Value} (t : TableId) (last : Bool) : L.D.Held v →
    L.Keeps k k (modifyTable t fun t => t.fill last v) (modifyTable t fun t => t.fill last v)

/-- What is said of the handlers that operators call. -/
structure Calls (L : Logic f) (E E' : Engine) (n n' ip ip' : Nat) : Prop extends L.Basic where
  flag {k : Nat} (b : Bool) : L.Keeps k (k + 1) (push f (.bool b)) (push f (.bool b))
  flags {k : Nat} (bs : List Bool) : L.Keeps k (k + bs.length) (pushAll f (bs.map .bool))
    (pushAll f (bs.map .bool))
  handler {k : Nat} {handler : Value} {arguments : List Value} : L.D.Held handler →
    L.D.AllHeld arguments → L.Does k L.flow (callHandler E f n ip handler arguments)
      (callHandler E' f n' ip' handler arguments)

/-- What is said of calls that are asked for, and of the values that they are about. -/
structure Asks (L : Logic f) (E E' : Engine) : Prop extends L.Basic where
  newBuiltin {k : Nat} (name : String) (b : Builtin) : L.Keeps k k (newBuiltin name b) (newBuiltin name b)
  place {k : Nat} {vs : List Value} : L.D.AllParts vs →
    L.Keeps k (k + 1) (push f (.tuple vs)) (push f (.tuple vs))
  call {k : Nat} {function : Value} {arguments : List Value} : L.D.Held function →
    L.D.AllHeld arguments →
    L.Gives k k L.D.Held (E (.call function arguments)) (E' (.call function arguments))

/-- What is said of the variables of a frame. -/
structure Locals (L : Logic f) (E E' : Engine) : Prop extends L.Asks E E' where
  localCell {k : Nat} (index : Nat) : L.Keeps k k (localCell f index) (localCell f index)
  addPending {k : Nat} (slots : List Nat) : L.Keeps k k
    (modifyFrame f fun frame => frame.addPending slots) (modifyFrame f fun frame => frame.addPending slots)
  newCell {k : Nat} {v : Value} : L.D.Held v → L.Keeps k k (newCell v) (newCell v)
  globals {k : Nat} : L.Keeps k k (read Machine.globals) (read Machine.globals)
  newClosure {k : Nat} (c : Closure) : L.Gives k k L.D.Held (newClosure c) (newClosure c)

/-- What is said of the blocks of a frame and of the calls that close variables. -/
structure Scopes (L : Logic f) (Enough : Nat → Nat → Prop) (E E' : Engine) : Prop extends
    L.Locals E E' where
  modifyFrame {k : Nat} {u : Frame → Frame} : Frame.Inner u →
    L.Keeps k k (modifyFrame f u) (modifyFrame f u)
  zero {α : Type} {k n' : Nat} {Q : L.Post α} {y : Nat → Exec α} : Enough 0 n' →
    y 0 = throw .exhausted → L.Does k Q (throw .exhausted) (y n')
  succ {n n' : Nat} : Enough (n + 1) n' → ∃ j, n' = j + 1 ∧ Enough n j

namespace Gives

variable {L : Logic f} {k k' j : Nat} {A : α → Prop} {B : β → Prop} {x x' : Exec α} {l : List α}

theorem bind {g g' : α → Exec β} (hx : L.Gives k j A x x')
    (hg : ∀ a, A a → L.Gives j k' B (g a) (g' a)) : L.Gives k k' B (x >>= g) (x' >>= g') := by
  refine ⟨fun h => ?_⟩
  rw [bind_assoc, bind_assoc]
  exact hx.lead fun a ha => (hg a ha).lead h

theorem pure {a : α} (h : A a) : L.Gives k k A (pure a) (pure a) := by
  refine ⟨fun hg => ?_⟩
  rw [pure_bind, pure_bind]
  exact hg a h

theorem mono {A' : α → Prop} (hx : L.Gives k k' A x x') (hA : ∀ a, A a → A' a) :
    L.Gives k k' A' x x' := ⟨fun hg => hx.lead fun a ha => hg a (hA a ha)⟩

theorem ite [Decidable p] (hx : p → L.Gives k k' A x x') (hy : ¬p → L.Gives k k' A y y') :
    L.Gives k k' A (if p then x else y) (if p then x' else y') := by
  split
  · exact hx ‹_›
  · exact hy ‹_›

theorem discard (hx : L.Gives k k' A x x') : L.Keeps k k' (discard x) (discard x') :=
  hx.bind fun _ _ => .pure trivial

theorem first [Decidable p] {x x' : Exec Unit} {g g' : Unit → Exec β} (hx : L.Keeps k k x x')
    (hg : L.Gives k k' B (g ()) (g' ())) :
    L.Gives k k' B (if p then x >>= g else g ()) (if p then x' >>= g' else g' ()) :=
  .ite (fun _ => hx.bind fun _ _ => hg) fun _ => hg

theorem forM {g g' : α → Exec PUnit} (h : ∀ a, L.Keeps k k (g a) (g' a)) :
    L.Keeps k k (l.forM g) (l.forM g') := by
  induction l with
  | nil => exact .pure trivial
  | cons a l ih => exact (h a).bind fun _ _ => ih

theorem mapM {g g' : α → Exec β} (h : ∀ a, L.Keeps k k (g a) (g' a)) :
    L.Keeps k k (l.mapM g) (l.mapM g') := by
  induction l with
  | nil => exact .pure trivial
  | cons a l ih =>
    rw [List.mapM_cons, List.mapM_cons]
    exact (h a).bind fun _ _ => ih.bind fun _ _ => .pure trivial

theorem does {Q : L.Post α} (hx : L.Gives k k' A x x')
    (hQ : ∀ a, A a → L.Does k' Q (Pure.pure a) (Pure.pure a)) : L.Does k Q x x' := by
  have h := hx.lead hQ
  rwa [bind_pure, bind_pure] at h

end Gives

theorem does_ite {L : Logic f} {k : Nat} {Q : L.Post α} [Decidable p] (hx : p → L.Does k Q x x')
    (hy : ¬p → L.Does k Q y y') : L.Does k Q (if p then x else y) (if p then x' else y') := by
  split
  · exact hx ‹_›
  · exact hy ‹_›

variable {L : Logic f} {k k' : Nat}

namespace Basic

variable (hL : L.Basic)
include hL

theorem stop (c : Complaint) : L.Gives k k' A (Exec.complain c) (Exec.complain c) :=
  ⟨fun _ => hL.complain c⟩

theorem fault (message : String) :
    L.Gives k k' A (Exec.internal message) (Exec.internal message) := ⟨fun _ => hL.internal message⟩

theorem thenNext {x x' : Exec Unit} (h : L.Keeps k k' x x') :
    L.Does k L.flow (thenNext x) (thenNext x') := h.lead fun _ _ => hL.next

theorem visitTop : L.Keeps k k (discard (topFrame f)) (discard (topFrame f)) :=
  hL.top (fun _ _ _ => rfl) fun _ => .pure trivial

theorem symbolOf (i : Instruction) : L.Keeps k k (symbolOf i) (symbolOf i) := by
  unfold Exec.symbolOf
  cases i.symbol with
  | none => exact hL.fault _
  | some s => exact .pure trivial

theorem storedValue (i : Instruction) : L.Gives k k L.D.Part (storedValue f i) (storedValue f i) :=
  (hL.peek _).bind fun _ hv => .pure (part_storedItem hv _)

theorem storeUpvalue (i : Instruction) : L.Keeps k k (storeUpvalue f i) (storeUpvalue f i) := by
  refine (hL.symbolOf i).bind fun s _ => (hL.storedValue i).bind fun v hv =>
    hL.top (fun _ _ _ => rfl) fun frame => ?_
  cases frame.upvalues[s.index]? with
  | none => exact hL.fault _
  | some cell => exact hL.writeCell cell (L.D.held_of_part hv)

theorem operands : L.Gives (k + 2) k (fun p => L.D.Held p.1 ∧ L.D.Held p.2) (popOperands f)
    (popOperands f) :=
  hL.pop.bind fun _ hr => hL.pop.bind fun _ hl => .pure
    ⟨L.D.held_of_part (part_toScalar hl), L.D.held_of_part (part_toScalar hr)⟩

theorem objectAndKey (hi : ∀ v ∈ i.value, L.D.Held v) :
    L.Gives (k + ((if i.value.isSome then 0 else 1) + 1)) k (fun p => L.D.Held p.1 ∧ L.D.Held p.2)
      (popObjectAndKey f i) (popObjectAndKey f i) := by
  have hrest (key : Value) (hkey : L.D.Held key) : L.Gives (k + 1) k
      (fun p => L.D.Held p.1 ∧ L.D.Held p.2) (do
        let object ← Exec.pop f
        return (object.toScalar, key.toScalar)) (do
        let object ← Exec.pop f
        return (object.toScalar, key.toScalar)) :=
    hL.pop.bind fun _ hobject => .pure
      ⟨L.D.held_of_part (part_toScalar hobject), L.D.held_of_part (part_toScalar hkey)⟩
  unfold popObjectAndKey
  cases hvalue : i.value with
  | none => exact Gives.bind (j := k + 1) hL.pop hrest
  | some v => exact Gives.bind (A := L.D.Held) (.pure (hi v hvalue)) hrest

theorem accessStep (object key : Value) (mode : Indexing) (event : String) :
    L.Gives k k (fun | .here => True | .via handler => L.D.Held handler)
      (accessStep object key mode event) (accessStep object key mode event) := by
  refine (hL.metamethod? object event).bind fun handler hh => ?_
  split
  · refine (hL.table _).bind fun _ _ => .ite (fun _ => .pure trivial) fun _ => ?_
    split
    · exact .pure (hh _ rfl)
    · exact .ite (fun _ => hL.stop _) fun _ => .pure trivial
  · exact .pure (hh _ rfl)
  · exact hL.stop _

theorem tableOnTop : L.Keeps k k (tableOnTop f) (tableOnTop f) := by
  refine (hL.peek 0).bind fun v _ => ?_
  cases v with
  | table t => exact .pure trivial
  | _ => exact hL.fault _

theorem initPair : L.Does 2 L.flow (initPair f) (initPair f) :=
  hL.pop.lead fun _ hv => hL.pop.lead fun _ hkey => hL.tableOnTop.lead fun t _ =>
    (hL.setIndex t hkey (part_toScalar hv)).lead fun _ _ => hL.next

theorem conditionalNot : L.Does 2 L.flow (conditionalNot f) (conditionalNot f) := by
  refine hL.pop.lead fun v _ => hL.pop.lead fun w _ => ?_
  split
  · exact hL.result (held_of_isAtom rfl)
  · exact hL.internal _

section Jumps

variable {target target' : Nat} (hjump : ∀ k, L.Does k L.flow (pure (.transfer (.jump target)))
  (pure (.transfer (.jump target'))))
include hjump

theorem jumpIf (condition : Bool) : L.Does k L.flow (pure (jumpIf condition target))
    (pure (jumpIf condition target')) := by
  cases condition with
  | true => exact hjump k
  | false => exact hL.next

theorem jumpOrPop (truth : Bool) :
    L.Does 1 L.flow (jumpOrPop f truth target) (jumpOrPop f truth target') :=
  (hL.peek 0).lead fun _ _ => does_ite (fun _ => hjump _) fun _ => hL.pop.discard.lead fun _ _ => hL.next

end Jumps

end Basic

namespace Moves

variable (hL : L.Moves)
include hL

theorem mapTop {g : Value → Exec Value} (hg : ∀ v, L.D.Held v → L.Gives 1 1 L.D.Held (g v) (g v)) :
    L.Does 1 L.flow (mapTop f g) (mapTop f g) :=
  (hL.peek 0).lead fun v hv => (hg v hv).lead fun _ hw => (hL.poke Nat.one_pos hw).lead fun _ _ => hL.next

theorem swap (a b : Nat) : L.Does (max a b + 1) L.flow (swap f a b) (swap f a b) :=
  hL.height.lead fun _ _ => does_ite (fun _ => hL.internal _) fun _ => (hL.peek a).lead fun _ hx =>
    (hL.peek b).lead fun _ hy => (hL.poke (by omega) hy).lead fun _ _ => (hL.poke (by omega) hx).lead fun _ _ => hL.next

theorem increment (offset : Nat) : L.Does 1 L.flow (increment f offset) (increment f offset) := by
  refine (hL.peek offset).lead fun _ _ => (hL.peek 0).lead fun _ _ => ?_
  split
  · exact (hL.poke Nat.one_pos (held_of_isAtom rfl)).lead fun _ _ => hL.next
  · exact hL.internal _

theorem initNext (last : Bool) : L.Does 1 L.flow (initNext f last) (initNext f last) :=
  hL.pop.lead fun _ hv => hL.tableOnTop.lead fun t _ => (hL.fill t last hv).lead fun _ _ => hL.next

theorem loadLocal (i : Instruction) : L.Keeps k (k + 1) (loadLocal f i) (loadLocal f i) :=
  (hL.symbolOf i).bind fun s _ => hL.top (fun _ _ _ => rfl) fun frame =>
    (hL.localValue frame s.index).bind fun _ hv => hL.push hv

theorem loadUpvalue (i : Instruction) : L.Keeps k (k + 1) (loadUpvalue f i) (loadUpvalue f i) := by
  refine (hL.symbolOf i).bind fun s _ => hL.top (fun _ _ _ => rfl) fun frame => ?_
  cases frame.upvalues[s.index]? with
  | none => exact hL.fault _
  | some cell => exact (hL.readCell cell).bind fun _ hv => hL.push hv

theorem jumpIfDone {target target' : Nat} (hjump : ∀ k, L.Does k L.flow
    (pure (.transfer (.jump target))) (pure (.transfer (.jump target')))) :
    L.Does k L.flow (jumpIfDone f target) (jumpIfDone f target') :=
  (hL.loopNumber 0).lead fun _ _ => (hL.loopNumber 1).lead fun _ _ =>
    (hL.loopNumber 2).lead fun _ _ => hL.jumpIf hjump _

theorem updateIterator : L.Keeps 2 2 (updateIterator f) (updateIterator f) := by
  refine (hL.peek 0).bind fun v hv => (hL.peek 1).bind fun w hw =>
    hL.poke Nat.one_lt_two (L.D.held_tuple.2 fun u hu => ?_)
  obtain hu | rfl := List.mem_or_eq_of_mem_set hu
  · exact allParts_triple (allParts_toList hw) u hu
  · exact part_toScalar hv

end Moves

section Metamethods

variable (E : Engine) (n ip : Nat) {g : Option Flow → Exec Flow} (hg : ∀ flow, g (some flow) = pure flow)
include hg

/-- An operator that has found a handler of one of two operands ends with its call. -/
theorem binaryMetamethod?_bind (l r : Value) (event : String) (below : List Value) :
    binaryMetamethod? E f n ip l r event below >>= g = (do
      match ← read fun m => m.heap.metamethod? l event <|> m.heap.metamethod? r event with
      | none => g none
      | some handler =>
        pushAll f below
        callHandler E f n ip handler [l, r]) := by
  rw [binaryMetamethod?, bind_assoc]
  refine congrArg _ (funext fun handler? => ?_)
  cases handler? with
  | none => exact pure_bind _ _
  | some handler => simp only [bind_assoc, pure_bind, hg, bind_pure]

theorem unaryMetamethod?_bind (v : Value) (event : String) :
    unaryMetamethod? E f n ip v event >>= g = (do
      match ← metamethod? v event with
      | none => g none
      | some handler => callHandler E f n ip handler [v]) := by
  rw [unaryMetamethod?, bind_assoc]
  refine congrArg _ (funext fun handler? => ?_)
  cases handler? with
  | none => exact pure_bind _ _
  | some handler => simp only [bind_assoc, pure_bind, hg, bind_pure]

end Metamethods

namespace Calls

variable {E E' : Engine} {n n' ip ip' : Nat} (hL : L.Calls E E' n n' ip ip')
  {object key l r : Value}
include hL

section

variable {g g' : Option Flow → Exec Flow} (hg : ∀ flow, g (some flow) = pure flow)
  (hg' : ∀ flow, g' (some flow) = pure flow) (hnone : L.Does k L.flow (g none) (g' none))
include hg hg' hnone

theorem binary (h : L.D.Held l ∧ L.D.Held r) (event : String) (bs : List Bool) :
    L.Does k L.flow (binaryMetamethod? E f n ip l r event (bs.map .bool) >>= g)
      (binaryMetamethod? E' f n' ip' l r event (bs.map .bool) >>= g') := by
  rw [binaryMetamethod?_bind E n ip hg, binaryMetamethod?_bind E' n' ip' hg']
  refine (hL.handler? l r event).lead fun handler? hh => ?_
  cases handler? with
  | none => exact hnone
  | some handler =>
    exact (hL.flags bs).lead fun _ _ => hL.handler (hh handler rfl)
      (allHeld_cons.2 ⟨h.1, allHeld_singleton.2 h.2⟩)

theorem unary (hv : L.D.Held v) (event : String) :
    L.Does k L.flow (unaryMetamethod? E f n ip v event >>= g)
      (unaryMetamethod? E' f n' ip' v event >>= g') := by
  rw [unaryMetamethod?_bind E n ip hg, unaryMetamethod?_bind E' n' ip' hg']
  refine (hL.metamethod? v event).lead fun handler? hh => ?_
  cases handler? with
  | none => exact hnone
  | some handler => exact hL.handler (hh handler rfl) (allHeld_singleton.2 hv)

end

theorem binaryOr (h : L.D.Held l ∧ L.D.Held r) (event : String) (bs : List Bool) (c : Complaint) :
    L.Does k L.flow (binaryMetamethod? E f n ip l r event (bs.map .bool) >>= (orComplain · c))
      (binaryMetamethod? E' f n' ip' l r event (bs.map .bool) >>= (orComplain · c)) :=
  hL.binary (fun _ => rfl) (fun _ => rfl) (hL.complain c) h event bs

theorem unaryOr (hv : L.D.Held v) (event : String) (c : Complaint) :
    L.Does k L.flow (unaryMetamethod? E f n ip v event >>= (orComplain · c))
      (unaryMetamethod? E' f n' ip' v event >>= (orComplain · c)) :=
  hL.unary (fun _ => rfl) (fun _ => rfl) (hL.complain c) hv event

theorem arithmetic (op : Arithmetic) :
    L.Does 2 L.flow (arithmetic E f n ip op) (arithmetic E' f n' ip' op) := by
  refine hL.operands.lead fun (l, r) h => ?_
  dsimp only
  split
  · exact hL.result (held_of_isAtom rfl)
  · exact hL.binaryOr h _ [] _

theorem negate : L.Does 1 L.flow (negate E f n ip) (negate E' f n' ip') := by
  refine hL.pop.lead fun v hv => ?_
  dsimp only
  split
  · exact hL.result (held_of_isAtom rfl)
  · exact hL.unaryOr (L.D.held_of_part (part_toScalar hv)) _ _

theorem length : L.Does 1 L.flow (length E f n ip) (length E' f n' ip') := by
  refine hL.pop.lead fun v hv => ?_
  replace hv := L.D.held_of_part (part_toScalar hv)
  dsimp only
  generalize v.toScalar = v at hv
  cases v with
  | string s => exact hL.result (held_of_isAtom rfl)
  | table t =>
    exact hL.unary (fun _ => rfl) (fun _ => rfl)
      ((hL.table t).lead fun _ _ => hL.result (held_of_isAtom rfl)) hv _
  | _ => exact hL.unary (fun _ => rfl) (fun _ => rfl) (hL.complain _) hv _

theorem concatenate : L.Does 2 L.flow (concatenate E f n ip) (concatenate E' f n' ip') := by
  refine hL.operands.lead fun (l, r) h => ?_
  dsimp only
  split
  · exact hL.result (held_of_isAtom rfl)
  · exact hL.binaryOr h _ [] _

theorem bitwise (op : Bitwise) : L.Does 2 L.flow (bitwise E f n ip op) (bitwise E' f n' ip' op) := by
  refine hL.operands.lead fun (l, r) h => ?_
  dsimp only
  split
  · exact hL.result (held_of_isAtom rfl)
  · exact hL.binaryOr h _ [] _

theorem bitNot : L.Does 1 L.flow (bitNot E f n ip) (bitNot E' f n' ip') := by
  refine hL.pop.lead fun v hv => ?_
  dsimp only
  split
  · exact hL.result (held_of_isAtom rfl)
  · exact hL.unaryOr (L.D.held_of_part (part_toScalar hv)) _ _

theorem equal : L.Does 2 L.flow (equal E f n ip) (equal E' f n' ip') := by
  have hfalse : L.Does 0 L.flow (Exec.result f (.bool false)) (Exec.result f (.bool false)) :=
    hL.result (held_of_isAtom rfl)
  refine hL.operands.lead fun (l, r) h => does_ite (fun _ => hL.result (held_of_isAtom rfl))
    fun _ => (hL.shared l r).lead fun _ _ => does_ite (fun _ => ?_) fun _ => hfalse
  exact hL.binary (fun _ => rfl) (fun _ => rfl) hfalse h _ []

theorem less : L.Does 2 L.flow (less E f n ip) (less E' f n' ip') := by
  refine hL.operands.lead fun (l, r) h => ?_
  dsimp only
  split
  · exact hL.result (held_of_isAtom rfl)
  · exact hL.result (held_of_isAtom rfl)
  · exact hL.binaryOr h _ [] _

theorem lessEqual : L.Does 2 L.flow (lessEqual E f n ip) (lessEqual E' f n' ip') := by
  refine hL.operands.lead fun (l, r) h => ?_
  dsimp only
  split
  · exact (hL.flag _).lead fun _ _ => hL.result (held_of_isAtom rfl)
  · exact hL.binary (fun _ => rfl) (fun _ => rfl) (hL.binaryOr h.symm _ [true] _) h _ [false]

variable (mode : Indexing)

theorem readThrough (hkey : L.D.Held key) (hops : Nat) (hobject : L.D.Held object) :
    L.Does k L.flow (readThrough E f n ip mode key hops object)
      (readThrough E' f n' ip' mode key hops object) := by
  induction hops generalizing object with
  | zero => exact hL.complain _
  | succ hops ih =>
    refine (hL.accessStep object key mode _).lead fun access haccess => ?_
    split
    · exact (hL.table _).lead fun _ ht => hL.result (L.D.held_of_part (ht key))
    · exact hL.complain _
    · exact does_ite (fun _ => does_ite (fun _ => hL.complain _) fun _ => hL.handler haccess
        (allHeld_cons.2 ⟨hobject, allHeld_singleton.2 hkey⟩)) fun _ => ih haccess

theorem writeThrough (hkey : L.D.Held key) (hv : L.D.Part v) (hops : Nat)
    (hobject : L.D.Held object) : L.Does 1 L.flow (writeThrough E f n ip mode key v hops object)
      (writeThrough E' f n' ip' mode key v hops object) := by
  induction hops generalizing object with
  | zero => exact hL.complain _
  | succ hops ih =>
    refine (hL.accessStep object key mode _).lead fun access haccess => ?_
    split
    · exact (hL.setIndex _ hkey hv).lead fun _ _ => hL.next
    · exact hL.complain _
    · exact does_ite (fun _ => does_ite (fun _ => hL.complain _) fun _ => hL.pop.discard.lead
        fun _ _ => hL.handler haccess (allHeld_cons.2 ⟨hobject, allHeld_cons.2
          ⟨hkey, allHeld_singleton.2 (L.D.held_of_part hv)⟩⟩)) fun _ => ih haccess

theorem getIndex (mode : Indexing) (hi : ∀ v ∈ i.value, L.D.Held v) :
    L.Does ((if i.value.isSome then 0 else 1) + 1) L.flow (getIndex E f n ip mode i)
      (getIndex E' f n' ip' mode i) := by
  rw [← Nat.zero_add ((if i.value.isSome then 0 else 1) + 1)]
  exact (hL.objectAndKey hi).lead fun (_, _) h => hL.readThrough mode h.2 _ h.1

theorem setIndexed (mode : Indexing) (hi : ∀ v ∈ i.value, L.D.Held v) :
    L.Does ((if i.value.isSome then 0 else 1) + 2) L.flow (setIndexed E f n ip mode i)
      (setIndexed E' f n' ip' mode i) := by
  rw [Nat.add_comm _ 2, Nat.add_right_comm 1 1, Nat.add_assoc 1]
  exact (hL.objectAndKey hi).lead fun (_, _) h => (hL.storedValue i).lead fun _ hv =>
    hL.writeThrough mode h.2 hv _ h.1

theorem execute (hi : ∀ v ∈ i.value, L.D.Held v) (h : i.isOperator) :
    L.Does i.demand L.flow (execute E f n ip i) (execute E' f n' ip' i) := by
  unfold Exec.execute demand
  unfold isOperator at h
  cases hop : i.op with
  | getIndex mode => exact hL.getIndex mode hi
  | setIndex mode => exact hL.setIndexed mode hi
  | arith op => exact hL.arithmetic op
  | neg => exact hL.negate
  | len => exact hL.length
  | concat => exact hL.concatenate
  | eq => exact hL.equal
  | less => exact hL.less
  | lessEq => exact hL.lessEqual
  | bitwise op => exact hL.bitwise op
  | bitNot => exact hL.bitNot
  | _ =>
    rw [hop] at h
    cases h

end Calls

namespace Moves

variable (hL : L.Moves) {E E' : Engine} {n n' ip ip' : Nat}
include hL

theorem dropAll (n : Nat) : L.Does n L.flow (Exec.thenNext (Exec.drop f n))
    (Exec.thenNext (Exec.drop f n)) := by
  have h := hL.thenNext (hL.drop (k := 0) n)
  rwa [Nat.zero_add] at h

theorem makeTuple (n : Nat) :
    L.Does n L.flow (do result f (.tuple (Value.pack (← Exec.popMany f n)).toList))
      (do result f (.tuple (Value.pack (← Exec.popMany f n)).toList)) := by
  have h : L.Does (0 + n) L.flow (do result f (.tuple (Value.pack (← Exec.popMany f n)).toList))
      (do result f (.tuple (Value.pack (← Exec.popMany f n)).toList)) :=
    (hL.popMany n).lead fun _ h => hL.result (L.D.held_tuple.2 (allParts_toList (held_pack h)))
  rwa [Nat.zero_add] at h

theorem execute (hi : ∀ v ∈ i.value, L.D.Held v) (h : i.isPlain)
    (hjump : ∀ k, L.Does k L.flow (pure (.transfer (.jump i.count)))
      (pure (.transfer (.jump i.count)))) :
    L.Does i.demand L.flow (execute E f n ip i) (execute E' f n' ip' i) := by
  unfold Exec.execute demand
  unfold isPlain isOperator isScoped at h
  cases hop : i.op with
  | nop | debug | preamble => exact hL.next
  | invalid => exact hL.internal _
  | pop => exact hL.dropAll _
  | copy => exact (hL.peek _).lead fun _ hv => hL.result hv
  | swap => exact hL.swap _ _
  | literal =>
    cases hvalue : i.value with
    | none => exact hL.internal _
    | some v => exact hL.result (hi v hvalue)
  | makeTuple => exact hL.makeTuple _
  | expandTuple =>
    exact (hL.peek _).lead fun _ hv => hL.thenNext (hL.pushAll (allParts_toList hv).allHeld)
  | scalar => exact hL.mapTop fun _ hv => .pure (L.D.held_of_part (part_toScalar hv))
  | toBool | not => exact hL.mapTop fun _ _ => .pure (held_of_isAtom rfl)
  | toNumber =>
    refine hL.mapTop fun v _ => ?_
    split
    · exact .pure (held_of_isAtom rfl)
    · exact hL.stop _
  | conditionalNot => exact hL.conditionalNot
  | increment => exact hL.increment _
  | newTable => exact hL.newTable.lead fun _ hv => hL.result hv
  | initPair => exact hL.initPair
  | initNext => exact hL.initNext _
  | loadLocal => exact hL.thenNext (hL.loadLocal i)
  | loadUpvalue => exact hL.thenNext (hL.loadUpvalue i)
  | storeUpvalue => exact hL.thenNext (hL.storeUpvalue i)
  | jump => exact hjump _
  | jumpIfFalse | jumpIfNil => exact hL.pop.lead fun _ _ => hL.jumpIf hjump _
  | jumpIfTrueOrPop | jumpIfFalseOrPop => exact hL.jumpOrPop hjump _
  | jumpIfDone => exact hL.jumpIfDone hjump
  | updateIterator => exact hL.thenNext hL.updateIterator
  | _ =>
    rw [hop] at h
    cases h

end Moves

namespace Asks

variable {E E' : Engine} (hL : L.Asks E E')
include hL

theorem closeValue (s : Symbol) (hv : L.D.Held v) (herror : L.D.Held error) :
    L.Keeps k k (closeValue E s v error) (closeValue E' s v error) := by
  refine .ite (fun _ => (hL.metamethod? v _).bind fun handler hh => ?_) fun _ => .pure trivial
  cases handler with
  | none => exact hL.stop _
  | some handler =>
    exact (hL.call (hh handler rfl) (allHeld_cons.2 ⟨hv, allHeld_singleton.2 herror⟩)).discard

theorem prepareIterator :
    L.Keeps (k + 1) (k + 1) (prepareIterator E f) (prepareIterator E' f) := by
  refine hL.pop.bind fun v hv => ?_
  have hitems : L.D.AllParts (triple v.toList) := allParts_triple (allParts_toList hv)
  refine .ite (fun _ => hL.place hitems) fun _ => (hL.metamethod? _ _).bind fun handler hh => ?_
  split
  · exact hL.place (allParts_triple (L.D.held_tuple.1 (hh _ rfl)))
  · exact (hL.call (hh _ rfl) hitems.allHeld).bind fun _ hw =>
      hL.place (allParts_triple (allParts_toList hw))
  · refine (hL.metamethod? _ _).bind fun _ _ => .ite (fun _ => ?_) fun _ => hL.place hitems
    exact (hL.newBuiltin _ _).bind fun _ _ => hL.place (allParts_cons.2 ⟨L.D.part_of_isAtom rfl,
      allParts_cons.2 ⟨part_headD hitems, allParts_singleton.2 (L.D.part_of_isAtom rfl)⟩⟩)
  · exact hL.place hitems

end Asks

theorem Basic.localCell (hL : L.Basic) {index : Nat}
    (hframe : ∀ {u}, Frame.Inner u → L.Keeps k k (modifyFrame f u) (modifyFrame f u))
    (hcell : L.Keeps k k (newCell .nil) (newCell .nil)) :
    L.Keeps k k (localCell f index) (localCell f index) := by
  refine (hframe (Frame.inner_reserve index)).bind fun _ _ =>
    hL.top (fun _ _ _ => rfl) fun frame => ?_
  cases frame.local? index with
  | some cell => exact .pure trivial
  | none =>
    exact hcell.bind fun cell _ =>
      (hframe (Frame.inner_setLocal index cell)).bind fun _ _ => .pure trivial

namespace Locals

variable {E E' : Engine} (hL : L.Locals E E')
include hL

theorem prepareToBeClosed (s : Symbol) (v : Value) :
    L.Keeps k k (prepareToBeClosed E f s v) (prepareToBeClosed E' f s v) :=
  (hL.metamethod? v _).bind fun _ _ => .first (hL.stop _) <| hL.top (fun _ _ _ => rfl) fun frame =>
    (hL.localValue frame s.index).bind fun _ hw => .ite
      (fun _ => hL.closeValue s hw (held_of_isAtom rfl)) fun _ => .pure trivial

theorem assignLocal (s : Symbol) (hv : L.D.Held v) :
    L.Keeps k k (assignLocal E f s v) (assignLocal E' f s v) := by
  unfold Exec.assignLocal
  refine .first (hL.prepareToBeClosed s v) ?_
  exact hL.visitTop.bind fun _ _ => (hL.localCell s.index).bind fun cell _ =>
    (hL.writeCell cell hv).bind fun _ _ =>
      .ite (fun _ => hL.addPending _) fun _ => .pure trivial

theorem storeLocal (i : Instruction) : L.Keeps k k (storeLocal E f i) (storeLocal E' f i) :=
  (hL.symbolOf i).bind fun s _ => (hL.storedValue i).bind fun _ hv =>
    hL.assignLocal s (L.D.held_of_part hv)

theorem bindArguments (i : Instruction)
    (h : L.Gives k k L.D.AllHeld (stackedArguments f) (stackedArguments f)) :
    L.Keeps k k (bindArguments E f i) (bindArguments E' f i) :=
  h.bind fun _ h => .forM fun (s, position) =>
    hL.assignLocal s (held_parameterValue h.spread position s)

theorem capture (s : Symbol) : L.Keeps k k (capture f s) (capture f s) := by
  cases s with
  | localVar _ index _ _ => exact hL.localCell index
  | upvalue _ index =>
    refine hL.top (fun _ _ _ => rfl) fun frame => ?_
    cases frame.upvalues[index]? with
    | none => exact hL.fault _
    | some cell => exact .pure trivial
  | defaultEnvironment => exact hL.globals.bind fun _ _ => hL.newCell (held_of_isAtom rfl)
  | global => exact hL.fault _

theorem makeClosure (i : Instruction) : L.Gives k k L.D.Held (makeClosure f i) (makeClosure f i) :=
  hL.visitTop.bind fun _ _ => (Gives.mapM hL.capture).bind fun _ _ => hL.newClosure _

end Locals

namespace Scopes

variable {Enough : Nat → Nat → Prop} {E E' : Engine} (hL : L.Scopes Enough E E')
include hL

theorem modify (hu : Frame.Inner u) : L.Keeps k k (do discard (topFrame f); Exec.modifyFrame f u)
      (do discard (topFrame f); Exec.modifyFrame f u) :=
  hL.visitTop.bind fun _ _ => hL.modifyFrame hu

theorem takeClosable (s : Symbol) : L.Gives k k (fun v => ∀ w ∈ v, L.D.Held w) (takeClosable f s)
    (takeClosable f s) := by
  refine hL.top (fun _ _ _ => rfl) fun frame => .ite (fun _ => ?_) fun _ => .pure nofun
  refine (hL.localValue frame s.index).bind fun v hv => (hL.modifyFrame ?_).bind fun _ _ => .pure ?_
  · exact ⟨fun _ => ⟨rfl, rfl, rfl, rfl, rfl⟩, fun _ _ _ => rfl⟩
  · exact fun w hw => Option.some.inj hw ▸ hv

theorem closeSymbol (s : Symbol) (herror : L.D.Held error) :
    L.Keeps k k (closeSymbol E f s error) (closeSymbol E' f s error) := by
  refine (hL.takeClosable s).bind fun v hv => ?_
  cases v with
  | none => exact .pure trivial
  | some v => exact hL.closeValue s (hv v rfl) herror

theorem closeSymbols (ss : List Symbol) (herror : L.D.Held error) :
    L.Keeps k k (closeSymbols E f ss error) (closeSymbols E' f ss error) :=
  .forM fun s => hL.closeSymbol s herror

theorem closeBlock (herror : L.D.Held error) (hn : Enough n n') :
    L.Keeps k k (closeBlock E f error n) (closeBlock E' f error n') := by
  induction n generalizing n' with
  | zero => exact ⟨fun {_ _ _ g'} _ => hL.zero (y := fun n => Exec.closeBlock E' f error n >>= g') hn rfl⟩
  | succ n ih =>
    obtain ⟨n', rfl, hle⟩ := hL.succ hn
    refine hL.top (fun _ _ _ => rfl) fun frame => ?_
    rcases frame.blocks with _ | ⟨_ | ⟨s, rest⟩, outer⟩
    · exact .pure trivial
    · exact hL.modifyFrame (Frame.inner_blocks _)
    · exact (hL.modifyFrame (Frame.inner_blocks _)).bind fun _ _ =>
        (hL.closeSymbol s herror).bind fun _ _ => ih hle

theorem closeBlocks (herror : L.D.Held error) (hn : Enough n n') :
    L.Keeps k k (closeBlocks E f error n) (closeBlocks E' f error n') := by
  induction n generalizing n' with
  | zero => exact ⟨fun {_ _ _ g'} _ => hL.zero (y := fun n => Exec.closeBlocks E' f error n >>= g') hn rfl⟩
  | succ n ih =>
    obtain ⟨n', rfl, hle⟩ := hL.succ hn
    exact hL.top (fun _ _ _ => rfl) fun _ => .ite (fun _ => .pure trivial) fun _ =>
      (hL.closeBlock herror hle).bind fun _ _ => ih hle

theorem beginFunction (i : Instruction) : L.Keeps k k (beginFunction f i) (beginFunction f i) :=
  hL.modify ⟨fun _ => ⟨rfl, rfl, rfl, rfl, rfl⟩, fun _ _ _ => rfl⟩

theorem clearSlots (i : Instruction) : L.Keeps k k (clearSlots f i) (clearSlots f i) :=
  hL.modify (Frame.inner_clear _ _)

theorem enterBlock (i : Instruction) : L.Keeps k k (enterBlock E f i) (enterBlock E' f i) := by
  have hopen : Frame.Inner fun frame =>
      { frame.addPending (i.symbolList.map Symbol.index) with
        blocks := i.symbolList.reverse :: frame.blocks } :=
    ⟨fun _ => ⟨rfl, rfl, rfl, rfl, rfl⟩, fun _ _ _ => rfl⟩
  exact (hL.closeSymbols _ (held_of_isAtom rfl)).bind fun _ _ =>
    hL.modify (hopen.comp (Frame.inner_clear i.number i.number2))

theorem leaveBlock (i : Instruction) (hn : Enough n n') :
    L.Keeps k k (leaveBlock E f n i) (leaveBlock E' f n' i) :=
  (hL.closeBlock (held_of_isAtom rfl) hn).bind fun _ _ => hL.clearSlots i

theorem cleanSlots (i : Instruction) : L.Keeps k k (cleanSlots E f i) (cleanSlots E' f i) :=
  (hL.closeSymbols _ (held_of_isAtom rfl)).bind fun _ _ => hL.clearSlots i

theorem execute {ip' : Nat} (hn : Enough n n') (h : i.isScoped) :
    L.Does i.demand L.flow (execute E f n ip i) (execute E' f n' ip' i) := by
  unfold Exec.execute demand
  unfold isScoped at h
  cases hop : i.op with
  | closure => exact (hL.makeClosure i).lead fun _ hv => hL.result hv
  | storeLocal => exact hL.thenNext (hL.storeLocal i)
  | beginFunction => exact hL.thenNext (hL.beginFunction i)
  | enter => exact hL.thenNext (hL.enterBlock i)
  | leave | exit => exact hL.thenNext (hL.leaveBlock i hn)
  | clean => exact hL.thenNext (hL.cleanSlots i)
  | prepareIterator => exact hL.thenNext hL.prepareIterator
  | _ =>
    rw [hop] at h
    cases h

end Scopes

/-- An instruction, by what is said of the calls and returns that it makes. -/
theorem execute {Enough : Nat → Nat → Prop} {E' : Engine} {ip' : Nat} (hmoves : L.Moves)
    (hcalls : L.Calls E E' n n' ip ip') (hscopes : L.Scopes Enough E E') (hn : Enough n n')
    (hi : ∀ v ∈ i.value, L.D.Held v)
    (hjump : ∀ k, L.Does k L.flow (pure (.transfer (.jump i.count))) (pure (.transfer (.jump i.count))))
    (harguments : L.Gives 0 0 L.D.AllHeld (stackedArguments f) (stackedArguments f))
    (hcall : ∀ method, L.Does (i.count + 1) L.flow
      (performCall E f n i.count { CallSetup.byInstruction ip with method, name := i.name } >>=
        fun r => pure (.transfer r))
      (performCall E' f n' i.count { CallSetup.byInstruction ip' with method, name := i.name } >>=
        fun r => pure (.transfer r)))
    (hret : i.op = .ret → L.Does (if i.number = 1 then 1 else 0) L.flow
      (performReturn E f n i ip >>= fun r => pure (.transfer r))
      (performReturn E' f n' i ip' >>= fun r => pure (.transfer r))) :
    L.Does i.demand L.flow (execute E f n ip i) (execute E' f n' ip' i) := by
  by_cases hplain : i.isPlain
  · exact hmoves.execute hi hplain hjump
  by_cases hoperator : i.isOperator
  · exact hcalls.execute hi hoperator
  by_cases hscoped : i.isScoped
  · exact hscopes.execute hn hscoped
  unfold Exec.execute demand
  cases hop : i.op with
  | bindArguments => exact hscopes.thenNext (hscopes.bindArguments i harguments)
  | call | methodCall => exact hcall _
  | ret => exact hret hop
  | _ => simp [isPlain, isOperator, isScoped, hop] at hplain hoperator hscoped

/-- The logic of one run, by what holds in the middle of an instruction and at its end. -/
def single (f : FiberId) (P : Nat → Machine → Prop) (Q : Flow → Machine → Prop)
    (S : Stop → Machine → Prop) : Logic f where
  D := .free
  Post α := α → Machine → Prop
  Does k U x _ := Triple (P k) x U S
  flow := Q

section Single

variable {P : Nat → Machine → Prop} {Q : Flow → Machine → Prop} {S : Stop → Machine → Prop}

theorem Gives.of_triple (h : Triple (P k) x (fun _ => P k') S) (hA : ∀ a, A a) :
    (single f P Q S).Gives k k' A x x' := ⟨fun hg => h.bind fun a => hg a (hA a)⟩

theorem Gives.triple (h : (single f P Q S).Gives k k' A x x') :
    Triple (P k) x (fun _ => P k') S := by
  have hend (a : α) (_ : A a) : (single f P Q S).Does k' (fun _ : α => P k') (Pure.pure a)
      (Pure.pure a) := fun _ hm => hm
  exact h.does hend

theorem Moves.execute_single (h : (single f P Q S).Moves) (hi : i.isPlain)
    (hjump : ∀ k m, P k m → Q (.transfer (.jump i.count)) m) :
    Triple (P i.demand) (Exec.execute E f n ip i) Q S := by
  have hrun : (single f P Q S).Does i.demand Q (Exec.execute E f n ip i) (Exec.execute E f n ip i) :=
    h.execute (fun _ _ => trivial) hi hjump
  exact hrun

/-- What holds in the middle of an instruction is kept where only objects change, and values can be
taken off the stack. -/
structure Steady (f : FiberId) (P : Nat → Machine → Prop) (Q : Flow → Machine → Prop)
    (S : Stop → Machine → Prop) : Prop where
  stop {k : Nat} {s : Stop} {m : Machine} : s ≠ .crash → P k m → S s m
  next {k : Nat} {m : Machine} : P k m → Q .next m
  result {k : Nat} (v : Value) : Triple (P k) (result f v) Q S
  tame {α : Type} {k : Nat} {x : Exec α} : Tame x → Triple (P k) x (fun _ => P k) S
  pop {k : Nat} : Triple (P (k + 1)) (pop f) (fun _ => P k) S

namespace Steady

variable (h : Steady f P Q S)
include h

theorem gives (hx : Tame x) (hA : ∀ a, A a) :
    (single f P Q S).Gives k k A x x' := .of_triple (h.tame hx) hA

theorem basic : (single f P Q S).Basic where
  complain _ _ hm := h.stop nofun hm
  internal _ _ hm := h.stop nofun hm
  next _ hm := h.next hm
  result _ := h.result _
  pop := .of_triple h.pop fun _ => trivial
  peek depth := h.gives (tame_peek f depth) fun _ => trivial
  top _ hg := (h.gives (A := fun _ => True) (tame_topFrame f) fun _ => trivial).bind fun frame _ => hg frame
  localValue _ _ := h.gives (.read _) fun _ => trivial
  readCell _ := h.gives (.read _) fun _ => trivial
  writeCell _ _ := h.gives (detached_writeCell _ _).tame fun _ => trivial
  metamethod? _ _ := h.gives (.read _) fun _ _ _ => trivial
  handler? _ _ _ := h.gives (.read _) fun _ _ _ => trivial
  table _ := h.gives (.read _) fun _ _ => trivial
  shared _ _ := h.gives (.read _) fun _ => trivial
  setIndex _ _ _ := h.gives (detached_setIndex _ _ _).tame fun _ => trivial

theorem moves (push : ∀ {k} v, Triple (P k) (push f v) (fun _ => P (k + 1)) S)
    (pushAll : ∀ {k} vs, Triple (P k) (pushAll f vs) (fun _ => P (k + vs.length)) S)
    (drop : ∀ {k} n, Triple (P (k + n)) (drop f n) (fun _ => P k) S)
    (popMany : ∀ {k} n, Triple (P (k + n)) (popMany f n) (fun _ => P k) S)
    (poke : ∀ {k depth} v, depth < k → Triple (P k) (poke f depth v) (fun _ => P k) S) :
    (single f P Q S).Moves where
  toBasic := h.basic
  height := h.gives (.read _) fun _ => trivial
  push _ := .of_triple (push _) fun _ => trivial
  pushAll _ := .of_triple (pushAll _) fun _ => trivial
  drop n := .of_triple (drop n) fun _ => trivial
  popMany n := .of_triple (popMany n) fun _ _ _ => trivial
  poke hdepth _ := .of_triple (poke _ hdepth) fun _ => trivial
  loopNumber depth := h.gives (tame_loopNumber f depth) fun _ => trivial
  newTable := h.gives detached_newTable.tame fun _ => trivial
  fill _ _ _ := h.gives (detached_modifyTable _ _).tame fun _ => trivial

theorem calls (flag : ∀ {k} b, Triple (P k) (push f (.bool b)) (fun _ => P (k + 1)) S)
    (flags : ∀ {k} (bs : List Bool),
      Triple (P k) (pushAll f (bs.map .bool)) (fun _ => P (k + bs.length)) S)
    (handler : ∀ {k} handler arguments, Triple (P k) (callHandler E f n ip handler arguments) Q S) :
    (single f P Q S).Calls E E n n ip ip where
  toBasic := h.basic
  flag b := .of_triple (flag b) fun _ => trivial
  flags bs := .of_triple (flags bs) fun _ => trivial
  handler _ _ := handler _ _

theorem asks (push : ∀ {k} vs, Triple (P k) (push f (.tuple vs)) (fun _ => P (k + 1)) S)
    (call : ∀ {k} function arguments, Triple (P k) (E (.call function arguments)) (fun _ => P k) S) :
    (single f P Q S).Asks E E where
  toBasic := h.basic
  newBuiltin name b := h.gives (detached_newBuiltin name b).tame fun _ => trivial
  place _ := .of_triple (push _) fun _ => trivial
  call _ _ := .of_triple (call _ _) fun _ => trivial

theorem locals (asks : (single f P Q S).Asks E E)
    (localCell : ∀ {k} index, Triple (P k) (localCell f index) (fun _ => P k) S)
    (addPending : ∀ {k} slots,
      Triple (P k) (modifyFrame f fun frame => frame.addPending slots) (fun _ => P k) S) :
    (single f P Q S).Locals E E where
  toAsks := asks
  localCell index := .of_triple (localCell index) fun _ => trivial
  addPending slots := .of_triple (addPending slots) fun _ => trivial
  newCell _ := h.gives (detached_newCell _).tame fun _ => trivial
  globals := h.gives (.read _) fun _ => trivial
  newClosure c := h.gives (detached_newClosure c).tame fun _ => trivial

theorem scopes (asks : (single f P Q S).Asks E E)
    (modifyFrame : ∀ {k u}, Frame.Inner u → Triple (P k) (modifyFrame f u) (fun _ => P k) S) :
    (single f P Q S).Scopes (· = ·) E E where
  toLocals := h.locals asks
    (fun _ => (h.basic.localCell (fun hu => .of_triple (modifyFrame hu) fun _ => trivial)
      (h.gives (detached_newCell _).tame fun _ => trivial)).triple)
    fun slots => modifyFrame (Frame.inner_addPending slots)
  modifyFrame hu := .of_triple (modifyFrame hu) fun _ => trivial
  zero _ _ _ hm := h.stop nofun hm
  succ {n} _ hn := ⟨n, hn.symm, rfl⟩

end Steady

end Single

end Logic

end ScriptMachine
