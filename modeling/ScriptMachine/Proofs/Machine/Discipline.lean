import ScriptMachine.Proofs.Machine.Rounds

namespace ScriptMachine

open Discipline

variable {v : Value} {u : Fiber → Fiber} {e : RuntimeError} {f : FiberId}

section Arrays

variable {α : Type} {P : α → Prop} {xs : Array α} {x : α}

theorem forall_mem_toArray {as : List α} (h : ∀ a ∈ as, P a) : ∀ a ∈ as.toArray, P a :=
  fun a ha => h a (List.mem_toArray.1 ha)

variable (h : ∀ a ∈ xs, P a)
include h

theorem forall_mem_push (hx : P x) : ∀ a ∈ xs.push x, P a := by
  intro a ha
  obtain ha | rfl := Array.mem_push.1 ha
  · exact h a ha
  · exact hx

theorem forall_mem_of_getElem? {ys : Array α}
    (hys : ∀ (i : Nat) a, ys[i]? = some a → a ∈ xs) : ∀ a ∈ ys, P a := by
  intro a ha
  obtain ⟨i, hi⟩ := Array.mem_iff_getElem?.1 ha
  exact h a (hys i a hi)

theorem forall_mem_pop : ∀ a ∈ xs.pop, P a := by
  refine forall_mem_of_getElem? h fun i a hi => ?_
  rw [Array.getElem?_pop] at hi
  split at hi
  · exact Array.mem_of_getElem? hi
  · cases hi

theorem forall_mem_shrink (n : Nat) : ∀ a ∈ xs.shrink n, P a := by
  refine forall_mem_of_getElem? h fun i a hi => ?_
  rw [getElem?_shrink] at hi
  split at hi
  · exact Array.mem_of_getElem? hi
  · cases hi

theorem forall_mem_modify {u : α → α} (hu : ∀ a, P a → P (u a)) (i : Nat) :
    ∀ a ∈ xs.modify i u, P a := by
  intro a ha
  obtain ⟨j, hj⟩ := Array.mem_iff_getElem?.1 ha
  rw [Array.getElem?_modify] at hj
  split at hj
  · obtain ⟨b, hb, rfl⟩ := Option.map_eq_some_iff.1 hj
    exact hu b (h b (Array.mem_of_getElem? hb))
  · exact h a (Array.mem_of_getElem? hj)

theorem forall_mem_setIfInBounds (hx : P x) (i : Nat) :
    ∀ a ∈ xs.setIfInBounds i x, P a := by
  intro a ha
  obtain ha | rfl := Array.mem_or_eq_of_mem_setIfInBounds ha
  · exact h a ha
  · exact hx

theorem forall_mem_appendList {l : List α} (hl : ∀ a ∈ l, P a) :
    ∀ a ∈ xs.appendList l, P a := by
  intro a ha
  obtain ⟨i, hi⟩ := Array.mem_iff_getElem?.1 ha
  rw [getElem?_appendList] at hi
  split at hi
  · exact h a (Array.mem_of_getElem? hi)
  · exact hl a (List.mem_of_getElem? hi)

theorem forall_mem_insert (hx : P x) (i : Nat) :
    ∀ a ∈ xs.insertIdxIfInBounds i x, P a := by
  intro a ha
  unfold Array.insertIdxIfInBounds at ha
  split at ha
  · obtain rfl | ha := Array.mem_insertIdx.1 ha
    · exact hx
    · exact h a ha
  · exact h a ha

theorem getD_of_forall_mem {d : α} (hd : P d) (i : Nat) : P (xs.getD i d) := by
  rw [Array.getD_eq_getD_getElem?]
  cases hi : xs[i]? with
  | none => exact hd
  | some a => exact h a (Array.mem_of_getElem? hi)

theorem forall_mem_extract (start stop : Nat) :
    ∀ a ∈ (xs.extract start stop).toList, P a := by
  intro a ha
  rw [Array.mem_toList_iff] at ha
  refine forall_mem_of_getElem? h (fun i a hi => ?_) a ha
  rw [Array.getElem?_extract] at hi
  split at hi
  · exact Array.mem_of_getElem? hi
  · cases hi

theorem forall_mem_popWhile {p : α → Bool} : ∀ a ∈ xs.popWhile p, P a := by
  obtain ⟨l⟩ := xs
  intro a ha
  rw [List.popWhile_toArray, List.mem_toArray, List.mem_reverse] at ha
  exact h a (List.mem_toArray.2 (List.mem_reverse.1 ((List.dropWhile_sublist p).subset ha)))

end Arrays

namespace Table

/-- The keys and values of the table may be parts. -/
structure Obeys (D : Discipline) (t : Table) : Prop where
  array : ∀ v ∈ t.array, D.Part v
  entries : ∀ e ∈ t.entries, D.Part e.1 ∧ D.Part e.2

variable {D : Discipline} {t : Table}

theorem obeys_empty : ({} : Table).Obeys D := ⟨nofun, nofun⟩

namespace Obeys

variable {e : Value × Value} {key : Value} {start i : Nat}

theorem entry (h : t.Obeys D) (hi : t.entries[i]? = some e) :
    D.Part e.1 ∧ D.Part e.2 := h.entries e (Array.mem_of_getElem? hi)

theorem find? {k : Key} (h : t.Obeys D) (hv : t.find? k = some (i, v)) : D.Part v := by
  simp only [Table.find?, Option.bind_eq_bind, Option.bind_eq_some_iff] at hv
  obtain ⟨j, -, ⟨key, w⟩, hw, heq⟩ := hv
  cases heq
  exact (h.entry hw).2

theorem getKey (h : t.Obeys D) (k : Key) : D.Part (t.getKey k) := by
  unfold Table.getKey
  split
  · exact h.find? ‹_›
  · exact D.part_of_isAtom rfl

theorem get (h : t.Obeys D) (key : Value) : D.Part (t.get key) := by
  unfold Table.get
  dsimp only
  split
  · rename_i v hv
    obtain ⟨i, -, hi⟩ := Option.bind_eq_some_iff.1 hv
    exact h.array v (Array.mem_of_getElem? hi)
  · split
    · exact h.getKey _
    · exact D.part_of_isAtom rfl

theorem overwrite (h : t.Obeys D) (i : Nat) (old : Value) (hv : D.Part v) :
    (t.overwrite i old v).Obeys D :=
  ⟨h.array, forall_mem_modify (u := fun e => (e.1, v)) h.entries (fun _ he => ⟨he.1, hv⟩) i⟩

theorem append (h : t.Obeys D) (k : Key) (hkey : D.Part key) (hv : D.Part v) :
    (t.append k key v).Obeys D := ⟨h.array, forall_mem_push h.entries ⟨hkey, hv⟩⟩

theorem compact (h : t.Obeys D) : t.compact.Obeys D :=
  ⟨h.array, fun e he => h.entries e (Array.mem_filter.1 he).1⟩

theorem setEntry (h : t.Obeys D) (k : Key) (hkey : D.Part key) (hv : D.Part v) :
    (t.setEntry k key v).Obeys D := by
  unfold Table.setEntry
  split
  · exact h.overwrite _ _ hv
  · split
    · exact h
    · refine append ?_ k hkey hv
      split
      · exact h.compact
      · exact h

theorem eraseEntry (h : t.Obeys D) (key : Value) : (t.eraseEntry key).Obeys D := by
  unfold Table.eraseEntry
  split
  · exact h.overwrite _ _ (D.part_of_isAtom rfl)
  · exact h

theorem absorbNext? {t' : Table} (h : t.Obeys D) (ht : t.absorbNext? = some t') : t'.Obeys D := by
  simp only [Table.absorbNext?, Option.bind_eq_bind, Option.bind_eq_some_iff] at ht
  obtain ⟨k, -, ⟨i, v⟩, hfound, ht⟩ := ht
  split at ht
  · cases ht
  · cases ht
    exact ⟨forall_mem_push h.array (h.find? hfound), (h.overwrite i v (v := .nil) (D.part_of_isAtom rfl)).entries⟩

theorem absorb (n : Nat) (h : t.Obeys D) : (Table.absorb n t).Obeys D := by
  induction n generalizing t with
  | zero => exact h
  | succ n ih =>
    unfold Table.absorb
    split
    · exact ih (h.absorbNext? ‹_›)
    · exact h

theorem extend (h : t.Obeys D) (hv : D.Part v) : (t.extend v).Obeys D :=
  absorb _ ⟨forall_mem_push h.array hv, h.entries⟩

theorem insertEntry (h : t.Obeys D) (hkey : D.Part key) (hv : D.Part v) :
    (t.insertEntry key v).Obeys D := by
  unfold Table.insertEntry
  split
  · exact h.setEntry _ hkey hv
  · exact h

theorem insert (h : t.Obeys D) (hkey : D.Part key) (hv : D.Part v) : (t.insert key v).Obeys D := by
  unfold Table.insert
  split
  · exact h.insertEntry hkey hv
  · split
    · exact ⟨forall_mem_popWhile (forall_mem_setIfInBounds h.array hv _), h.entries⟩
    · split
      · exact (h.eraseEntry key).extend hv
      · exact h.insertEntry hkey hv

theorem fillOne (h : t.Obeys D) (hv : D.Held v) : (t.fillOne v).Obeys D :=
  insert (t := { t with filled := t.filled + 1 }) ⟨h.array, h.entries⟩ (D.part_of_isAtom rfl)
    (part_toScalar hv)

mutual

theorem fill {t : Table} (h : t.Obeys D) (last : Bool) {v : Value} (hv : D.Held v) :
    (t.fill last v).Obeys D := by
  match v with
  | .tuple items =>
    rw [Table.fill]
    split
    · exact fillAll h (D.held_tuple.1 hv)
    · exact h.fillOne hv
  | .nil | .bool _ | .number _ | .string _ | .table _ | .closure _ | .native _ | .coroutine _
  | .userdata _ | .yieldRequest _ _ | .tailCall _ =>
    rw [Table.fill]
    · exact h.fillOne hv
    · nofun

theorem fillAll {t : Table} (h : t.Obeys D) {vs : List Value} (hvs : D.AllParts vs) :
    (t.fillAll vs).Obeys D := by
  match vs with
  | [] => exact h
  | v :: vs =>
    rw [Table.fillAll]
    exact fillAll (fill h true (D.held_of_part (allParts_cons.1 hvs).1)) (allParts_cons.1 hvs).2

end

theorem nextInArray (h : t.Obeys D) (he : t.nextInArray start = some e) :
    D.Part e.1 ∧ D.Part e.2 := by
  simp only [Table.nextInArray, Option.bind_eq_bind, Option.bind_eq_some_iff] at he
  obtain ⟨i, -, v, hv, heq⟩ := he
  cases heq
  exact ⟨D.part_of_isAtom rfl, h.array v (Array.mem_of_getElem? hv)⟩

theorem nextInEntries (h : t.Obeys D) (he : t.nextInEntries start = some e) :
    D.Part e.1 ∧ D.Part e.2 := by
  simp only [Table.nextInEntries, Option.bind_eq_bind, Option.bind_eq_some_iff] at he
  obtain ⟨i, -, hi⟩ := he
  exact h.entry hi

theorem next (h : t.Obeys D) (he : t.next key = .ok (some e)) : D.Part e.1 ∧ D.Part e.2 := by
  have hfirst {start : Nat} (he : (t.nextInArray start <|> t.nextInEntries 0) = some e) :
      D.Part e.1 ∧ D.Part e.2 := by
    rw [Option.orElse_eq_some] at he
    exact he.elim h.nextInArray fun he => h.nextInEntries he.2
  unfold Table.next at he
  dsimp only at he
  split at he
  · exact hfirst (Except.ok.inj he)
  · split at he
    · exact hfirst (Except.ok.inj he)
    · split at he
      · exact h.nextInEntries (Except.ok.inj he)
      · cases he

end Obeys

end Table

def Handlers.Obeys (D : Discipline) (h : Handlers) : Prop := ∀ v ∈ h.beforeUnwind, D.Held v

theorem Handlers.obeys_empty {D : Discipline} : ({} : Handlers).Obeys D :=
  fun v hv => (Option.not_mem_none v hv).elim

structure TailCall.Obeys (D : Discipline) (t : TailCall) : Prop where
  function : D.Held t.function
  arguments : D.AllHeld t.arguments
  handlers : t.handlers.Obeys D

/-- The values in variables, tables and pending requests may be there, and all native functions are
those of the library. -/
structure Heap.Obeys (D : Discipline) (h : Heap) : Prop where
  tables : ∀ t ∈ h.tables, t.Obeys D
  cells : ∀ v ∈ h.cells, D.Held v
  tailCalls : ∀ t ∈ h.tailCalls, t.Obeys D
  natives : ∀ n ∈ h.natives, ∃ b, n.behavior = .builtin b

structure Fiber.Obeys (D : Discipline) (b : Fiber) : Prop where
  values : ∀ v ∈ b.values, D.Held v
  frames : ∀ frame ∈ b.frames, frame.handlers.Obeys D
  closeError : D.Part b.closeError

/-- All constants of the machine may be held, and all values in its variables, in its tables and on
its value stacks may be there. -/
structure Machine.Obeys (D : Discipline) (m : Machine) : Prop where
  code : ∀ i ∈ m.code.instructions, ∀ v ∈ i.value, D.Held v
  heap : m.heap.Obeys D
  fibers : ∀ b ∈ m.fibers, b.Obeys D

def RuntimeError.Obeys (D : Discipline) (e : RuntimeError) : Prop := ∀ v ∈ e.value, D.Part v

def Stop.Obeys (D : Discipline) : Stop → Prop
  | .fault (.runtime e) => e.Obeys D
  | _ => True

section

variable {D : Discipline} {m : Machine}

theorem RuntimeError.Obeys.decorate (h : e.Obeys D) (l : Option Location) :
    (e.decorate l).Obeys D := by
  unfold RuntimeError.decorate
  split
  · exact h
  · split <;> exact h
  · exact h

theorem RuntimeError.Obeys.toValue (h : e.Obeys D) : D.Part e.toValue := by
  unfold RuntimeError.toValue
  split
  · exact D.part_of_isAtom rfl
  · exact D.part_of_isAtom rfl
  · exact h _ ‹_›

namespace Heap.Obeys

variable {h : Heap} (hh : h.Obeys D)
include hh

theorem table (id : TableId) : (h.table id).Obeys D :=
  getD_of_forall_mem hh.tables Table.obeys_empty _

theorem cell (id : CellId) : D.Held (h.cell id) :=
  getD_of_forall_mem (P := fun v : Value => D.Held v) hh.cells (held_of_isAtom rfl) _

theorem tailCall (id : TailCallId) : (h.tailCall id).Obeys D :=
  getD_of_forall_mem hh.tailCalls ⟨held_of_isAtom rfl, allHeld_nil, Handlers.obeys_empty⟩ _

theorem native (id : NativeId) : ∃ b, (h.native id).behavior = .builtin b :=
  getD_of_forall_mem (P := fun n : Native => ∃ b, n.behavior = .builtin b) hh.natives ⟨_, rfl⟩ _

theorem metamethod? {handler : Value} {event : String} (hv : h.metamethod? v event = some handler) :
    D.Part handler := by
  simp only [Heap.metamethod?, Option.bind_eq_bind, Option.bind_eq_some_iff] at hv
  obtain ⟨id, -, hv⟩ := hv
  split at hv
  · cases hv
  · cases hv
    exact (hh.table id).getKey _

theorem modifyTable {u : Table → Table} (hu : ∀ t, t.Obeys D → (u t).Obeys D) (id : TableId) :
    (h.modifyTable id u).Obeys D :=
  ⟨forall_mem_modify hh.tables hu _, hh.cells, hh.tailCalls, hh.natives⟩

theorem setCell (id : CellId) (hv : D.Held v) : (h.setCell id v).Obeys D :=
  ⟨hh.tables, forall_mem_setIfInBounds hh.cells hv _, hh.tailCalls, hh.natives⟩

theorem newTable : (h.newTable {}).2.Obeys D :=
  ⟨forall_mem_push hh.tables Table.obeys_empty, hh.cells, hh.tailCalls, hh.natives⟩

theorem newCell (hv : D.Held v) : (h.newCell v).2.Obeys D :=
  ⟨hh.tables, forall_mem_push hh.cells hv, hh.tailCalls, hh.natives⟩

theorem newTailCall {t : TailCall} (ht : t.Obeys D) : (h.newTailCall t).2.Obeys D :=
  ⟨hh.tables, hh.cells, forall_mem_push hh.tailCalls ht, hh.natives⟩

theorem newNative (name : String) (b : Builtin) :
    (h.newNative { name, behavior := .builtin b }).2.Obeys D :=
  ⟨hh.tables, hh.cells, hh.tailCalls, forall_mem_push hh.natives ⟨b, rfl⟩⟩

end Heap.Obeys

namespace Fiber.Obeys

variable {b : Fiber} (hb : b.Obeys D)
include hb

theorem withValues {values : Array Value} (h : ∀ v ∈ values, D.Held v) :
    { b with values }.Obeys D := ⟨h, hb.frames, hb.closeError⟩

theorem withFrames {frames : Array Frame} (h : ∀ frame ∈ frames, frame.handlers.Obeys D) :
    { b with frames }.Obeys D := ⟨hb.values, h, hb.closeError⟩

theorem back? {frame : Frame} (h : b.frames.back? = some frame) : frame.handlers.Obeys D :=
  hb.frames frame (Array.mem_of_back? h)

end Fiber.Obeys

theorem Machine.Obeys.fiber (h : m.Obeys D) (f : FiberId) : (m.fiber f).Obeys D :=
  getD_of_forall_mem h.fibers ⟨fun v hv => (Array.not_mem_empty v hv).elim,
    fun frame hframe => (Array.not_mem_empty frame hframe).elim, D.part_of_isAtom rfl⟩ _

theorem Machine.Obeys.withFiber (h : m.Obeys D) (hu : ∀ b, b.Obeys D → (u b).Obeys D) :
    (m.withFiber f u).Obeys D :=
  ⟨h.code, h.heap, forall_mem_modify h.fibers hu _⟩

end

/-- The machine obeys, and its flows may yield where they could in another one. -/
structure Machine.Tidy (D : Discipline) (m m₀ : Machine) : Prop extends Machine.Obeys D m where
  canYield : ∀ f, (m.fiber f).canYield = (m₀.fiber f).canYield

namespace Machine.Tidy

variable {D : Discipline} {m₀ m : Machine}

theorem refl (h : m.Obeys D) : m.Tidy D m := ⟨h, fun _ => rfl⟩

variable (hm : m.Tidy D m₀)
include hm

theorem withFiber (hu : ∀ b, b.Obeys D → (u b).Obeys D)
    (hcanYield : ∀ b, (u b).canYield = b.canYield) : (m.withFiber f u).Tidy D m₀ := by
  refine ⟨hm.toObeys.withFiber hu, fun f' => ?_⟩
  rw [← hm.canYield, Machine.fiber, Machine.fiber, Machine.withFiber, Array.getD_eq_getD_getElem?,
    Array.getD_eq_getD_getElem?, Array.getElem?_modify]
  split
  · cases m.fibers[f'.index]? with
    | none => rfl
    | some b => exact hcanYield b
  · rfl

theorem withHeap {heap : Heap} (h : heap.Obeys D) : { m with heap }.Tidy D m₀ :=
  ⟨⟨hm.code, h, hm.fibers⟩, hm.canYield⟩

theorem pushFiber {b : Fiber} (hb : b.Obeys D) (hcanYield : b.canYield) :
    { m with fibers := m.fibers.push b }.Tidy D m₀ := by
  refine ⟨⟨hm.code, hm.heap, forall_mem_push hm.fibers hb⟩, fun f => ?_⟩
  rw [← hm.canYield, Machine.fiber, Machine.fiber, Array.getD_eq_getD_getElem?,
    Array.getD_eq_getD_getElem?, Array.getElem?_push]
  split
  · rw [Array.getElem?_eq_none (by omega)]
    exact hcanYield
  · rfl

end Machine.Tidy

namespace Exec

variable {α β : Type} {P : Machine → Prop} {Q : α → Machine → Prop} {S : Stop → Machine → Prop}
  {x x' : Exec α} {p : Prop} {g' g : α → Exec β}

/-- Two operations that do the same on the machines of a triple. -/
structure Joint (P : Machine → Prop) (x x' : Exec α) (Q : α → Machine → Prop)
    (S : Stop → Machine → Prop) : Prop where
  same : ∀ m, P m → x' m = x m
  triple : Triple P x Q S

namespace Joint

variable {U : β → Machine → Prop}

theorem of (h : Triple P x Q S) : Joint P x x Q S := ⟨fun _ _ => rfl, h⟩

theorem bind (hx : Joint P x x' Q S) (hg : ∀ a, Joint (Q a) (g a) (g' a) U S) :
    Joint P (x >>= g) (x' >>= g') U S := by
  refine ⟨fun m hm => ?_, hx.triple.bind fun a => (hg a).triple⟩
  have hrun := hx.triple m hm
  have hsame := hx.same m hm
  rcases hxm : x m with ⟨s | a, m'⟩ <;> rw [hxm] at hrun hsame
  · rw [bind_error hxm, bind_error hsame]
  · rw [bind_ok hxm, bind_ok hsame, (hg a).same m' hrun]

theorem conseq {P' : Machine → Prop} {Q' : α → Machine → Prop} {S' : Stop → Machine → Prop}
    (h : Joint P x x' Q S) (hP : ∀ m, P' m → P m) (hQ : ∀ a m, Q a m → Q' a m)
    (hS : ∀ s m, S s m → S' s m) : Joint P' x x' Q' S' :=
  ⟨fun m hm => h.same m (hP m hm), h.triple.conseq hP hQ hS⟩

theorem attempt {U : Except Stop α → Machine → Prop}
    (h : Joint P x x' (fun a => U (.ok a)) (fun s => U (.error s))) :
    Joint P (attempt x) (attempt x') U S := by
  refine ⟨fun m hm => ?_, .attempt h.triple⟩
  unfold Exec.attempt
  rw [h.same m hm]

theorem ite [Decidable p] {y y' : Exec α} (hx : p → Joint P x x' Q S) (hy : ¬p → Joint P y y' Q S) :
    Joint P (if p then x else y) (if p then x' else y') Q S := by
  split
  · exact hx ‹_›
  · exact hy ‹_›

theorem given (h : p → Joint P x x' Q S) : Joint (fun m => p ∧ P m) x x' Q S :=
  ⟨fun m hm => (h hm.1).same m hm.2, .given fun hp => (h hp).triple⟩

theorem exists_ {ι : Sort*} {P : ι → Machine → Prop} (h : ∀ i, Joint (P i) x x' Q S) :
    Joint (fun m => ∃ i, P i m) x x' Q S :=
  ⟨fun m ⟨i, hm⟩ => (h i).same m hm, .exists_ fun i => (h i).triple⟩

theorem first [Decidable p] {x x' : Exec Unit} {g g' : Unit → Exec β}
    (hx : Joint P x x' (fun _ => P) S) (hg : ∀ u, Joint P (g u) (g' u) U S) :
    Joint P (if p then x >>= g else g ()) (if p then x' >>= g' else g' ()) U S :=
  ite (fun _ => hx.bind hg) fun _ => hg ()

end Joint

/-- Two operations that do the same on machines that obey, which they go on to do: the result is of
some kind, and what is raised may be. -/
def Tidies (D : Discipline) (m₀ : Machine) (x x' : Exec α) (A : α → Prop) : Prop :=
  Joint (·.Tidy D m₀) x x' (fun a m => A a ∧ m.Tidy D m₀) (fun s m => s.Obeys D ∧ m.Tidy D m₀)

namespace Tidies

variable {D : Discipline} {m₀ : Machine} {A : α → Prop} {B : β → Prop}

theorem bind (hx : Tidies D m₀ x x' A) (hg : ∀ a, A a → Tidies D m₀ (g a) (g' a) B) :
    Tidies D m₀ (x >>= g) (x' >>= g') B :=
  Joint.bind hx fun a => .given (hg a)

theorem mono {A' : α → Prop} (h : Tidies D m₀ x x' A) (hA : ∀ a, A a → A' a) : Tidies D m₀ x x' A' :=
  Joint.conseq h (fun _ h => h) (fun a _ h => ⟨hA a h.1, h.2⟩) fun _ _ h => h

theorem pure {a : α} (h : A a) : Tidies D m₀ (pure a) (pure a) A := .of fun _ hm => ⟨h, hm⟩

theorem atom {v : Value} (h : v.isAtom) : Tidies D m₀ (Pure.pure v) (Pure.pure v) D.Held :=
  pure (held_of_isAtom h)

theorem throw {s : Stop} (h : s.Obeys D) : Tidies D m₀ (throw s : Exec α) (throw s) A :=
  .of fun _ hm => ⟨h, hm⟩

theorem fail (h : e.Obeys D) :
    Tidies D m₀ (fail (.runtime e) : Exec α) (fail (.runtime e)) A := throw h

theorem complain (c : Complaint) : Tidies D m₀ (complain c : Exec α) (complain c) A :=
  throw (s := .fault (.complain c)) nofun

theorem internal (message : String) : Tidies D m₀ (internal message : Exec α) (internal message) A :=
  throw (s := .fault (.internal message)) trivial

theorem read {g : Machine → α} (h : ∀ m, m.Tidy D m₀ → A (g m)) : Tidies D m₀ (read g) (read g) A :=
  .of fun m hm => ⟨h m hm, hm⟩

theorem reads {g : Machine → α} : Tidies D m₀ (Exec.read g) (Exec.read g) fun _ => True :=
  read fun _ _ => trivial

theorem modify {g : Machine → Machine} (h : ∀ m, m.Tidy D m₀ → (g m).Tidy D m₀) :
    Tidies D m₀ (modify g : Exec Unit) (modify g) fun _ => True := .of fun m hm => ⟨trivial, h m hm⟩

theorem modifyGet {g : Machine → α × Machine} (h : ∀ m, m.Tidy D m₀ → A (g m).1 ∧ (g m).2.Tidy D m₀) :
    Tidies D m₀ (modifyGet g : Exec α) (modifyGet g) A := .of h

theorem modifyFiber (hu : ∀ b, b.Obeys D → (u b).Obeys D)
    (hcanYield : ∀ b, (u b).canYield = b.canYield) :
    Tidies D m₀ (modifyFiber f u) (modifyFiber f u) fun _ => True :=
  modify fun _ hm => hm.withFiber hu hcanYield

theorem ite [Decidable p] {y y' : Exec α} (hx : p → Tidies D m₀ x x' A)
    (hy : ¬p → Tidies D m₀ y y' A) : Tidies D m₀ (if p then x else y) (if p then x' else y') A :=
  Joint.ite hx hy

theorem first [Decidable p] {x x' : Exec Unit} {g g' : Unit → Exec β}
    (hx : Tidies D m₀ x x' fun _ => True) (hg : ∀ u, Tidies D m₀ (g u) (g' u) B) :
    Tidies D m₀ (if p then x >>= g else g ()) (if p then x' >>= g' else g' ()) B :=
  ite (fun _ => hx.bind fun u _ => hg u) fun _ => hg ()

theorem ofComplaint {r : Except Complaint α} (hok : ∀ a, r = .ok a → A a) :
    Tidies D m₀ (ofComplaint r) (ofComplaint r) A := by
  cases r with
  | error c => exact complain c
  | ok a => exact pure (hok a rfl)

theorem discard (h : Tidies D m₀ x x' A) : Tidies D m₀ (discard x) (discard x') fun _ => True :=
  h.bind (B := fun _ => True) fun _ _ => pure trivial

def Outcome (D : Discipline) (A : α → Prop) : Except Stop α → Prop
  | .ok a => A a
  | .error s => s.Obeys D

theorem attempt (h : Tidies D m₀ x x' A) : Tidies D m₀ (attempt x) (attempt x') (Outcome D A) :=
  Joint.attempt h

theorem finish {r : Except Stop α} (h : Outcome D A r) : Tidies D m₀ (finish r) (finish r) A := by
  cases r with
  | error s => exact throw h
  | ok a => exact pure h

theorem ensuring {after : Exec Unit} (h : Tidies D m₀ x x' A)
    (hafter : Tidies D m₀ after after fun _ => True) :
    Tidies D m₀ (ensuring x after) (ensuring x' after) A :=
  h.attempt.bind fun _ hr => hafter.bind fun _ _ => .finish hr

theorem mapM {l : List α} (h : ∀ a ∈ l, Tidies D m₀ (g a) (g' a) B) :
    Tidies D m₀ (l.mapM g) (l.mapM g') fun _ => True := by
  induction l with
  | nil => exact pure trivial
  | cons a l ih =>
    rw [List.forall_mem_cons] at h
    rw [List.mapM_cons, List.mapM_cons]
    exact h.1.bind fun _ _ => (ih h.2).bind fun _ _ => .pure trivial

theorem observes (h : Observes x) : Tidies D m₀ x x fun _ => True := by
  refine .of fun m hm => ?_
  obtain ⟨a, debug, events, hrun, -⟩ := h m
  rw [hrun]
  exact ⟨trivial, ⟨hm.code, hm.heap, hm.fibers⟩, hm.canYield⟩

end Tidies

end Exec

end ScriptMachine
