import ScriptMachine.Proofs.Machine.Asking

namespace ScriptMachine

open Exec Relation Likeness

variable {u : Fiber → Fiber}

def Status.mayBecome : Status → Status → Bool
  | .notStarted, .running | .notStarted, .dead => true
  | .running, .suspended | .running, .forceSuspended | .running, .dead => true
  | .suspended, .running | .suspended, .dead => true
  | .forceSuspended, .running | .forceSuspended, .dead => true
  | _, _ => false

theorem Status.mayBecome_of_isLeft {s : Status} (h : s.isLeft) : running.mayBecome s := by
  cases s <;> first | rfl | cases h

/-- The moves that a handle can make. Only the stacks of a dead coroutine are handed on. -/
inductive CoroutineBody.Moves (m : Machine) : CoroutineBody → CoroutineBody → Prop
  | spend (id : NativeId) : Moves m (.callback id) .spent
  | recycle (f : FiberId) (h : (m.fiber f).status = .dead) : Moves m (.fiber f) .recycled

/-- The main flow is there, and the flows that are running are those that are active. -/
structure Machine.Attuned (m : Machine) : Prop where
  main : 0 < m.fibers.size ∧ (m.fiber mainFiber).status = .main
  running : ∀ f, (m.fiber f).status = .running ↔ f ∈ m.active

/-- One step in the lives of the coroutines. Every flow and every handle makes at most one move,
and new flows have not been started. -/
structure Advance (m m' : Machine) : Prop where
  attuned : m'.Attuned
  size : m.fibers.size ≤ m'.fibers.size
  status : ∀ f, f.index < m.fibers.size →
    (m'.fiber f).status = (m.fiber f).status ∨ (m.fiber f).status.mayBecome (m'.fiber f).status
  fresh : ∀ f, m.fibers.size ≤ f.index → f.index < m'.fibers.size →
    (m'.fiber f).status = .notStarted
  handles : m.heap.coroutines.size ≤ m'.heap.coroutines.size
  handle : ∀ co : CoroutineId, co.index < m.heap.coroutines.size →
    m'.heap.coroutine co = m.heap.coroutine co ∨
      (m.heap.coroutine co).Moves m (m'.heap.coroutine co)

/-- What becomes of the coroutines over some time. -/
abbrev Lives : Machine → Machine → Prop := ReflTransGen Advance

namespace Machine

variable {m m' : Machine} {f : FiberId}

theorem lt_size_of_status (h : (m.fiber f).status ≠ .main) : f.index < m.fibers.size := by
  by_contra hf
  refine h ?_
  simp only [fiber, Array.getD_eq_getD_getElem?, Array.getElem?_eq_none (Nat.le_of_not_lt hf)]
  rfl

theorem lt_size_of_resumable (hf : (m.fiber f).status.isResumable) : f.index < m.fibers.size :=
  lt_size_of_status fun h => by rw [h] at hf; cases hf

theorem status_withFiber (hu : (u (m.fiber f)).status = (m.fiber f).status) (f' : FiberId) :
    ((m.withFiber f u).fiber f').status = (m.fiber f').status :=
  fiber_withFiber_of hu f'

theorem status_entered (m : Machine) (f f' : FiberId) :
    ((m.entered f).fiber f').status = (m.fiber f').status := by
  rw [fiber_entered, status_withFiber (by rfl)]

theorem status_exited (m : Machine) (f f' : FiberId) :
    ((m.exited f).fiber f').status = (m.fiber f').status := by
  rw [fiber_exited, status_withFiber (by rfl)]

theorem active_begun (hne : f ≠ mainFiber) : (m.begun f).active = f :: m.active :=
  (active_entered m f).trans (if_pos hne)

theorem mem_active_current (hne : m.currentFiber ≠ mainFiber) : m.currentFiber ∈ m.active := by
  unfold currentFiber at hne ⊢
  cases hactive : m.active with
  | nil => simp [hactive] at hne
  | cons f fs => simp

namespace Attuned

variable (hm : m.Attuned)
include hm

theorem lt_size (hf : f ∈ m.active) : f.index < m.fibers.size :=
  lt_size_of_status (by rw [(hm.running f).2 hf]; nofun)

theorem advance_of_same (hactive : ∀ f, f ∈ m'.active ↔ f ∈ m.active)
    (hsize : m'.fibers.size = m.fibers.size)
    (hstatus : ∀ f, (m'.fiber f).status = (m.fiber f).status)
    (hheap : m'.heap.coroutines = m.heap.coroutines) : Advance m m' where
  attuned := by
    refine ⟨?_, fun f => ?_⟩
    · rw [hsize, hstatus]
      exact hm.main
    · rw [hstatus, hactive]
      exact hm.running f
  size := hsize.ge
  status f _ := .inl (hstatus f)
  fresh f hle hlt := by omega
  handles := (congrArg Array.size hheap).ge
  handle co _ := .inl (by simp only [Heap.coroutine, hheap])

theorem advance_withFiber (hu : (u (m.fiber f)).status = (m.fiber f).status) :
    Advance m (m.withFiber f u) :=
  hm.advance_of_same (fun _ => Iff.rfl) Array.size_modify (status_withFiber hu) rfl

theorem advance_of_move (hne : f ≠ mainFiber) (hsize : m'.fibers.size = m.fibers.size)
    (hmove : (m.fiber f).status.mayBecome (m'.fiber f).status)
    (hself : (m'.fiber f).status = .running ↔ f ∈ m'.active)
    (hother : ∀ f' ≠ f, (m'.fiber f').status = (m.fiber f').status ∧ (f' ∈ m'.active ↔ f' ∈ m.active))
    (hheap : m'.heap.coroutines = m.heap.coroutines) : Advance m m' where
  attuned := by
    refine ⟨?_, fun f' => ?_⟩
    · rw [hsize, (hother _ hne.symm).1]
      exact hm.main
    · by_cases hEq : f' = f
      · rw [hEq]
        exact hself
      · rw [(hother f' hEq).1, (hother f' hEq).2]
        exact hm.running f'
  size := hsize.ge
  status f' _ := by
    by_cases hEq : f' = f
    · rw [hEq]
      exact .inr hmove
    · exact .inl (hother f' hEq).1
  fresh f' hle hlt := by omega
  handles := (congrArg Array.size hheap).ge
  handle co _ := .inl (by simp only [Heap.coroutine, hheap])

theorem ne_main (hf : (m.fiber f).status ≠ .main) : f ≠ mainFiber := by
  rintro rfl
  exact hf hm.main.2

theorem ne_main_of_resumable (hf : (m.fiber f).status.isResumable) : f ≠ mainFiber :=
  hm.ne_main fun h => by rw [h] at hf; cases hf

theorem not_mem_of_resumable (hf : (m.fiber f).status.isResumable) : f ∉ m.active := by
  intro hmem
  rw [(hm.running f).2 hmem] at hf
  cases hf

theorem advance_begun (hf : (m.fiber f).status.isResumable) : Advance m (m.begun f) := by
  have hne := hm.ne_main_of_resumable hf
  have hself : ((m.begun f).fiber f).status = .running := by
    rw [begun, fiber_withFiber_self ((size_entered m f).symm ▸ lt_size_of_resumable hf)]
  refine hm.advance_of_move hne (Array.size_modify.trans (size_entered m f)) ?_ ?_
    (fun f' hEq => ⟨?_, ?_⟩) (congrArg Heap.coroutines (heap_entered m f))
  · rw [hself]
    revert hf
    cases (m.fiber f).status <;> decide
  · simp [hself, active_begun hne]
  · rw [begun, fiber_withFiber_ne hEq, status_entered]
  · simp [active_begun hne, hEq]

theorem advance_prepared : Advance m (m.prepared m.currentFiber) := by
  refine hm.advance_of_same (fun f => ?_) (Array.size_modify.trans (size_entered m _)) (fun f => ?_)
    (congrArg Heap.coroutines (heap_entered m _))
  · have hactive : (m.prepared m.currentFiber).active = (m.entered m.currentFiber).active := rfl
    rw [hactive, active_entered]
    split
    · have hmem := mem_active_current ‹_›
      simp only [List.mem_cons, or_iff_right_iff_imp]
      rintro rfl
      exact hmem
    · exact Iff.rfl
  · rw [prepared, status_withFiber (by rfl), status_entered]

theorem advance_left {start : Machine}
    (hactive : m.active = (start.prepared start.currentFiber).active)
    (hu : ∀ b, (u b).status = b.status) :
    Advance m ((m.withFiber start.currentFiber u).exited start.currentFiber) ∧
      ((m.withFiber start.currentFiber u).exited start.currentFiber).active = start.active := by
  have hentered : m.active = (start.entered start.currentFiber).active := hactive
  have hleft := active_left hentered u
  refine ⟨hm.advance_of_same (fun f => ?_) ((size_exited _ _).trans Array.size_modify) (fun f => ?_)
    (congrArg Heap.coroutines (heap_exited _ _)), hleft⟩
  · rw [hleft, hentered, active_entered]
    split
    · have hmem := mem_active_current ‹_›
      simp only [List.mem_cons, iff_or_self]
      rintro rfl
      exact hmem
    · exact Iff.rfl
  · rw [status_exited, status_withFiber (hu _)]

theorem advance_exited {active : List FiberId} (hactive : m.active = f :: active) (hf : f ∉ active)
    (hu : Status.running.mayBecome (u (m.fiber f)).status) :
    Advance m ((m.withFiber f u).exited f) ∧ ((m.withFiber f u).exited f).active = active := by
  have hstatus := (hm.running f).2 (by simp [hactive])
  have hne := hm.ne_main (by rw [hstatus]; nofun)
  have hexited : ((m.withFiber f u).exited f).active = active := by
    have hsame : (m.withFiber f u).active = m.active := rfl
    rw [active_exited, if_pos hne, hsame, hactive, List.tail_cons]
  have hself : (((m.withFiber f u).exited f).fiber f).status = (u (m.fiber f)).status := by
    rw [status_exited, fiber_withFiber_self (lt_size_of_status (by rw [hstatus]; nofun))]
  refine ⟨hm.advance_of_move hne ((size_exited _ f).trans Array.size_modify) ?_ ?_
    (fun f' hEq => ⟨?_, ?_⟩) (congrArg Heap.coroutines (heap_exited _ f)), hexited⟩
  · rw [hstatus, hself]
    exact hu
  · rw [hself, hexited]
    refine iff_of_false (fun h => ?_) hf
    rw [h] at hu
    cases hu
  · rw [status_exited, fiber_withFiber_ne hEq]
  · rw [hexited, hactive]
    simp [hEq]

theorem advance_dead (hf : (m.fiber f).status.isResumable) (hsize : m'.fibers.size = m.fibers.size)
    (hself : (m'.fiber f).status = .dead)
    (hother : ∀ f' ≠ f, (m'.fiber f').status = (m.fiber f').status) (hactive : m'.active = m.active)
    (hheap : m'.heap.coroutines = m.heap.coroutines) : Advance m m' := by
  refine hm.advance_of_move (hm.ne_main_of_resumable hf) hsize ?_ ?_
    (fun f' hEq => ⟨hother f' hEq, by rw [hactive]⟩) hheap
  · rw [hself]
    revert hf
    cases (m.fiber f).status <;> decide
  · rw [hself, hactive]
    exact iff_of_false nofun (hm.not_mem_of_resumable hf)

theorem advance_refused (hf : (m.fiber f).status.isResumable) (hu : ∀ b, (u b).status = .dead) :
    Advance m (((m.entered f).withFiber f u).exited f) ∧
      (((m.entered f).withFiber f u).exited f).active = m.active := by
  have hne := hm.ne_main_of_resumable hf
  have hlt : f.index < (m.entered f).fibers.size := (size_entered m f).symm ▸ lt_size_of_resumable hf
  have hactive : (((m.entered f).withFiber f u).exited f).active = m.active := active_left rfl u
  refine ⟨hm.advance_dead hf ((size_exited _ f).trans (Array.size_modify.trans (size_entered m f)))
    ?_ (fun f' hEq => ?_) hactive ?_, hactive⟩
  · rw [status_exited, fiber_withFiber_self hlt, hu]
  · rw [status_exited, fiber_withFiber_ne hEq, status_entered]
  · exact congrArg Heap.coroutines ((heap_exited _ f).trans (heap_entered m f))

theorem advance_spawned (function : Value) : Advance m (m.spawned function) := by
  have hfiber (f : FiberId) (hf : f.index < m.fibers.size) :
      (m.spawned function).fiber f = m.fiber f := by
    simp only [fiber, spawned, Array.getD_eq_getD_getElem?, Array.getElem?_push, hf.ne, if_false]
  have hsize : (m.spawned function).fibers.size = m.fibers.size + 1 := Array.size_push _
  have hfresh (f : FiberId) (hf : f.index = m.fibers.size) :
      ((m.spawned function).fiber f).status = .notStarted := by
    simp only [fiber, spawned, Array.getD_eq_getD_getElem?, Array.getElem?_push, hf, if_true]
    rfl
  constructor
  case attuned =>
    refine ⟨⟨by omega, ?_⟩, fun f => ?_⟩
    · rw [hfiber mainFiber hm.main.1]
      exact hm.main.2
    · have hactive : (m.spawned function).active = m.active := rfl
      rw [hactive, ← hm.running f]
      by_cases hf : f.index < m.fibers.size
      · rw [hfiber f hf]
      · refine iff_of_false (fun h => ?_) fun h => hf (hm.lt_size ((hm.running f).1 h))
        have hlt := lt_size_of_status (f := f) (by rw [h]; simp)
        rw [hfresh f (by omega)] at h
        cases h
  case size => omega
  case status => exact fun f hf => .inl (by rw [hfiber f hf])
  case fresh => exact fun f hle hlt => hfresh f (by omega)
  case handles =>
    simp only [spawned, Heap.newCoroutine, Array.size_push]
    omega
  case handle =>
    intro co hco
    left
    simp only [spawned, Heap.newCoroutine, Heap.coroutine, Array.getD_eq_getD_getElem?,
      Array.getElem?_push, hco.ne, if_false]

theorem advance_of_handles {coroutines : Array CoroutineBody}
    (hsize : m.heap.coroutines.size ≤ coroutines.size)
    (hhandle : ∀ co : CoroutineId, co.index < m.heap.coroutines.size →
      coroutines.getD co.index .spent = m.heap.coroutine co ∨
        (m.heap.coroutine co).Moves m (coroutines.getD co.index .spent)) :
    Advance m { m with heap := { m.heap with coroutines } } where
  attuned := ⟨hm.main, hm.running⟩
  size := le_rfl
  status _ _ := .inl rfl
  fresh _ hle hlt := absurd hlt (Nat.not_lt.2 hle)
  handles := hsize
  handle := hhandle

theorem advance_callback (id : NativeId) :
    Advance m { m with heap := (m.heap.newCoroutine (.callback id)).2 } := by
  refine hm.advance_of_handles ?_ fun co hco => .inl ?_
  · rw [Array.size_push]
    omega
  · simp only [Heap.coroutine, Array.getD_eq_getD_getElem?, Array.getElem?_push, hco.ne, if_false]

theorem advance_setCoroutine {co : CoroutineId} {body : CoroutineBody}
    (h : (m.heap.coroutine co).Moves m body) :
    Advance m { m with heap := m.heap.setCoroutine co body } := by
  refine hm.advance_of_handles ?_ fun co' hco => ?_
  · rw [Array.size_setIfInBounds]
  · rw [Array.getD_eq_getD_getElem?, Array.getElem?_setIfInBounds]
    by_cases hEq : co.index = co'.index
    · obtain rfl : co = co' := by cases co; cases co'; exact congrArg _ hEq
      rw [if_pos rfl, if_pos hco]
      exact .inr h
    · rw [if_neg hEq, ← Array.getD_eq_getD_getElem?]
      exact .inl rfl

end Attuned

end Machine

theorem Lives.attuned {m m' : Machine} (h : Lives m m') (hm : m.Attuned) : m'.Attuned := by
  induction h with
  | refl => exact hm
  | tail _ h _ => exact h.attuned

/-- What is told of a flow over some time, and is true whenever coroutines move as they can. -/
class Fiber.Lasting (P : Fiber → Fiber → Prop) : Prop where
  trans {b b' b''} : P b b' → P b' b'' → P b b''
  same {b b'} : b'.status = b.status → b'.closeError = b.closeError → P b b'
  moved {b b'} : b.status ≠ .dead → b'.status ≠ .notStarted → P b b'
  fresh {b b'} : b.status = .main → b'.closeError = .nil → P b b'

instance : Fiber.Lasting fun _ _ => True :=
  ⟨fun _ _ => trivial, fun _ _ => trivial, fun _ _ => trivial, fun _ _ => trivial⟩

variable {P : Fiber → Fiber → Prop} {m m' m'' : Machine} {f : FiberId}

def Machine.Follows (P : Fiber → Fiber → Prop) (m m' : Machine) : Prop := ∀ f, P (m.fiber f) (m'.fiber f)

theorem Status.ne_dead_of_resumable {s : Status} (h : s.isResumable) : s ≠ .dead := by
  rintro rfl
  cases h

namespace Machine.Follows

variable [Fiber.Lasting P]

theorem refl (m : Machine) : Follows P m m := fun _ => Fiber.Lasting.same rfl rfl

theorem trans (h : Follows P m m') (h' : Follows P m' m'') : Follows P m m'' :=
  fun f => Fiber.Lasting.trans (h f) (h' f)

theorem of_fibers (h : m'.fibers = m.fibers) : Follows P m m' := by
  intro f
  rw [show m'.fiber f = m.fiber f by simp only [fiber, h]]
  exact refl m f

theorem withFiber (hu : P (m.fiber f) (u (m.fiber f))) : Follows P m (m.withFiber f u) := by
  intro f'
  by_cases hEq : f' = f
  · subst hEq
    by_cases hf : f'.index < m.fibers.size
    · rw [fiber_withFiber_self hf]
      exact hu
    · rw [withFiber_of_le (Nat.le_of_not_lt hf)]
      exact refl m f'
  · rw [fiber_withFiber_ne hEq]
    exact refl m f'

theorem entered (m : Machine) (f : FiberId) : Follows P m (m.entered f) := by
  intro f'
  rw [fiber_entered]
  exact withFiber (Fiber.Lasting.same rfl rfl) f'

theorem exited (m : Machine) (f : FiberId) : Follows P m (m.exited f) := by
  intro f'
  rw [fiber_exited]
  exact withFiber (Fiber.Lasting.same rfl rfl) f'

theorem prepared (m : Machine) (f : FiberId) : Follows P m (m.prepared f) :=
  (entered m f).trans (withFiber (Fiber.Lasting.same rfl rfl))

theorem begun (hf : (m.fiber f).status.isResumable) : Follows P m (m.begun f) := by
  refine (entered m f).trans (withFiber (Fiber.Lasting.moved ?_ nofun))
  rw [status_entered]
  exact Status.ne_dead_of_resumable hf

theorem left (hf : (m.fiber f).status ≠ .dead) (hu : (u (m.fiber f)).status ≠ .notStarted) :
    Follows P m ((m.withFiber f u).exited f) :=
  (withFiber (Fiber.Lasting.moved hf hu)).trans (exited _ f)

theorem spawned (m : Machine) (function : Value) : Follows P m (m.spawned function) := by
  intro f
  simp only [Machine.fiber, Machine.spawned, Array.getD_eq_getD_getElem?, Array.getElem?_push]
  split
  · rename_i h
    rw [h, Array.getElem?_eq_none le_rfl]
    exact Fiber.Lasting.fresh rfl rfl
  · exact Fiber.Lasting.same rfl rfl

end Machine.Follows

/-- What becomes of the coroutines and of every flow over some time. -/
structure Trails (P : Fiber → Fiber → Prop) (m m' : Machine) : Prop where
  lives : Lives m m'
  follows : m.Follows P m'

namespace Trails

variable [Fiber.Lasting P]

theorem refl (m : Machine) : Trails P m m := ⟨.refl, .refl m⟩

theorem trans (h : Trails P m m') (h' : Trails P m' m'') : Trails P m m'' :=
  ⟨h.lives.trans h'.lives, h.follows.trans h'.follows⟩

omit [Fiber.Lasting P] in
theorem single (h : Advance m m') (hP : m.Follows P m') : Trails P m m' := ⟨.single h, hP⟩

end Trails

/-- A run that starts at one machine and may come to be past some others. -/
def tracking (P : Fiber → Fiber → Prop) (start : Machine) (past : Set Machine) : Likeness where
  image := id
  Good m := m.Attuned ∧ Trails P start m
  Rel m m' := m'.active = m.active ∧ Trails P m m'
  lax _ _ := False
  Over m := ∃ p ∈ past, Trails P p m

section Tracking

variable [Fiber.Lasting P] {start : Machine} {past : Set Machine}

theorem reflexive_tracking : (tracking P start past).Reflexive where
  refl m := ⟨rfl, .refl m⟩
  trans h h' := ⟨h'.1.trans h.1, h.2.trans h'.2⟩
  good hm h := ⟨h.2.lives.attuned hm.1, hm.2.trans h.2⟩
  past h := fun ⟨p, hp, hpast⟩ => ⟨p, hp, hpast.trans h.2⟩
  beside hm h := by
    refine ⟨h.active, .single (hm.1.advance_of_same (fun f => ?_) ?_ (fun f => ?_) h.coroutines)
      (.of_fibers h.fibers)⟩
    · rw [h.active]
    · rw [h.fibers]
    · simp only [Machine.fiber, h.fibers]
  observed _ _ hm :=
    ⟨rfl, .single (hm.1.advance_of_same (fun _ => Iff.rfl) rfl (fun _ => rfl) rfl) (.of_fibers rfl)⟩
  spawned id hm := ⟨rfl, .single (hm.1.advance_spawned (.closure id)) (.spawned _ _)⟩
  callback id hm := ⟨rfl, .single (hm.1.advance_callback id) (.of_fibers rfl)⟩
  spent hm h := ⟨rfl, .single (hm.1.advance_setCoroutine (h ▸ .spend _)) (.of_fibers rfl)⟩

instance : (tracking P start past).Lawful := reflexive_tracking.lawful

instance (f : FiberId) : (tracking P start past).Hosts f where
  onStacks hm hu _ _ := ⟨rfl, .single (hm.1.advance_withFiber hu.status)
    (.withFiber (Fiber.Lasting.same hu.status hu.closeError))⟩
  parks _ hm := ⟨rfl, .single (hm.1.advance_withFiber rfl) (.withFiber (Fiber.Lasting.same rfl rfl))⟩
  canYield _ _ := trivial
  budget m _ := ⟨⟨rfl, .refl m⟩, fun _ => .inr rfl⟩

instance : (tracking P start past).Frees where
  rel h := h

instance : (tracking P start past).Blind where
  lax _ h := h

variable {E E' : Engine} (hE : (tracking P start past).Agree E E') (n : Nat) {m : Machine}
  (hm : (tracking P start past).Good m)
include hE hm

omit hE in
theorem good_prepared : (tracking P start past).Good (m.prepared m.currentFiber) :=
  ⟨hm.1.advance_prepared.attuned, hm.2.trans (.single hm.1.advance_prepared (.prepared m _))⟩

theorem callFunction_trails (function : Value) (arguments : List Value) :
    (tracking P start past).Rel m (callFunction E n function arguments m).2 ∧
      Trails P (hostCall E m.currentFiber n function arguments (m.prepared m.currentFiber)).2
        (callFunction E n function arguments m).2 := by
  obtain ⟨u, hleft, hu⟩ := callFunction_leaves E n function arguments m
  obtain ⟨hactive, htrails⟩ := ((alike_hostCall (f := m.currentFiber) hE
    (.inl (rfl : n = n)) function arguments).alike _ (good_prepared hm)).1
  obtain ⟨hexited, hsame⟩ := (htrails.lives.attuned (good_prepared hm).1).advance_left hactive fun b =>
    (hu b).1.status
  have hcut : Trails P _ _ := .single hexited (.trans (.withFiber (Fiber.Lasting.same
    (hu _).1.status (hu _).1.closeError)) (.exited _ m.currentFiber))
  have hend := Lawful.beside (c := tracking P start past)
    ⟨hexited.attuned, ((good_prepared hm).2.trans htrails).trans hcut⟩ (reportEnd_apply m.currentFiber _).2
  rw [← hleft] at hend
  have hafter := hcut.trans hend.2
  exact ⟨⟨hend.1.trans hsame, (Trails.single hm.1.advance_prepared (.prepared m _)).trans
    (htrails.trans hafter)⟩, hafter⟩

theorem tracking_callFunction (function : Value) (arguments : List Value) :
    (tracking P start past).AlikeAt m (callFunction E n function arguments)
      (callFunction E' n function arguments) := by
  obtain ⟨hrel, hafter⟩ := callFunction_trails hE n hm function arguments
  exact ⟨hrel, fun hover => .callFunction ((alike_hostCall (f := m.currentFiber) hE
    (.inl rfl) function arguments _ (good_prepared hm)).2 fun ⟨p, hp, h⟩ =>
      hover ⟨p, hp, h.trans hafter⟩)⟩

omit hE in
theorem good_begun (hf : (m.fiber f).status.isResumable) : (tracking P start past).Good (m.begun f) :=
  ⟨(hm.1.advance_begun hf).attuned, hm.2.trans (.single (hm.1.advance_begun hf) (.begun hf))⟩

omit hE in
theorem tracking_inside (hf : (m.fiber f).status.isResumable) {m' : Machine}
    (hrel : (tracking P start past).Rel (m.begun f) m')
    (hu : Status.running.mayBecome (u (m'.fiber f)).status) :
    (tracking P start past).Rel m ((m'.withFiber f u).exited f) ∧
      Trails P m' ((m'.withFiber f u).exited f) := by
  obtain ⟨hactive, htrails⟩ := hrel
  have hattuned := htrails.lives.attuned (good_begun hm hf).1
  rw [Machine.active_begun (hm.1.ne_main_of_resumable hf)] at hactive
  obtain ⟨hexited, hleft⟩ := hattuned.advance_exited hactive (hm.1.not_mem_of_resumable hf) hu
  -- The flow is running all the while, so it has not ended before.
  have hrunning : (m'.fiber f).status = .running :=
    (hattuned.running f).2 (by rw [hactive]; exact List.mem_cons_self)
  have hlast : Trails P m' ((m'.withFiber f u).exited f) := by
    refine .single hexited (.left (by rw [hrunning]; nofun) fun h => ?_)
    rw [h] at hu
    cases hu
  exact ⟨⟨hleft, (Trails.single (hm.1.advance_begun hf) (.begun hf)).trans (htrails.trans hlast)⟩, hlast⟩

theorem resume_trails {arguments : List Value} (hf : (m.fiber f).status.isResumable)
    (haccepts : (m.fiber f).status.accepts arguments) :
    Trails P (proceed E f n arguments (m.fiber f).status (m.begun f)).2
      (Exec.resume E n f arguments m).2 := by
  have hrun := runResumed_of_accepts (E := E) (f := f) (n := n) (m := m) haccepts
  have hrel := (alike_proceed (f := f) hE (.inl (rfl : n = n)) arguments
    (m.fiber f).status _ (good_begun hm hf)).1
  obtain ⟨u, hleft, hu⟩ := concludeResume_isLeft f
    (proceed E f n arguments (m.fiber f).status (m.begun f)).1
    (proceed E f n arguments (m.fiber f).status (m.begun f)).2
  rw [congrArg Prod.snd (resume_apply hf _ hrun), hleft]
  exact (tracking_inside hm hf hrel (Status.mayBecome_of_isLeft (hu _).1)).2

theorem tracking_resume (f : FiberId) (arguments : List Value) :
    (tracking P start past).AlikeAt m (Exec.resume E n f arguments) (Exec.resume E' n f arguments) := by
  have hproceed (hf : (m.fiber f).status.isResumable) := alike_proceed (f := f) hE
    (.inl (rfl : n = n)) arguments (m.fiber f).status _ (good_begun hm hf)
  refine .resume (fun hf => (hproceed hf).2) (fun hf u hu => ?_) (fun hf u hu => ?_) ⟨rfl, .refl m⟩
  · obtain ⟨hrel, hlast⟩ := tracking_inside hm hf (hproceed hf).1
      (Status.mayBecome_of_isLeft (hu _).1)
    exact ⟨hrel, fun ⟨p, hp, h⟩ => ⟨p, hp, h.trans hlast⟩⟩
  · obtain ⟨hrefused, hactive⟩ := hm.1.advance_refused hf fun b => (hu b).1
    refine ⟨hactive, .single hrefused (.trans (.entered m f) (.left ?_ ?_))⟩
    · rw [Machine.status_entered]
      exact Status.ne_dead_of_resumable hf
    · rw [(hu _).1]
      nofun

theorem tracking_close (f : FiberId) :
    (tracking P start past).AlikeAt m (Exec.close E n f) (Exec.close E' n f) := by
  have hframes (hf : (m.fiber f).status.isResumable) := alike_closeFrames (f := f) hE
    (.inl (rfl : n = n)) _ (good_begun hm hf)
  refine .close (fun hf => (hframes hf).2) (fun hf u hu => ?_) (fun hf => ?_) ⟨rfl, .refl m⟩
  · obtain ⟨hrel, hlast⟩ := tracking_inside hm hf (hframes hf).1 (u := u) (by rw [(hu _).1]; rfl)
    exact ⟨hrel, fun ⟨p, hp, h⟩ => ⟨p, hp, h.trans hlast⟩⟩
  · refine ⟨rfl, .single (hm.1.advance_dead hf Array.size_modify ?_ (fun f' hEq => ?_) rfl rfl)
      (.withFiber (Fiber.Lasting.moved (Status.ne_dead_of_resumable hf) nofun))⟩
    · rw [Machine.fiber_withFiber_self (Machine.lt_size_of_resumable hf)]
    · rw [Machine.fiber_withFiber_ne hEq]

omit hm in
/-- Requests are served alike, and no coroutine lives another way than it can. -/
theorem tracking_serve : (tracking P start past).Agree (serve E n) (serve E' n) := by
  intro request m hm
  cases request with
  | call function arguments => exact tracking_callFunction hE n hm function arguments
  | resume f arguments => exact tracking_resume hE n hm f arguments
  | close f => exact tracking_close hE n hm f
  | invoke id site arguments method => exact alike_invoke hE site _ id m hm

omit hE hm in
variable (P start past) in
theorem tracking_engine : (tracking P start past).Agree (engine n) (engine n) := by
  induction n with
  | zero => exact fun _ => .throw _
  | succ n ih => exact tracking_serve ih n

end Tracking

/-- Code that makes the coroutines move only as they can, if what serves its requests does. -/
def Heeds {α : Type} (P : Fiber → Fiber → Prop) (x : Engine → Exec α) : Prop := ∀ start past E E',
  (tracking P start past).Agree E E' → (tracking P start past).Alike (x E) (x E')

/-- A run of which nothing more is told than how the coroutines live. -/
abbrev living : Machine → Set Machine → Likeness := tracking fun _ _ => True

theorem engine_lives (hm : m.Attuned) (n : Nat) (r : Request) :
    (engine n r m).2.active = m.active ∧ Lives m (engine n r m).2 :=
  have hrel := (tracking_engine (fun _ _ => True) m ∅ n r m ⟨hm, .refl m⟩).1
  ⟨hrel.1, hrel.2.lives⟩

variable [Fiber.Lasting P]

theorem heeds_serve (n : Nat) (r : Request) : Heeds P (serve · n r) :=
  fun _ _ _ _ hE => tracking_serve hE n r

namespace Heeds

variable {α : Type} {x : Engine → Exec α} (hx : Heeds P x) (hm : m.Attuned) {n k : Nat} {r : Request}
include hx hm

theorem rel (n : Nat) : (x (engine n) m).2.active = m.active ∧ Trails P m (x (engine n) m).2 :=
  (hx m ∅ _ _ (tracking_engine P m ∅ n) m ⟨hm, .refl m⟩).1

/-- Requests come up between the start and the end of a run, and are served before its end. -/
theorem of_asks (h : Asks x (engine n) m r m') :
    m'.Attuned ∧ Trails P m m' ∧ Trails P (engine n r m').2 (x (engine n) m).2 := by
  have hgood : m'.Attuned ∧ Trails P m m' := good_of_asks (c := tracking P m ∅)
    (fun _ => rfl) (fun _ _ => id) (tracking_engine P m ∅ n)
    (fun E' hE => hx _ _ _ _ hE m ⟨hm, .refl m⟩) (fun ⟨_, hp, _⟩ => hp) h
  obtain ⟨E', honly, hne⟩ := h
  refine ⟨hgood.1, hgood.2, ?_⟩
  -- Elsewhere the two engines are the same, so the answer is given before the end.
  by_contra hlater
  have hagree : (tracking P m {(engine n r m').2}).Agree (engine n) E' := by
    refine fun r' s hs => ⟨(tracking_engine P _ _ n r' s hs).1, fun hover => .inr ?_⟩
    by_contra hdiff
    obtain ⟨rfl, rfl⟩ := honly r' s hdiff
    exact hover ⟨_, rfl, .refl _⟩
  have halike := hx _ _ _ _ hagree m ⟨hm, .refl m⟩
  rcases halike.2 fun ⟨_, hp, hpast⟩ => hlater (hp ▸ hpast) with ⟨_, _, hlax⟩ | hsame
  · exact hlax
  · exact hne hsame

/-- What holds of the requests of a run holds of those that come up in them. -/
theorem of_reached (h : Reached n x m k r m') :
    m'.Attuned ∧ Trails P m m' ∧ Trails P (engine k r m').2 (x (engine n) m).2 := by
  induction h with
  | outer h => exact hx.of_asks hm h
  | nested _ h ih =>
    obtain ⟨hattuned, hbefore, hafter⟩ := (heeds_serve (P := P) _ _).of_asks ih.1 h
    exact ⟨hattuned, ih.2.1.trans hbefore, hafter.trans ih.2.2⟩

end Heeds

end ScriptMachine
