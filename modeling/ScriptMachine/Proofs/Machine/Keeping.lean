import ScriptMachine.Proofs.Machine.Preserving

namespace ScriptMachine

/-- A flow that is in the middle of a run. -/
def Busy (m : Machine) (f : FiberId) : Prop :=
  f.index < m.fibers.size ∧ ((m.fiber f).status = .main ∨ (m.fiber f).status = .running)

/-- The main flow exists, and the flows that are active are running. -/
structure Sound (m : Machine) : Prop where
  main : 0 < m.fibers.size ∧ (m.fiber Machine.mainFiber).status = .main
  active : ∀ f ∈ m.active, f.index < m.fibers.size ∧ (m.fiber f).status = .running

/-- Native functions are never taken away, nor do they start to do something else. -/
def KeepsNatives (m m' : Machine) : Prop :=
  ∀ id : NativeId, id.index < m.heap.natives.size → id.index < m'.heap.natives.size ∧
    (m'.heap.native id).behavior = (m.heap.native id).behavior

/-- A change that no flow of control can notice. -/
structure Aside (m m' : Machine) : Prop where
  fibers : m'.fibers = m.fibers
  active : m'.active = m.active
  code : m'.code = m.code
  options : m'.options = m.options
  natives : KeepsNatives m m'

/-- A change that has nothing to do with flows and coroutines. The state of debugging changes only
if there is a debugger. -/
structure Beside (m m' : Machine) : Prop extends Aside m m' where
  coroutines : m'.heap.coroutines = m.heap.coroutines
  debug : m.debug.debugger = none → m'.debug = m.debug

/-- A change that leaves the busy flows as they were, those apart that are let go. -/
structure Keeps (p : FiberId → Prop) (m m' : Machine) : Prop where
  active : m'.active = m.active
  code : m'.code = m.code
  options : m'.options = m.options
  natives : KeepsNatives m m'
  size : m.fibers.size ≤ m'.fibers.size
  fiber : ∀ f, p f → Busy m f → m'.fiber f = m.fiber f

/-- A change as seen by all flows that are in the middle of a run. -/
def Undisturbed (m m' : Machine) : Prop := Sound m → Keeps (fun _ => True) m m'

section Relations

variable {m m' m'' : Machine} {p : FiberId → Prop}

theorem KeepsNatives.refl (m : Machine) : KeepsNatives m m := fun _ h => ⟨h, rfl⟩

theorem KeepsNatives.trans (h : KeepsNatives m m') (h' : KeepsNatives m' m'') :
    KeepsNatives m m'' := fun id hid =>
  have hid' := h id hid
  ⟨(h' id hid'.1).1, (h' id hid'.1).2.trans hid'.2⟩

instance : Std.Refl Aside := ⟨fun m => ⟨rfl, rfl, rfl, rfl, .refl m⟩⟩

instance : IsTrans Machine Aside where
  trans _ _ _ h h' := ⟨h'.fibers.trans h.fibers, h'.active.trans h.active, h'.code.trans h.code,
    h'.options.trans h.options, h.natives.trans h'.natives⟩

theorem Beside.of_heap {h : Heap} (hn : h.natives = m.heap.natives)
    (hc : h.coroutines = m.heap.coroutines) : Beside m { m with heap := h } :=
  ⟨⟨rfl, rfl, rfl, rfl, fun id hid => ⟨hn ▸ hid, by simp only [Heap.native, hn]⟩⟩, hc, fun _ => rfl⟩

instance : Std.Refl Beside := ⟨fun m => ⟨refl m, rfl, fun _ => rfl⟩⟩

instance : IsTrans Machine Beside where
  trans _ _ _ h h' := ⟨trans_of Aside h.toAside h'.toAside, h'.coroutines.trans h.coroutines,
    fun hnone => (h'.debug ((congrArg DebugState.debugger (h.debug hnone)).trans hnone)).trans
      (h.debug hnone)⟩

theorem Aside.keeps (h : Aside m m') (p : FiberId → Prop) : Keeps p m m' where
  active := h.active
  code := h.code
  options := h.options
  natives := h.natives
  size := (congrArg Array.size h.fibers).ge
  fiber f _ _ := by simp only [Machine.fiber, h.fibers]

theorem Keeps.refl (m : Machine) : Keeps p m m :=
  ⟨rfl, rfl, rfl, .refl m, le_rfl, fun _ _ _ => rfl⟩

theorem Keeps.busy (h : Keeps p m m') {f : FiberId} (hp : p f) (hf : Busy m f) : Busy m' f :=
  ⟨hf.1.trans_le h.size, by rw [h.fiber f hp hf]; exact hf.2⟩

theorem Keeps.trans (h : Keeps p m m') (h' : Keeps p m' m'') : Keeps p m m'' where
  active := h'.active.trans h.active
  code := h'.code.trans h.code
  options := h'.options.trans h.options
  natives := h.natives.trans h'.natives
  size := h.size.trans h'.size
  fiber f hp hf := (h'.fiber f hp (h.busy hp hf)).trans (h.fiber f hp hf)

instance : Std.Refl (Keeps p) := ⟨.refl⟩

instance : IsTrans Machine (Keeps p) := ⟨fun _ _ _ => .trans⟩

theorem Keeps.mono {q : FiberId → Prop} (h : Keeps p m m') (hpq : ∀ f, q f → p f) :
    Keeps q m m' := { h with fiber := fun f hq => h.fiber f (hpq f hq) }

theorem Sound.busy_main (h : Sound m) : Busy m Machine.mainFiber := ⟨h.main.1, .inl h.main.2⟩

theorem Sound.busy_active (h : Sound m) {f : FiberId} (hf : f ∈ m.active) : Busy m f :=
  ⟨(h.active f hf).1, .inr (h.active f hf).2⟩

theorem Sound.busy_current (h : Sound m) : Busy m m.currentFiber := by
  unfold Machine.currentFiber
  cases hactive : m.active with
  | nil => exact h.busy_main
  | cons f fs => exact h.busy_active (by simp [hactive])

theorem Sound.running_current (h : Sound m) (hne : m.currentFiber ≠ Machine.mainFiber) :
    (m.fiber m.currentFiber).status = .running := by
  unfold Machine.currentFiber at hne ⊢
  cases hactive : m.active with
  | nil => simp [hactive] at hne
  | cons f fs => exact (h.active f (by simp [hactive])).2

theorem Sound.of_status (hm : Sound m) (hactive : m'.active = m.active)
    (hsize : m.fibers.size ≤ m'.fibers.size)
    (hstatus : ∀ f, Busy m f → (m'.fiber f).status = (m.fiber f).status) : Sound m' where
  main := ⟨hm.main.1.trans_le hsize, (hstatus _ hm.busy_main).trans hm.main.2⟩
  active f hf := by
    rw [hactive] at hf
    exact ⟨(hm.active f hf).1.trans_le hsize, (hstatus f (hm.busy_active hf)).trans (hm.active f hf).2⟩

theorem Keeps.sound (h : Keeps (fun _ => True) m m') (hm : Sound m) : Sound m' :=
  hm.of_status h.active h.size fun f hf => by rw [h.fiber f trivial hf]

instance : Std.Refl Undisturbed := ⟨fun m _ => .refl m⟩

instance : IsTrans Machine Undisturbed where
  trans _ _ _ h h' hm := (h hm).trans (h' ((h hm).sound hm))

theorem Aside.undisturbed (h : Aside m m') : Undisturbed m m' := fun _ => h.keeps _

end Relations

end ScriptMachine
