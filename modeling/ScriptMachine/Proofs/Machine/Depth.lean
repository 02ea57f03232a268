import ScriptMachine.Proofs.Machine.Lifetimes

namespace ScriptMachine

open Exec Machine Likeness

/-- Some options, under which no flow has more frames than it may hold. -/
structure Machine.Shallow (o : Options) (m : Machine) : Prop where
  options : m.options = o
  depth : ∀ f, (m.fiber f).frames.size ≤ o.maxCallDepth

/-- A change after which the stacks are not deeper than before. -/
structure NoDeeper (m m' : Machine) : Prop where
  options : m'.options = m.options
  depth : ∀ f, (m'.fiber f).frames.size ≤ (m.fiber f).frames.size

section Shallow

variable {o : Options} {m m' : Machine} {f : FiberId} {u : Fiber → Fiber}

theorem NoDeeper.shallow (h : NoDeeper m m') (hm : m.Shallow o) : m'.Shallow o :=
  ⟨h.options.trans hm.options, fun f => (h.depth f).trans (hm.depth f)⟩

theorem NoDeeper.trans {m'' : Machine} (h : NoDeeper m m') (h' : NoDeeper m' m'') : NoDeeper m m'' :=
  ⟨h'.options.trans h.options, fun f => (h'.depth f).trans (h.depth f)⟩

theorem NoDeeper.withFiber (hu : (u (m.fiber f)).frames.size ≤ (m.fiber f).frames.size) :
    NoDeeper m (m.withFiber f u) := by
  refine ⟨rfl, fun f' => ?_⟩
  by_cases hEq : f' = f
  · subst hEq
    by_cases hf : f'.index < m.fibers.size
    · rw [fiber_withFiber_self hf]
      exact hu
    · rw [withFiber_of_le (Nat.le_of_not_lt hf)]
  · rw [fiber_withFiber_ne hEq]

theorem NoDeeper.entered (m : Machine) (f : FiberId) : NoDeeper m (m.entered f) := by
  refine ⟨?_, fun f' => ?_⟩
  · unfold Machine.entered
    dsimp only
    split <;> rfl
  · rw [Machine.fiber_entered]
    exact (NoDeeper.withFiber le_rfl).depth f'

theorem NoDeeper.exited (m : Machine) (f : FiberId) : NoDeeper m (m.exited f) := by
  refine ⟨?_, fun f' => ?_⟩
  · unfold Machine.exited
    split <;> rfl
  · rw [Machine.fiber_exited]
    exact (NoDeeper.withFiber le_rfl).depth f'

theorem NoDeeper.prepared (m : Machine) (f : FiberId) : NoDeeper m (m.prepared f) :=
  (NoDeeper.entered m f).trans (.withFiber le_rfl)

theorem NoDeeper.begun (m : Machine) (f : FiberId) : NoDeeper m (m.begun f) :=
  (NoDeeper.entered m f).trans (.withFiber le_rfl)

theorem NoDeeper.left (hu : ∀ b, (u b).frames.size ≤ b.frames.size) :
    NoDeeper m ((m.withFiber f u).exited f) :=
  (NoDeeper.withFiber (hu _)).trans (.exited _ f)

theorem NoDeeper.of_fibers (hoptions : m'.options = m.options) (hfibers : m'.fibers = m.fibers) :
    NoDeeper m m' :=
  ⟨hoptions, fun f => by rw [fiber, fiber, hfibers]⟩

theorem NoDeeper.spawned (m : Machine) (function : Value) : NoDeeper m (m.spawned function) := by
  refine ⟨rfl, fun f => ?_⟩
  simp only [Machine.fiber, Machine.spawned, Array.getD_eq_getD_getElem?, Array.getElem?_push]
  split
  · exact Nat.zero_le _
  · exact le_rfl

theorem Machine.Shallow.withFiber (hm : m.Shallow o)
    (hu : (u (m.fiber f)).frames.size ≤ o.maxCallDepth) : (m.withFiber f u).Shallow o := by
  refine ⟨hm.options, fun f' => ?_⟩
  by_cases hEq : f' = f
  · subst hEq
    by_cases hf : f'.index < m.fibers.size
    · rw [fiber_withFiber_self hf]
      exact hu
    · rw [withFiber_of_le (Nat.le_of_not_lt hf)]
      exact hm.depth f'
  · rw [fiber_withFiber_ne hEq]
    exact hm.depth f'

end Shallow

/-- A run in which no stack is too deep. -/
def bounding (o : Options) : Likeness where
  image := id
  Good := Shallow o
  Rel m m' := m.Shallow o → m'.Shallow o
  lax _ _ := False

section Bounding

variable {o : Options}

instance : (bounding o).Lawful := Reflexive.lawful {
  refl _ := id
  trans h h' hm := h' (h hm)
  good hm h := h hm
  beside _ h := (NoDeeper.of_fibers h.options h.fibers).shallow
  observed _ _ _ hm := ⟨hm.options, hm.depth⟩
  spawned {m} id _ := (NoDeeper.spawned m (.closure id)).shallow
  callback _ _ hm := ⟨hm.options, hm.depth⟩
  spent _ _ hm := ⟨hm.options, hm.depth⟩ }

instance (f : FiberId) : (bounding o).Hosts f where
  onStacks {m u} hm _ _ hframes _ := by
    refine hm.withFiber (hframes.trans (max_le (hm.depth f) ?_))
    rw [hm.options]
  parks _ _ := (NoDeeper.withFiber le_rfl).shallow
  canYield _ _ := trivial
  budget _ _ := ⟨id, fun _ => .inr rfl⟩

instance : (bounding o).Frees where
  rel h := h

instance : (bounding o).Blind where
  lax _ h := h

/-- Code that makes no stack too deep, if what serves its requests does not. -/
def Bounded {α : Type} (x : Engine → Exec α) : Prop := ∀ o E E',
  (bounding o).Agree E E' → (bounding o).Alike (x E) (x E')

theorem bounded_serve (n : Nat) (r : Request) : Bounded (serve · n r) := by
  intro o E E' hE m hm
  have hcurrent := (NoDeeper.prepared m m.currentFiber).shallow hm
  cases r with
  | call function arguments =>
    have hcall := alike_hostCall (f := m.currentFiber) hE (.inl (rfl : n = n)) function
      arguments _ hcurrent
    obtain ⟨u, hleft, hu⟩ := callFunction_leaves E n function arguments m
    refine ⟨fun _ => ?_, fun hover => .callFunction (hcall.2 id)⟩
    have hcalled := (hcall.alikeAt fun _ _ h => h).1 hcurrent
    change (callFunction E n function arguments m).2.Shallow o
    rw [hleft]
    have hend := (reportEnd_apply m.currentFiber (((hostCall E m.currentFiber n function arguments
      (m.prepared m.currentFiber)).2.withFiber m.currentFiber u).exited m.currentFiber)).2
    exact (NoDeeper.of_fibers hend.options hend.fibers).shallow
      ((NoDeeper.left fun b => (hu b).2.2).shallow hcalled)
  | resume f arguments =>
    have hbegun := (NoDeeper.begun m f).shallow hm
    have hproceed := alike_proceed (f := f) hE (.inl (rfl : n = n)) arguments
      (m.fiber f).status _ hbegun
    refine .resume (fun _ => hproceed.2) (fun _ u hu => ⟨fun _ => ?_, id⟩) (fun _ u hu => ?_) id
    · exact (NoDeeper.left fun b => (congrArg Array.size (hu b).2).le).shallow (hproceed.1 hbegun)
    · exact ((NoDeeper.entered m f).trans
        (.left fun b => (congrArg Array.size (hu b).2).le)).shallow
  | close f =>
    have hbegun := (NoDeeper.begun m f).shallow hm
    have hclose := alike_closeFrames (f := f) hE (.inl (rfl : n = n)) _ hbegun
    refine .close (fun _ => hclose.2) (fun _ u hu => ⟨fun _ => ?_, id⟩)
      (fun _ => (NoDeeper.withFiber le_rfl).shallow) id
    exact (NoDeeper.left fun b => by rw [(hu b).2]; exact Nat.zero_le _).shallow (hclose.1 hbegun)
  | invoke id site arguments method => exact alike_invoke hE site _ id m hm

variable (o) in
theorem bounding_engine (n : Nat) : (bounding o).Agree (engine n) (engine n) := by
  induction n with
  | zero => exact fun _ => .throw _
  | succ n ih => exact fun r => bounded_serve n r o _ _ ih

end Bounding

section Moments

variable {α : Type} {x : Engine → Exec α} (hx : Bounded x) {o : Options} {m m' : Machine}
  (hm : m.Shallow o) {n k : Nat} {r : Request}
include hx hm

theorem Bounded.shallow (n : Nat) : (x (engine n) m).2.Shallow o :=
  (hx o _ _ (bounding_engine o n) m hm).1 hm

theorem shallow_of_reached (h : Reached n x m k r m') : m'.Shallow o := by
  induction h with
  | outer h =>
    exact good_of_asks (c := bounding o) (fun _ => rfl) (fun _ _ => id)
      (bounding_engine o n) (fun E' hE => hx o _ _ hE m hm) id h
  | nested _ h ih =>
    exact good_of_asks (c := bounding o) (fun _ => rfl) (fun _ _ => id)
      (bounding_engine o _) (fun E' hE => bounded_serve _ _ o _ _ hE _ ih) id h

omit hx in
theorem shallow_of_mem_turns {t : Turn} (ht : t ∈ turns (engine n) n m r) : t.machine.Shallow o := by
  have hE := bounding_engine o n
  obtain h | ⟨function, arguments, rfl⟩ | ⟨f, arguments, rfl, -, -, h⟩ :=
    turns_cases (engine n) n m r
  · exact (List.not_mem_nil (h ▸ ht)).elim
  · have hprepared := (NoDeeper.prepared m m.currentFiber).shallow hm
    exact (rel_of_mem_drivenTurns hE hprepared
      (alike_beginCall hE (.inl rfl) function arguments).alike ht).1 hprepared
  · rw [h] at ht
    have hbegun := (NoDeeper.begun m f).shallow hm
    exact (rel_of_mem_drivenTurns hE hbegun
      (alike_beginResume hE (.inl rfl) arguments _) ht).1 hbegun

theorem shallow_of_userCode (h : UserCode n x m m') : m'.Shallow o := by
  cases h with
  | request h => exact shallow_of_reached hx hm h
  | turn h ht => exact shallow_of_mem_turns (shallow_of_reached hx hm h) ht

end Moments

namespace Session.Operation

/-- Whatever else the host does leaves the options as they are, and puts no frames on stacks. -/
def Modest : Operation → Prop
  | other x _ => Preserves NoDeeper x
  | _ => True

theorem noDeeper_recycle (co : CoroutineId) (function : Value) (m : Machine) :
    NoDeeper m (Exec.recycle co function m).2 := by
  obtain h | ⟨f, id, -, -, h⟩ := recycle_cases co function m <;> rw [h]
  · exact ⟨rfl, fun _ => le_rfl⟩
  · have hcleared : NoDeeper m (m.withFiber f fun b => { b with values := #[], frames := #[] }) :=
      .withFiber (Nat.zero_le _)
    refine hcleared.trans (.trans ?_ (.spawned _ (.closure id)))
    exact .of_fibers rfl rfl

theorem bounded_run {op : Operation} (hop : op.Modest) : Bounded (op.run ·) := by
  refine fun o E E' hE => alike_run hE op
    (fun co function _ m _ => ⟨(noDeeper_recycle co function m).shallow, fun _ => .inr rfl⟩) ?_
  rintro x h rfl m -
  exact ⟨(hop m).shallow, fun _ => .inr rfl⟩

theorem shallow_runAll {o : Options} {m : Machine} (hm : m.Shallow o) (n : Nat) {ops : List Operation}
    (hops : ∀ op ∈ ops, op.Modest) : (runAll n ops m).Shallow o := by
  induction ops generalizing m with
  | nil => exact hm
  | cons op ops ih =>
    rw [List.forall_mem_cons] at hops
    exact ih ((bounded_run hops.1).shallow hm n) hops.2

end Session.Operation

end ScriptMachine
