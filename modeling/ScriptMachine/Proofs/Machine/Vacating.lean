import ScriptMachine.Proofs.Machine.Tending

namespace ScriptMachine

open Exec

variable {R : Machine → Machine → Prop} {f : FiberId} {E : Engine}

theorem Exec.Preserves.first [IsTrans Machine R] {β : Type} {p : Prop} [Decidable p] {y : Exec Unit}
    {g : Unit → Exec β} (hy : Preserves R y) (hg : ∀ u, Preserves R (g u)) :
    Preserves R (if p then y >>= g else g ()) := .ite (hy.bind hg) (hg ())

section Relations

variable {R : Machine → Machine → Prop} {α : Type} {x : Exec α}

theorem Exec.Preserves.triple [IsTrans Machine R] (h : Preserves R x) (m : Machine) :
    Triple (R m) x (fun _ => R m) fun _ => R m :=
  .of_state (fun m' hm _ => IsTrans.trans _ _ _ hm (h m')) fun m' hm _ => IsTrans.trans _ _ _ hm (h m')

theorem Exec.Preserves.of_triple [Std.Refl R]
    (h : ∀ m, Triple (R m) x (fun _ => R m) fun _ => R m) : Preserves R x := by
  intro m
  have hrun := h m m (refl m)
  rcases hx : x m with ⟨s | a, m'⟩ <;> rw [hx] at hrun <;> exact hrun

end Relations

namespace Frame

variable {frame : Frame} {i j : Nat}

theorem isSome_local?_setLocal {cell : Option CellId} (h : ((frame.setLocal i cell).local? j).isSome) :
    j = i ∧ cell.isSome ∨ j ≠ i ∧ (frame.local? j).isSome := by
  rw [local?, setLocal, Array.getElem?_setIfInBounds] at h
  by_cases hij : i = j
  · rw [if_pos hij] at h
    split at h
    · exact .inl ⟨hij.symm, h⟩
    · cases h
  · rw [if_neg hij] at h
    exact .inr ⟨fun hji => hij hji.symm, h⟩

theorem isSome_local?_reserve (h : ((frame.reserve i).local? j).isSome) : (frame.local? j).isSome := by
  unfold reserve at h
  split at h
  · exact h
  · rw [local?, Array.getElem?_append] at h
    split at h
    · exact h
    · rw [Array.getElem?_replicate] at h
      split at h <;> cases h

theorem isSome_local?_clear {first last : Int32} (h : ((frame.clear first last).local? j).isSome) :
    (frame.local? j).isSome := by
  unfold clear at h
  split at h
  · exact h
  · rw [local?, Array.getElem?_mapIdx] at h
    rw [local?]
    cases hcell : frame.locals[j]? with
    | none =>
      rw [hcell] at h
      cases h
    | some cell =>
      rw [hcell] at h
      change (if _ then none else cell).isSome at h
      split at h
      · cases h
      · exact h

end Frame

/-- A slot of a call under way holds a variable. The place is how many calls are further out, and the
slot in the frame. -/
def Fiber.Holds (b : Fiber) (place : Nat × Nat) : Prop :=
  ∃ frame, b.frames[place.1]? = some frame ∧ (frame.local? place.2).isSome

/-- A change of one's own flow that puts no variable into a slot. -/
def Vacates (f : FiberId) (m m' : Machine) : Prop :=
  Sound m → Busy m f → Sound m' ∧ Busy m' f ∧
    ∀ place, (m'.fiber f).Holds place → (m.fiber f).Holds place

instance (f : FiberId) : Std.Refl (Vacates f) := ⟨fun _ hm hf => ⟨hm, hf, fun _ => id⟩⟩

instance (f : FiberId) : IsTrans Machine (Vacates f) where
  trans _ _ _ h h' hm hf := by
    obtain ⟨hm', hf', hholds⟩ := h hm hf
    obtain ⟨hm'', hf'', hholds'⟩ := h' hm' hf'
    exact ⟨hm'', hf'', fun place hplace => hholds place (hholds' place hplace)⟩

theorem Still.vacates {m m' : Machine} (h : Still f m m') : Vacates f m m' := by
  intro hm hf
  obtain ⟨hm', hf', hframes⟩ := h hm hf
  refine ⟨hm', hf', fun place hplace => ?_⟩
  rw [Fiber.Holds, hframes] at hplace
  exact hplace

section Vacating

variable {f : FiberId} {α : Type}

theorem vacates_of_still {y : Exec α} (h : Preserves (Still f) y) : Preserves (Vacates f) y :=
  h.mono fun _ _ => Still.vacates

theorem vacates_modifyFiber {u : Fiber → Fiber}
    (hu : ∀ b, SameRole b (u b) ∧ ∀ place, (u b).Holds place → b.Holds place) :
    Preserves (Vacates f) (modifyFiber f u) := by
  intro m hm hf
  have halone : Alone f m (m.withFiber f u) := .withFiber hf.1 (hu _).1
  refine ⟨halone.sound hm, halone.busy hf, fun place hplace => ?_⟩
  change ((m.withFiber f u).fiber f).Holds place at hplace
  rw [Machine.fiber_withFiber_self hf.1] at hplace
  exact (hu _).2 place hplace

theorem vacates_modifyFrame {g : Frame → Frame}
    (hg : ∀ frame i, ((g frame).local? i).isSome → (frame.local? i).isSome) :
    Preserves (Vacates f) (modifyFrame f g) := by
  refine vacates_modifyFiber fun b => ⟨.stacks .., ?_⟩
  rintro ⟨depth, slot⟩ ⟨frame, hframe, hlocal⟩
  rw [Array.getElem?_modify] at hframe
  split at hframe
  · obtain ⟨before, hbefore, rfl⟩ := Option.map_eq_some_iff.1 hframe
    exact ⟨before, hbefore, hg before slot hlocal⟩
  · exact ⟨frame, hframe, hlocal⟩

theorem vacates_pushFrame {frame : Frame} (hframe : frame.locals = #[]) :
    Preserves (Vacates f) (pushFrame f frame) := by
  refine vacates_modifyFiber fun b => ⟨.stacks .., ?_⟩
  rintro ⟨depth, slot⟩ ⟨top, htop, hlocal⟩
  rw [Array.getElem?_push] at htop
  split at htop
  · obtain rfl := Option.some.inj htop
    rw [Frame.local?, hframe] at hlocal
    cases hlocal
  · exact ⟨top, htop, hlocal⟩

theorem vacates_popped (u : Fiber → Array Value) : Preserves (Vacates f)
    (modifyFiber f fun b => { b with frames := b.frames.pop, values := u b }) := by
  refine vacates_modifyFiber fun b => ⟨.stacks .., ?_⟩
  rintro ⟨depth, slot⟩ ⟨top, htop, hlocal⟩
  rw [Array.getElem?_pop] at htop
  split at htop
  · exact ⟨top, htop, hlocal⟩
  · cases htop

theorem vacates_popFrame : Preserves (Vacates f) (popFrame f) :=
  .bind (vacates_of_still still_topFrame) fun _ => .bind (vacates_popped _) fun _ => .pure _

theorem vacates_clearSlots (i : Instruction) : Preserves (Vacates f) (clearSlots f i) :=
  .bind (.bind (vacates_of_still still_topFrame) fun _ => .pure _) fun _ =>
    vacates_modifyFrame fun _ _ h => Frame.isSome_local?_clear h

theorem vacates_beginFunction (i : Instruction) : Preserves (Vacates f) (beginFunction f i) := by
  refine .bind (.bind (vacates_of_still still_topFrame) fun _ => .pure _) fun _ =>
    vacates_modifyFrame fun frame j h => ?_
  rw [Frame.local?] at h
  change ((Array.replicate i.count none)[j]?.join).isSome at h
  rw [Array.getElem?_replicate] at h
  split at h <;> cases h

section Calls

theorem vacates_replaceFrame (argc : Nat) (setup : CallSetup) :
    Preserves (Vacates f) (replaceFrame f argc setup) :=
  .bind (.read _) fun _ => .ite (.bind (vacates_of_still (still_popMany _)) fun _ =>
    .bind vacates_popFrame fun _ => .bind (vacates_of_still still_popArguments) fun _ =>
      .bind (vacates_of_still (still_pushAll _)) fun _ => .pure _) (.pure _)

theorem vacates_settle {call : Nat → CallSetup → Exec Resumption}
    (hcall : ∀ argc setup, Preserves (Vacates f) (call argc setup)) (returnTo : Option Nat)
    (isEntry : Bool) : Preserves (Vacates f) (settle call f returnTo isEntry) :=
  .of_triple fun m => settle_of_still (fun h => (vacates_of_still h).triple m)
    (fun argc setup => (hcall argc setup).triple m) _ _

variable {E : Engine} (hE : Quiet E)
include hE

theorem vacates_request (request : Request) : Preserves (Vacates f) (E request) :=
  vacates_of_still (still_of_undisturbed (hE request))

theorem vacates_performCall (n argc : Nat) (setup : CallSetup) :
    Preserves (Vacates f) (performCall E f n argc setup) :=
  .of_triple fun m => performCall_of_still (fun h => (vacates_of_still h).triple m) (fun _ h => h)
    (fun h => (vacates_of_still h).triple m) hE
    (fun argc setup => (vacates_replaceFrame argc setup).triple m)
    (fun _ h => (vacates_pushFrame h).triple m) (fun u => (vacates_popped u).triple m) n argc setup

end Calls

/-- A relation that holds of changes which are not about the frames of a flow, and of calls. -/
structure Bears (R : Machine → Machine → Prop) (E : Engine) (f : FiberId) : Prop where
  still : ∀ {α : Type} {y : Exec α}, Preserves (Still f) y → Preserves R y
  call : ∀ n argc setup, Preserves R (performCall E f n argc setup)

theorem bears_vacates (hE : Quiet E) : Bears (Vacates f) E f :=
  ⟨vacates_of_still, vacates_performCall hE⟩

end Vacating

/-- The instructions that change the variables of a frame, apart from what they call. -/
def Instruction.isAboutVariables (i : Instruction) : Bool :=
  match i.op with
  | .closure | .storeLocal | .beginFunction | .bindArguments | .enter | .leave | .exit | .clean | .ret => true
  | _ => false

theorem Bears.execute [Std.Refl R] [IsTrans Machine R] (hR : Bears R E f) (fuel ip : Nat)
    (hE : Quiet E) {i : Instruction} (hi : i.isAboutVariables = false) :
    Preserves R (execute E f fuel ip i) := by
  refine .of_triple fun m => ?_
  have hstill {α : Type} {y : Exec α} (hy : Preserves (Still f) y) := (hR.still hy).triple m
  by_cases hplain : i.isPlain
  · exact (moves_of_still hstill).execute_single hplain fun _ _ hm => hm
  by_cases hoperator : i.isOperator
  · exact (calls_of_still hstill (fun n argc setup => (hR.call n argc setup).triple m) fuel ip).execute
      (fun _ _ => trivial) hoperator
  have hasks := asks_of_still hstill hE
  unfold Exec.execute
  cases hop : i.op with
  | call | methodCall =>
    exact .bind ((hR.call fuel _ _).triple m) fun _ => .pure fun _ h => h
  | prepareIterator => exact hasks.thenNext (hasks.prepareIterator (k := 0))
  | _ =>
    simp [Instruction.isPlain, Instruction.isOperator, Instruction.isScoped,
      Instruction.isAboutVariables, hop] at hi hplain hoperator

end ScriptMachine
