import ScriptMachine.Proofs.Machine.Stacks

namespace ScriptMachine

variable {P : Machine → Prop} {p : Prop} {g : Fiber → Fiber} {f : FiberId}

open Exec

theorem Exec.Triple.modifyFiber {Q : Unit → Machine → Prop} {S : Stop → Machine → Prop}
    (h : ∀ m, P m → Q () (m.withFiber f g)) : Triple P (modifyFiber f g) Q S := h

theorem aside_peek (f : FiberId) (depth : Nat) : Preserves Aside (peek f depth) :=
  .bind (.readFiber _ _) fun _ => .ite (.readFiber _ _) (.internal _)

theorem Exec.Triple.peek_top {S : Stop → Machine → Prop}
    (h : ∀ m, P m → S (.fault (.internal "value stack peek(0) past the bottom")) m) :
    Triple P (peek f 0) (fun v m => (m.fiber f).values.back? = some v ∧ P m) S := by
  intro m hm
  rw [peek_eq]
  by_cases hsize : 0 < (m.fiber f).values.size
  · rw [if_pos hsize]
    refine ⟨?_, hm⟩
    rw [Array.back?_eq_getElem?, Array.getD_eq_getD_getElem?, Nat.sub_zero,
      Array.getElem?_eq_getElem (by omega), Option.getD_some]
  · rw [if_neg hsize]
    exact h m hm

theorem aside_topFrame (f : FiberId) : Preserves Aside (topFrame f) := by
  refine .bind (.readFiber _ _) fun frame => ?_
  cases frame with
  | none => exact .internal _
  | some frame => exact .pure _

theorem safe_peek (f : FiberId) (depth : Nat) : Safe (peek f depth) :=
  .bind (.readFiber _ _) fun _ => .ite (.readFiber _ _) (.internal _)

theorem safe_topFrame (f : FiberId) : Safe (topFrame f) := by
  refine .bind (.readFiber _ _) fun frame => ?_
  cases frame with
  | none => exact .internal _
  | some frame => exact .pure _

/-- Where an instruction runs: a flow, the machine at the start of the instruction, the frame on
top and the others below it. The frames and the values of the flow are only looked at if they are
told to be. -/
structure Scene where
  fiber : FiberId
  start : Machine
  frame : Frame
  outer : List Frame
  framed : Prop
  valued : Prop

/-- All values below the base of the top frame are as at the start, and at least so many stand
above it. -/
structure Scene.Stands (c : Scene) (k : Nat) (b : Fiber) : Prop where
  below : ∀ i < c.frame.base, b.values[i]? = (c.start.fiber c.fiber).values[i]?
  height : c.frame.base + k ≤ b.values.size
  savedIp : b.savedIp = (c.start.fiber c.fiber).savedIp

/-- What holds in the middle of an instruction. -/
structure Scene.At (c : Scene) (k : Nat) (m : Machine) : Prop where
  alone : Alone c.fiber c.start m
  sound : Sound m
  busy : Busy m c.fiber
  calls : c.framed → ∃ top, (m.fiber c.fiber).calls = top :: c.outer ∧ c.frame.Like top
  stands : c.valued → c.Stands k (m.fiber c.fiber)

/-- The operation needs so many values above the base and leaves so many if it succeeds. -/
def Scene.Uses {α : Type} (c : Scene) (k k' : Nat) (x : Exec α) : Prop :=
  Triple (c.At k) x (fun _ => c.At k') (fun _ => c.At 0)

namespace Scene

variable {c : Scene} {k k' j : Nat} {m m' : Machine} {α β : Type}

theorem Stands.mono {b : Fiber} (h : c.Stands k b) (hj : j ≤ k) : c.Stands j b :=
  { h with height := (Nat.add_le_add_left hj _).trans h.height }

theorem At.mono (h : c.At k m) (hj : j ≤ k) : c.At j m :=
  { h with stands := fun hs => (h.stands hs).mono hj }

theorem At.withFiber (h : c.At k m) (role : SameRole (m.fiber c.fiber) (g (m.fiber c.fiber)))
    (calls : (∃ top, (m.fiber c.fiber).calls = top :: c.outer ∧ c.frame.Like top) →
      ∃ top, (g (m.fiber c.fiber)).calls = top :: c.outer ∧ c.frame.Like top)
    (stands : c.Stands k (m.fiber c.fiber) → c.Stands k' (g (m.fiber c.fiber))) :
    c.At k' (m.withFiber c.fiber g) := by
  have halone := Alone.withFiber h.busy.1 role
  have hself := Machine.fiber_withFiber_self (g := g) h.busy.1
  refine ⟨h.alone.trans halone, halone.sound h.sound, halone.busy h.busy, fun hf => ?_,
    fun hv => ?_⟩
  · rw [hself]
    exact calls (h.calls hf)
  · rw [hself]
    exact stands (h.stands hv)

theorem At.undisturbed (h : c.At k m) (hm : Undisturbed m m') : c.At k m' := by
  have halone := Alone.of_undisturbed hm h.sound h.busy
  have hsame := (hm h.sound).fiber _ trivial h.busy
  exact ⟨h.alone.trans halone, halone.sound h.sound, halone.busy h.busy,
    fun hf => hsame ▸ h.calls hf, fun hv => hsame ▸ h.stands hv⟩

namespace Uses

theorem pure (a : α) : c.Uses k k (pure a : Exec α) := Triple.pure fun _ h => h

theorem throw (s : Stop) : c.Uses k k' (throw s : Exec α) :=
  Triple.throw fun _ h => h.mono (Nat.zero_le _)

theorem internal (message : String) : c.Uses k k' (internal message : Exec α) := throw _

theorem bind {x : Exec α} {g : α → Exec β} (hx : c.Uses k j x) (hg : ∀ a, c.Uses j k' (g a)) :
    c.Uses k k' (x >>= g) := Triple.bind hx hg

theorem ite [Decidable p] {x y : Exec α} (hx : c.Uses k k' x) (hy : c.Uses k k' y) :
    c.Uses k k' (if p then x else y) := Triple.ite (fun _ => hx) fun _ => hy

theorem quiet {x : Exec α} (h : Preserves Undisturbed x) : c.Uses k k x :=
  Triple.of_state (fun m hm _ => hm.undisturbed (h m))
    fun m hm _ => (hm.undisturbed (h m)).mono (Nat.zero_le _)

theorem aside {x : Exec α} (h : Preserves Aside x) : c.Uses k k x := quiet h.undisturbed

theorem read (g : Machine → α) : c.Uses k k (read g) := aside (.read g)

theorem readFiber (f : FiberId) (g : Fiber → α) : c.Uses k k (readFiber f g) :=
  aside (.readFiber f g)

end Uses

section Primitives

theorem uses_modifyValues {g : Array Value → Array Value}
    (hg : ∀ vs, c.frame.base + k ≤ vs.size →
      (∀ i < c.frame.base, (g vs)[i]? = vs[i]?) ∧ c.frame.base + k' ≤ (g vs).size) :
    c.Uses k k' (modifyFiber c.fiber fun b => { b with values := g b.values }) := by
  refine Triple.modifyFiber fun m hm =>
    hm.withFiber (.stacks ..) (fun h => h) fun hs => ?_
  obtain ⟨hbelow, hheight⟩ := hg _ hs.height
  exact ⟨fun i hi => (hbelow i hi).trans (hs.below i hi), hheight, hs.savedIp⟩

theorem uses_push (v : Value) : c.Uses k (k + 1) (push c.fiber v) := by
  refine uses_modifyValues (g := fun vs => vs.push v) fun vs hvs => ⟨fun i hi => ?_, ?_⟩
  · rw [Array.getElem?_push, if_neg (by omega)]
  · rw [Array.size_push]
    omega

theorem uses_pushAll (vs : List Value) : c.Uses k (k + vs.length) (pushAll c.fiber vs) := by
  refine uses_modifyValues (g := fun ws => ws.appendList vs) fun ws hws => ⟨fun i hi => ?_, ?_⟩
  · rw [getElem?_appendList, if_pos (by omega)]
  · rw [size_appendList]
    omega

theorem uses_pop : c.Uses (k + 1) k (pop c.fiber) := by
  refine .bind (.readFiber _ _) fun v? => ?_
  cases v? with
  | none => exact .internal _
  | some v =>
    refine .bind (uses_modifyValues (g := Array.pop) fun vs hvs => ⟨fun i hi => ?_, ?_⟩)
      fun _ => .pure _
    · rw [Array.getElem?_pop, if_pos (by omega)]
    · rw [Array.size_pop]
      omega

theorem uses_peek (depth : Nat) : c.Uses k k (peek c.fiber depth) := .aside (aside_peek _ _)

theorem uses_topFrame : c.Uses k k (topFrame c.fiber) := .aside (aside_topFrame _)

theorem uses_poke {depth : Nat} (h : depth < k) (v : Value) :
    c.Uses k k (poke c.fiber depth v) := by
  refine .bind (uses_peek depth) fun _ => uses_modifyValues
    (g := fun vs => vs.setIfInBounds (vs.size - 1 - depth) v) fun vs hvs => ⟨fun i hi => ?_, ?_⟩
  · rw [Array.getElem?_setIfInBounds, if_neg (by omega)]
  · rw [Array.size_setIfInBounds]
    exact hvs

theorem At.truncate {n : Nat} (h : c.At (k + n) m) :
    c.At k (m.withFiber c.fiber fun b =>
      { b with values := b.values.shrink ((m.fiber c.fiber).values.size - n) }) := by
  refine h.withFiber (.stacks ..) (fun h => h) fun hs => ?_
  have hheight := hs.height
  refine ⟨fun i hi => ?_, ?_, hs.savedIp⟩
  · rw [getElem?_shrink, if_pos (by omega)]
    exact hs.below i hi
  · rw [Array.size_shrink]
    omega

theorem uses_drop (n : Nat) : c.Uses (k + n) k (drop c.fiber n) := by
  intro m hm
  by_cases hsize : (m.fiber c.fiber).values.size < n
  · rw [drop_eq, if_pos hsize]
    exact hm.mono (Nat.zero_le _)
  · rw [drop_eq, if_neg hsize]
    exact hm.truncate

theorem uses_popMany (n : Nat) : c.Uses (k + n) k (popMany c.fiber n) := by
  intro m hm
  by_cases hsize : (m.fiber c.fiber).values.size < n
  · rw [popMany_eq, if_pos hsize]
    exact hm.mono (Nat.zero_le _)
  · rw [popMany_eq, if_neg hsize]
    exact hm.truncate

theorem uses_modifyFrame {g : Frame → Frame} (hg : ∀ frame : Frame, frame.Like (g frame)) :
    c.Uses k k (modifyFrame c.fiber g) := by
  refine Triple.modifyFiber fun m hm =>
    hm.withFiber (.stacks ..) ?_ fun hs => ⟨hs.below, hs.height, hs.savedIp⟩
  rintro ⟨top, htop, hlike⟩
  exact ⟨g top, Fiber.calls_modify htop g, hlike.trans (hg top)⟩

end Primitives

end Scene

end ScriptMachine
