import ScriptMachine.Proofs.Machine.Calls

namespace ScriptMachine

namespace Footing

open Exec

variable {g : Footing} {own : List Frame} {P : Array Value → Prop} {m m' : Machine} {E : Engine}
  {frame : Frame}

theorem closeBlocks_sits (hE : Quiet E) (error : Value) (n : Nat) :
    Triple (g.Sits (frame :: own) P) (closeBlocks E g.fiber error n)
      (fun _ m => ∃ top, frame.Like top ∧ g.Sits (top :: own) (fun _ => True) m)
      (fun _ m => ∃ top, frame.Like top ∧ g.Sits (top :: own) (fun _ => True) m) := by
  intro m hm
  obtain ⟨bottom, hbottom, hcalls⟩ := hm.calls
  have hlike (m' : Machine) (hat : (g.scene m frame (own ++ bottom)).At 0 m') :
      ∃ top, frame.Like top ∧ g.Sits (top :: own) (fun _ => True) m' := by
    obtain ⟨top, hlike, hsits⟩ := hm.of_at hbottom hat
    exact ⟨top, hlike, hsits.mono fun _ _ => trivial⟩
  exact Triple.conseq (Scene.uses_closeBlocks hE error n) (fun _ h => h) (fun _ => hlike)
    (fun _ => hlike) m (hm.at_scene hcalls fun hv => (hm.piled hv).1.level)

theorem Left.grounded {values : Array Value} (h : g.Left own frame values)
    (hnative : frame.isNative = true) : g.Ground own values.size := by
  obtain ⟨hsize, floor, hground, hfloor⟩ := h
  rw [Frame.Floor, if_pos hnative] at hfloor
  rw [hsize, hfloor]
  exact hground

variable {Q : Resumption → Machine → Prop} (hQ : g.Catches Q)

include hQ in
/-- An error handler's answer takes the place of the call that failed. -/
theorem answerError_catches (hE : Quiet E) (n : Nat) (hlow : g.Low (frame :: own))
    (hroute : g.Route own frame.returnTo frame.isEntry) (request : Request) :
    Triple (g.Sits own (g.Left own frame)) (do
      if !frame.isNative then popArguments g.fiber
      push g.fiber (← E request)
      settle (performCall E g.fiber n) g.fiber frame.returnTo frame.isEntry)
      Q (fun _ => g.Holds) := by
  have hanswer : Triple (g.Sits own fun vs => g.Ground own vs.size) (do
      push g.fiber (← E request)
      settle (performCall E g.fiber n) g.fiber frame.returnTo frame.isEntry)
      Q (fun _ => g.Holds) :=
    .bind (quiet (hE _)) fun _ => .bind (push_grounded _) fun _ =>
      settle_catches hQ (fun _ _ hroute => performCall_catches hQ hE n hroute hlow.tail) hroute
  refine .ite (fun h => .bind (popArguments_left ?_ hlow.head) fun _ => hanswer)
    fun h => hanswer.before fun m hm => hm.mono fun vs hvs => hvs.grounded ?_
  · simpa [Frame.isNative] using h
  · simpa using h

/-- Errors do not get below some frames: one of them has an error handler, or else the last one leaves
the loop, or nothing is below. -/
def Contained (g : Footing) (own : List Frame) : Prop :=
  (∃ frame ∈ own, frame.handlers.onError.isSome) ∨
    (∀ returnTo, ¬ g.Returns returnTo false) ∧ (own = [] → ∀ bottom, g.Bottom bottom → bottom = [])

theorem Contained.like {top : Frame} (h : g.Contained (frame :: own)) (hlike : frame.Like top) :
    g.Contained (top :: own) := by
  rcases h with ⟨fr, hmem, hfr⟩ | h
  · rcases List.mem_cons.1 hmem with rfl | hmem
    · exact .inl ⟨top, List.mem_cons_self, by rwa [hlike.handlers]⟩
    · exact .inl ⟨fr, List.mem_cons_of_mem _ hmem, hfr⟩
  · exact .inr ⟨h.1, nofun⟩

theorem Contained.tail (h : g.Contained (frame :: own)) (hnone : frame.handlers.onError = none)
    (hroute : g.Route own frame.returnTo frame.isEntry) (hentry : frame.isEntry = false) :
    g.Contained own := by
  rcases h with ⟨fr, hmem, hfr⟩ | h
  · rcases List.mem_cons.1 hmem with rfl | hmem
    · rw [hnone] at hfr
      cases hfr
    · exact .inl ⟨fr, hmem, hfr⟩
  · refine .inr ⟨h.1, ?_⟩
    rintro rfl
    rw [hentry] at hroute
    exact absurd hroute (h.1 _)

include hQ in
theorem unwindFrames_catches (hE : Quiet E) (n : Nat) (e : RuntimeError) (hlow : g.Low own)
    (hcontained : g.Contained own) :
    Triple (g.Sits own fun _ => True) (unwindFrames E g.fiber n e) Q (fun _ => g.Holds) := by
  induction n generalizing own e with
  | zero => exact stop
  | succ n ih =>
    cases own with
    | nil =>
      refine Triple.bind (Q := fun empty m => empty = true ∧ g.Sits [] (fun _ => True) m)
        (.read fun m hm => ⟨?_, hm⟩) fun empty => .given fun hempty => ?_
      · obtain ⟨bottom, hbottom, hcalls⟩ := hm.calls
        obtain ⟨_, hmem, _⟩ | ⟨-, hbare⟩ := hcontained
        · cases hmem
        rw [hbare rfl bottom hbottom] at hcalls
        simpa [Fiber.calls] using hcalls
      · rw [if_pos hempty]
        exact .bind (Q := fun _ _ => False) stop fun _ _ => False.elim
    | cons frame own =>
      refine .bind (quiet (.readFiber _ _)) fun _ => .first stop fun _ => ?_
      refine Triple.bind (Q := fun _ m => ∃ top, frame.Like top ∧
          g.Sits (top :: own) (fun _ => True) m) (.attempt (closeBlocks_sits hE _ n)) fun r =>
        .exists_ fun top => .given fun hlike => ?_
      have hlow := hlow.like hlike
      have hcontained := hcontained.like hlike
      split
      · exact .bind (quiet (detached_emit _ rfl).undisturbed) fun _ => ih _ hlow hcontained
      · exact stop
      · refine .bind popFrame_left fun popped => .given fun hpopped => ?_
        obtain ⟨rfl, hroute⟩ := hpopped
        split
        · exact answerError_catches hQ hE n hlow hroute _
        · refine .ite (fun _ => stop) fun hentry => ?_
          rw [Bool.not_eq_true] at hentry
          exact (ih e hlow.tail (hcontained.tail ‹_› hroute hentry)).before fun m hm => hm.mono
            fun _ _ => trivial

include hQ in
theorem unwind_catches (hE : Quiet E) (fuel : Nat) (e : RuntimeError) (ip : Nat) (hlow : g.Low own)
    (hcontained : g.Contained own) :
    Triple (g.Sits own fun _ => True) (unwind E g.fiber fuel e ip) Q (fun _ => g.Holds) :=
  .bind (quiet (.read _)) fun _ => .bind (quiet (observes_reportError _ _ _).aside.undisturbed) fun _ =>
    .bind (quiet (.readFiber _ _)) fun _ =>
      .bind (quiet (.foldlM (fun _ _ => undisturbed_handledError hE _ _) _)) fun _ =>
        unwindFrames_catches hQ hE fuel _ hlow hcontained

end Footing

end ScriptMachine
