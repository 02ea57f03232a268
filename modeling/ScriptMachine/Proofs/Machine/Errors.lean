import ScriptMachine.Proofs.Machine.Rounds

namespace ScriptMachine

variable {α : Type} {m' m : Machine}

namespace Exec

/-- The operation raises no error that scripts can catch. -/
def Mild {α : Type} (x : Exec α) : Prop :=
  Triple (fun _ => True) x (fun _ _ => True) (fun s _ => s.isCatchable = false)

theorem Triple.mild {P : Machine → Prop} {x : Exec α} {Q : α → Machine → Prop}
    {S : Stop → Machine → Prop} (h : Triple P x Q S) (hx : Mild x) :
    Triple P x Q (fun s _ => s.isCatchable = false) := by
  intro m hm
  have hm := h m hm
  have hx := hx m trivial
  rcases hrun : x m with ⟨s | a, m'⟩ <;> rw [hrun] at hm hx
  · exact hx
  · exact hm

namespace Mild

variable {α β : Type}

theorem not_isCatchable {x : Exec α} {s : Stop} (h : Mild x) (hrun : x m = (.error s, m')) :
    s.isCatchable = false := by
  have hm := h m trivial
  rw [hrun] at hm
  exact hm

theorem pure (a : α) : Mild (pure a : Exec α) := fun _ _ => trivial

theorem throw {s : Stop} (h : s.isCatchable = false) : Mild (throw s : Exec α) := fun _ _ => h

theorem internal (message : String) : Mild (internal message : Exec α) := throw rfl

theorem read (g : Machine → α) : Mild (read g) := fun _ _ => trivial

theorem readFiber (f : FiberId) (g : Fiber → α) : Mild (readFiber f g) := fun _ _ => trivial

theorem modify (g : Machine → Machine) : Mild (modify g : Exec Unit) := fun _ _ => trivial

theorem bind {x : Exec α} {g : α → Exec β} (hx : Mild x) (hg : ∀ a, Mild (g a)) :
    Mild (x >>= g) := Triple.bind hx hg

theorem ite {p : Prop} [Decidable p] {x y : Exec α} (hx : Mild x) (hy : Mild y) :
    Mild (if p then x else y) := Triple.ite (fun _ => hx) fun _ => hy

theorem foldlM {l : List α} {g : β → α → Exec β} (h : ∀ b a, Mild (g b a)) (b : β) :
    Mild (l.foldlM g b) := by
  induction l generalizing b with
  | nil => exact pure _
  | cons a l ih =>
    rw [List.foldlM_cons]
    exact (h b a).bind fun b => ih b

end Mild

end Exec

open Exec

theorem Exec.Observes.mild {x : Exec α} (hx : Observes x) : Mild x := by
  intro m _
  obtain ⟨_, _, _, hrun, -⟩ := hx m
  rw [hrun]
  trivial

theorem mild_emit (e : Event) : Mild (emit e) := .modify _

/-- Whatever a message handler does, the error that it is given goes on. -/
theorem mild_handledError (E : Engine) (handler : Value) (e : RuntimeError) :
    Mild (handledError E handler e) := by
  have hrest (r : Except Stop Value) : Mild (rephrased e r) := by
    unfold rephrased
    split
    · exact .bind (.read _) fun _ => .pure _
    · exact .pure _
    · rename_i s hother
      refine .throw (Bool.eq_false_iff.2 fun hs => ?_)
      obtain ⟨raised, rfl⟩ := Stop.eq_runtime hs
      exact hother raised rfl
  have hattempt : Mild (attempt (E (.call handler [.string e.text]))) := fun _ _ => trivial
  rw [handledError_eq]
  split
  · exact .bind hattempt hrest
  · exact hrest _

section Stacks

variable (f : FiberId)

theorem mild_pop : Mild (pop f) := by
  refine .bind (.readFiber _ _) fun v? => ?_
  cases v? with
  | none => exact .internal _
  | some v => exact .bind (.modify _) fun _ => .pure _

theorem mild_drop (n : Nat) : Mild (drop f n) :=
  .bind (.readFiber _ _) fun _ => .ite (.internal _) (.modify _)

theorem mild_popFrame : Mild (popFrame f) := by
  refine .bind (.bind (.readFiber _ _) fun frame? => ?_) fun _ => .bind (.modify _) fun _ => .pure _
  cases frame? with
  | none => exact .internal _
  | some frame => exact .pure _

end Stacks

section Status

variable {id : NativeId}

/-- Whether a native function puts a status in front of what it is given. -/
def Heap.answersStatus (h : Heap) (id : NativeId) : Bool :=
  decide (id.index < h.natives.size) && match (h.native id).behavior with
    | .builtin (.withStatus _) => true
    | _ => false

/-- Whether a value is a status, or a tuple that starts with one. -/
def Value.isStatus (v : Value) : Bool :=
  match v.toList with
  | .bool _ :: _ => true
  | _ => false

theorem KeepsNatives.answersStatus (h : KeepsNatives m m') (hid : m.heap.answersStatus id) :
    m'.heap.answersStatus id := by
  rw [Heap.answersStatus, Bool.and_eq_true, decide_eq_true_eq] at hid ⊢
  obtain ⟨hsize, hbehavior⟩ := h id hid.1
  rw [hbehavior]
  exact ⟨hsize, hid.2⟩

/-- The functions that answer with a status do so, if the engine has the steps to run them. -/
def Answers (E : Engine) : Prop :=
  ∀ id site arguments method (P : Machine → Prop),
    Triple (fun m => m.heap.answersStatus id ∧ P m) (E (.invoke id site arguments method))
      (fun v m => v.isStatus ∧ P m) (fun s _ => s.isCatchable = false)

theorem invoke_builtin (E : Engine) {b : Builtin} (site : CallSite) (a : Arguments)
    (h : (m.heap.native id).behavior = .builtin b) :
    Exec.invoke E id site a m = Library.run E site a b m := by
  have hread : read (fun m => m.heap.native id) m = (.ok (m.heap.native id), m) := rfl
  rw [Exec.invoke, bind_ok hread, h]

theorem answers_serve (E : Engine) (fuel : Nat) : Answers (Exec.serve E fuel) := by
  rintro id site arguments method P m ⟨hid, hm⟩
  rw [Heap.answersStatus, Bool.and_eq_true] at hid
  have hbehavior := hid.2
  split at hbehavior
  · rename_i ok hok
    have happly : Exec.serve E fuel (.invoke id site arguments method) m = _ := invoke_builtin E site _ hok
    rw [happly]
    exact ⟨rfl, hm⟩
  · cases hbehavior

end Status

section Values

/-- A condition that does not look at the values of a flow in the middle of its run, nor at what
native code changes. -/
structure Steady (f : FiberId) (Q : Machine → Prop) : Prop where
  busy : ∀ m, Q m → Busy m f
  quiet : ∀ m m', Q m → Undisturbed m m' → Q m'
  values : ∀ m (u : Array Value → Array Value), Q m →
    Q (m.withFiber f fun b => { b with values := u b.values })

namespace Steady

variable {f : FiberId} {Q : Machine → Prop} (hQ : Steady f Q) {S : Stop → Machine → Prop}
  {α : Type} {v : Value}
include hQ

theorem undisturbed {x : Exec α} (hx : Preserves Undisturbed x) (hmild : Mild x) :
    Triple Q x (fun _ => Q) (fun s _ => s.isCatchable = false) :=
  Triple.mild (S := fun _ => Q)
    (.of_state (fun m hm _ => hQ.quiet m _ hm (hx m)) fun m hm _ => hQ.quiet m _ hm (hx m)) hmild

theorem push (v : Value) : Triple Q (push f v)
    (fun _ m => (m.fiber f).values.back? = some v ∧ Q m) S := by
  refine .modifyFiber fun m hm => ⟨?_, hQ.values m (fun vs => vs.push v) hm⟩
  rw [Machine.fiber_withFiber_self (hQ.busy m hm).1]
  exact Array.back?_push

theorem pop_top : Triple (fun m => (m.fiber f).values.back? = some v ∧ Q m) (pop f)
    (fun w m => w = v ∧ Q m) S := by
  rintro m ⟨hv, hm⟩
  have hread : readFiber f (fun b => b.values.back?) m = (.ok (some v), m) := by
    rw [readFiber_apply, hv]
  rw [pop, bind_ok hread]
  exact ⟨rfl, hQ.values m Array.pop hm⟩

theorem pop : Triple Q (pop f) (fun _ => Q) (fun s _ => s.isCatchable = false) := by
  have hpop : Triple Q (Exec.pop f) (fun _ => Q) (fun _ => Q) := by
    refine Triple.bind (Q := fun _ => Q) (.read fun _ h => h) fun v? => ?_
    cases v? with
    | none => exact .throw fun _ h => h
    | some v =>
      exact .bind (.modifyFiber fun m hm => hQ.values m Array.pop hm) fun _ => .pure fun _ h => h
  exact hpop.mild (mild_pop f)

theorem drop (n : Nat) :
    Triple Q (drop f n) (fun _ => Q) (fun s _ => s.isCatchable = false) := by
  have hdrop : Triple Q (Exec.drop f n) (fun _ => Q) (fun _ => Q) :=
    Triple.bind (Q := fun _ => Q) (.read fun _ h => h) fun size =>
      .ite (fun _ => .throw fun _ h => h) fun _ =>
        .modifyFiber fun m hm => hQ.values m (fun vs => vs.shrink (size - n)) hm
  exact hdrop.mild (mild_drop f n)

theorem popArguments :
    Triple Q (popArguments f) (fun _ => Q) (fun s _ => s.isCatchable = false) := by
  refine .bind hQ.pop fun v => ?_
  cases v with
  | number x =>
    exact .ite (fun _ => .ite (fun _ => hQ.drop _) fun _ => .throw fun _ _ => rfl)
      fun _ => .throw fun _ _ => rfl
  | _ => exact .throw fun _ _ => rfl

end Steady

theorem settle_status {f : FiberId} {Q : Machine → Prop} {v : Value} (hv : v.isStatus)
    (call : Nat → CallSetup → Exec Resumption) (returnTo : Option Nat)
    (isEntry : Bool) : Triple (fun m => (m.fiber f).values.back? = some v ∧ Q m)
      (settle call f returnTo isEntry)
      (fun r m => r = .after returnTo ∧ (m.fiber f).values.back? = some v ∧ Q m)
      (fun s _ => s.isCatchable = false) := by
  refine Triple.bind (Q := fun w m => w = v ∧ (m.fiber f).values.back? = some v ∧ Q m)
    ((Triple.peek_top fun _ _ => rfl).after fun w m h => ?_)
    fun w => .given fun hw => ?_
  · exact ⟨Option.some.inj (h.1.symm.trans h.2.1), h.2⟩
  · subst hw
    cases w <;> first | exact .pure fun _ h => ⟨rfl, h⟩ | cases hv

/-- Only the frames of the flow have changed. -/
def KeepsValues (f : FiberId) (m m' : Machine) : Prop :=
  Sound m → Busy m f → Sound m' ∧ Busy m' f ∧ (m'.fiber f).values = (m.fiber f).values

instance (f : FiberId) : Std.Refl (KeepsValues f) := ⟨fun _ hm hf => ⟨hm, hf, rfl⟩⟩

instance (f : FiberId) : IsTrans Machine (KeepsValues f) where
  trans _ _ _ h h' hm hf :=
    have ⟨hm₁, hf₁, hvalues⟩ := h hm hf
    have ⟨hm₂, hf₂, hvalues'⟩ := h' hm₁ hf₁
    ⟨hm₂, hf₂, hvalues'.trans hvalues⟩

variable (f : FiberId)

theorem Undisturbed.keepsValues (h : Undisturbed m m') : KeepsValues f m m' :=
  fun hm hf =>
    have halone := Alone.of_undisturbed h hm hf
    ⟨halone.sound hm, halone.busy hf, congrArg Fiber.values ((h hm).fiber f trivial hf)⟩

theorem keepsValues_modifyFrame (g : Frame → Frame) :
    Preserves (KeepsValues f) (modifyFrame f g) := by
  intro m hm hf
  rw [modifyFrame, modifyFiber_apply]
  have halone := Alone.withFiber (f := f)
    (g := fun b => { b with frames := b.frames.modify (b.frames.size - 1) g }) hf.1
    (.stacks ..)
  refine ⟨halone.sound hm, halone.busy hf, ?_⟩
  rw [Machine.fiber_withFiber_self hf.1]

theorem keepsValues_topFrame : Preserves (KeepsValues f) (topFrame f) :=
  (aside_topFrame f).undisturbed.mono fun _ _ h => h.keepsValues f

variable {E : Engine} (hE : Quiet E)
include hE

theorem keepsValues_closeSymbol (s : Symbol) (error : Value) :
    Preserves (KeepsValues f) (closeSymbol E f s error) := by
  have htake : Preserves (KeepsValues f) (takeClosable f s) :=
    .bind (keepsValues_topFrame f) fun _ => .ite
      (.bind (.read _) fun _ => .bind (keepsValues_modifyFrame f _) fun _ => .pure _) (.pure _)
  refine .bind htake fun v => ?_
  cases v with
  | none => exact .pure _
  | some v =>
    refine .ite (.bind (.read _) fun handler => ?_) (.pure _)
    cases handler with
    | none => exact .complain _
    | some handler =>
      exact .bind ((hE _).mono fun _ _ h => h.keepsValues f) fun _ => .pure _

theorem keepsValues_closeBlock (error : Value) (n : Nat) :
    Preserves (KeepsValues f) (closeBlock E f error n) := by
  induction n with
  | zero => exact .throw _
  | succ n ih =>
    refine .bind (keepsValues_topFrame f) fun frame => ?_
    split
    · exact .pure _
    · exact keepsValues_modifyFrame f _
    · exact .bind (keepsValues_modifyFrame f _) fun _ =>
        .bind (keepsValues_closeSymbol f hE _ error) fun _ => ih

theorem keepsValues_closeBlocks (error : Value) (n : Nat) :
    Preserves (KeepsValues f) (closeBlocks E f error n) := by
  induction n with
  | zero => exact .throw _
  | succ n ih =>
    exact .bind (keepsValues_topFrame f) fun _ => .ite (.pure _)
      (.bind (keepsValues_closeBlock f hE error n) fun _ => ih)

end Values

end ScriptMachine
