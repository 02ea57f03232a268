import Mathlib.Tactic
import ScriptMachine.Machine.Engine

namespace ScriptMachine.Exec

/-- Whatever its outcome, the operation takes each machine to a related one. -/
def Preserves {α : Type} (R : Machine → Machine → Prop) (x : Exec α) : Prop := ∀ m, R m (x m).2

theorem bind_apply {α β : Type} (x : Exec α) (g : α → Exec β) (m : Machine) :
    (x >>= g) m = match x m with
      | (.ok a, m') => g a m'
      | (.error s, m') => (.error s, m') := by
  have hbind : (x >>= g) m = ExceptT.bindCont g (x m).1 (x m).2 := rfl
  rw [hbind]
  rcases x m with ⟨r | r, m'⟩ <;> rfl

theorem bind_ok {α β : Type} {x : Exec α} {g : α → Exec β} {m m' : Machine} {a : α}
    (h : x m = (.ok a, m')) : (x >>= g) m = g a m' := by
  rw [bind_apply, h]

theorem bind_error {α β : Type} {x : Exec α} {g : α → Exec β} {m m' : Machine} {s : Stop}
    (h : x m = (.error s, m')) : (x >>= g) m = (.error s, m') := by
  rw [bind_apply, h]

namespace Preserves

variable {R : Machine → Machine → Prop} {α β : Type}

theorem mono {S : Machine → Machine → Prop} {x : Exec α} (h : Preserves R x)
    (hRS : ∀ m m', R m m' → S m m') : Preserves S x := fun m => hRS m _ (h m)

section Refl

variable [Std.Refl R]

theorem pure (a : α) : Preserves R (pure a : Exec α) := fun m => refl m

theorem throw (s : Stop) : Preserves R (throw s : Exec α) := fun m => refl m

theorem complain (c : Complaint) : Preserves R (complain c : Exec α) := fun m => refl m

theorem internal (message : String) : Preserves R (internal message : Exec α) := fun m => refl m

theorem read (f : Machine → α) : Preserves R (read f) := fun m => refl m

theorem readFiber (f : FiberId) (g : Fiber → α) : Preserves R (readFiber f g) := fun m => refl m

theorem ofComplaint (r : Except Complaint α) : Preserves R (ofComplaint r) := by
  cases r
  · exact complain _
  · exact pure _

end Refl

theorem modify {g : Machine → Machine} (h : ∀ m, R m (g m)) :
    Preserves R (modify g : Exec Unit) := h

theorem modifyGet {g : Machine → α × Machine} (h : ∀ m, R m (g m).2) :
    Preserves R (modifyGet g : Exec α) := h

theorem attempt {x : Exec α} (h : Preserves R x) : Preserves R (attempt x) := h

theorem ite {p : Prop} [Decidable p] {x y : Exec α} (hx : Preserves R x) (hy : Preserves R y) :
    Preserves R (if p then x else y) := by
  split
  · exact hx
  · exact hy

section Trans

variable [IsTrans Machine R]

theorem bind {x : Exec α} {g : α → Exec β} (hx : Preserves R x) (hg : ∀ a, Preserves R (g a)) :
    Preserves R (x >>= g) := by
  intro m
  have hxm := hx m
  rw [bind_apply]
  rcases h : x m with ⟨s | a, m'⟩ <;> rw [h] at hxm
  · exact hxm
  · exact trans_of R hxm (hg a m')

variable [Std.Refl R]

theorem foldlM {l : List α} {g : β → α → Exec β} (h : ∀ b a, Preserves R (g b a)) (b : β) :
    Preserves R (l.foldlM g b) := by
  induction l generalizing b with
  | nil => exact pure _
  | cons a l ih =>
    rw [List.foldlM_cons]
    exact (h b a).bind fun b => ih b

end Trans

end Preserves

section Triples

variable {P : Machine → Prop} {p : Prop} {s : Stop}

/-- From a machine that satisfies the first condition, the operation ends with a result and a
machine that satisfy the second one, or with a failure and a machine that satisfy the third. -/
def Triple {α : Type} (P : Machine → Prop) (x : Exec α) (Q : α → Machine → Prop)
    (S : Stop → Machine → Prop) : Prop :=
  ∀ m, P m → match x m with
    | (.ok a, m') => Q a m'
    | (.error s, m') => S s m'

namespace Triple

variable {α β : Type} {P P' : Machine → Prop} {Q Q' : α → Machine → Prop} {x : Exec α}
  {S S' : Stop → Machine → Prop} {U : β → Machine → Prop}

theorem pure {a : α} (h : ∀ m, P m → Q a m) : Triple P (pure a) Q S := h

theorem throw (h : ∀ m, P m → S s m) : Triple P (throw s) Q S := h

theorem bind {g : α → Exec β} (hx : Triple P x Q S) (hg : ∀ a, Triple (Q a) (g a) U S) :
    Triple P (x >>= g) U S := by
  intro m hm
  have h := hx m hm
  rw [bind_apply]
  rcases hxm : x m with ⟨s | a, m'⟩ <;> rw [hxm] at h
  · exact h
  · exact hg a m' h

theorem conseq (h : Triple P x Q S) (hP : ∀ m, P' m → P m) (hQ : ∀ a m, Q a m → Q' a m)
    (hS : ∀ s m, S s m → S' s m) : Triple P' x Q' S' := by
  intro m hm
  have h := h m (hP m hm)
  rcases hxm : x m with ⟨s | a, m'⟩ <;> rw [hxm] at h
  · exact hS s m' h
  · exact hQ a m' h

theorem before (h : Triple P x Q S) (hP : ∀ m, P' m → P m) : Triple P' x Q S :=
  h.conseq hP (fun _ _ h => h) fun _ _ h => h

theorem after (h : Triple P x Q S) (hQ : ∀ a m, Q a m → Q' a m) : Triple P x Q' S :=
  h.conseq (fun _ h => h) hQ fun _ _ h => h

theorem failing (h : Triple P x Q S) (hS : ∀ s m, S s m → S' s m) : Triple P x Q S' :=
  h.conseq (fun _ h => h) (fun _ _ h => h) hS

theorem attempt {U : Except Stop α → Machine → Prop}
    (h : Triple P x (fun a => U (.ok a)) (fun s => U (.error s))) :
    Triple P (attempt x) U S := by
  intro m hm
  have h := h m hm
  change U (x m).1 (x m).2
  rcases hxm : x m with ⟨s | a, m'⟩ <;> rw [hxm] at h <;> exact h

theorem of_state (hQ : ∀ m, P m → ∀ a, Q a (x m).2) (hS : ∀ m, P m → ∀ s, S s (x m).2) :
    Triple P x Q S := by
  intro m hm
  have hQ := hQ m hm
  have hS := hS m hm
  rcases hxm : x m with ⟨s | a, m'⟩ <;> rw [hxm] at hQ hS
  · exact hS s
  · exact hQ a

theorem read {g : Machine → α} (h : ∀ m, P m → Q (g m) m) : Triple P (read g) Q S := h

theorem ite [Decidable p] {y : Exec α} (hx : p → Triple P x Q S) (hy : ¬p → Triple P y Q S) :
    Triple P (if p then x else y) Q S := by
  split
  · exact hx ‹_›
  · exact hy ‹_›

theorem exists_ {ι : Sort*} {P : ι → Machine → Prop} (h : ∀ i, Triple (P i) x Q S) :
    Triple (fun m => ∃ i, P i m) x Q S := fun m ⟨i, hm⟩ => h i m hm

theorem given (h : p → Triple P x Q S) : Triple (fun m => p ∧ P m) x Q S :=
  fun m ⟨hp, hm⟩ => h hp m hm

theorem first [Decidable p] {x : Exec Unit} {g : Unit → Exec β} (hx : Triple P x (fun _ => P) S)
    (hg : ∀ u, Triple P (g u) U S) : Triple P (if p then x >>= g else g ()) U S :=
  ite (fun _ => hx.bind hg) fun _ => hg ()

end Triple

section Safe

variable {α β : Type}

/-- From a machine that satisfies the condition, the operation does not crash. -/
def Careful (P : Machine → Prop) (x : Exec α) : Prop :=
  Triple P x (fun _ _ => True) (fun s _ => s ≠ .crash)

abbrev Safe (x : Exec α) : Prop := Careful (fun _ => True) x

theorem Careful.ne_crash {x : Exec α} {m : Machine} (h : Careful P x) (hm : P m) :
    (x m).1 ≠ .error .crash := by
  have hrun := h m hm
  rcases hx : x m with ⟨s | a, m'⟩ <;> rw [hx] at hrun
  · exact fun hs => hrun (Except.error.inj hs)
  · nofun

namespace Safe

variable {l : List α}

theorem of_ne_crash {x : Exec α} (h : ∀ m, (x m).1 ≠ .error .crash) : Safe x := by
  intro m _
  have hrun := h m
  rcases hx : x m with ⟨s | a, m'⟩ <;> rw [hx] at hrun
  · exact fun hs => hrun (congrArg _ hs)
  · trivial

theorem careful {x : Exec α} (h : Safe x) : Careful P x :=
  Triple.before h fun _ _ => trivial

theorem pure (a : α) : Safe (pure a : Exec α) := fun _ _ => trivial

theorem throw (h : s ≠ .crash) : Safe (throw s : Exec α) := fun _ _ => h

theorem rethrow (h : (.error s : Except Stop β) ≠ .error .crash) :
    Safe (MonadExcept.throw s : Exec α) := throw fun hs => h (congrArg _ hs)

theorem fail (f : Fault) : Safe (fail f : Exec α) := throw nofun

theorem fail_bind (f : Fault) (g : α → Exec β) : Safe (Exec.fail f >>= g) := fun _ _ => nofun

theorem complain (c : Complaint) : Safe (complain c : Exec α) := throw nofun

theorem internal (message : String) : Safe (internal message : Exec α) := throw nofun

theorem read (g : Machine → α) : Safe (read g) := fun _ _ => trivial

theorem readFiber (f : FiberId) (g : Fiber → α) : Safe (readFiber f g) := fun _ _ => trivial

theorem modify (g : Machine → Machine) : Safe (modify g : Exec Unit) := fun _ _ => trivial

theorem modifyGet (g : Machine → α × Machine) : Safe (modifyGet g : Exec α) := fun _ _ => trivial

theorem ofExcept (r : Except Fault α) : Safe (ofExcept r) := by
  cases r
  · exact fail _
  · exact pure _

theorem bind {x : Exec α} {g : α → Exec β} (hx : Safe x) (hg : ∀ a, Safe (g a)) :
    Safe (x >>= g) := Triple.bind hx hg

theorem ite [Decidable p] {x y : Exec α} (hx : Safe x) (hy : Safe y) :
    Safe (if p then x else y) := Triple.ite (fun _ => hx) fun _ => hy

theorem first [Decidable p] {x : Exec Unit} {g : Unit → Exec β} (hx : Safe x) (hg : ∀ u, Safe (g u)) :
    Safe (if p then x >>= g else g ()) := Triple.first hx hg

theorem forM {g : α → Exec PUnit} (h : ∀ a, Safe (g a)) : Safe (l.forM g) := by
  induction l with
  | nil => exact pure _
  | cons a l ih => exact (h a).bind fun _ => ih

theorem mapM {g : α → Exec β} (h : ∀ a, Safe (g a)) : Safe (l.mapM g) := by
  induction l with
  | nil => exact pure _
  | cons a l ih =>
    rw [List.mapM_cons]
    exact (h a).bind fun _ => ih.bind fun _ => pure _

theorem attempt {x : Exec α} {g : Except Stop α → Exec β} (hx : Safe x)
    (hg : ∀ r, r ≠ .error .crash → Safe (g r)) : Safe (attempt x >>= g) := by
  refine Triple.bind (Q := fun r _ => r ≠ .error .crash) (.attempt ?_) fun r m hr => ?_
  · exact Triple.conseq hx (fun _ h => h) (fun _ _ _ => nofun)
      fun _ _ h hs => h (Except.error.inj hs)
  · exact hg r hr m trivial

end Safe

end Safe

end Triples

def rephrased (e : RuntimeError) : Except Stop Value → Exec RuntimeError
  | .ok v => do
    let text ← read fun m => m.heap.printText v.toScalar
    return { e with decorated := some text, value := some v.toScalar }
  | .error (.fault (.runtime inner)) =>
    return { e with decorated := some (inner.message ++ "\n" ++ e.text), value := none }
  | .error s => throw s

theorem handledError_eq (E : Engine) (handler : Value) (e : RuntimeError) : handledError E handler e =
    if handler.isCallable then attempt (E (.call handler [.string e.text])) >>= rephrased e
    else rephrased e (.error (.fault (.complain .handlerNotSet))) := by
  unfold handledError
  split
  · refine bind_congr fun r => ?_
    rcases r with (fault | _ | _) | v
    · cases fault <;> rfl
    all_goals rfl
  · rfl

theorem Preserves.handledError {R : Machine → Machine → Prop} [Std.Refl R] [IsTrans Machine R]
    {E : Engine} (hE : ∀ request, Preserves R (E request)) (handler : Value) (e : RuntimeError) :
    Preserves R (handledError E handler e) := by
  have hrest (r : Except Stop Value) : Preserves R (rephrased e r) := by
    unfold rephrased
    split
    · exact .bind (.read _) fun _ => .pure _
    · exact .pure _
    · exact .throw _
  rw [handledError_eq]
  split
  · exact .bind (.attempt (hE _)) hrest
  · exact hrest _

section Callees

variable {f : FiberId} {name : Option String}

theorem resolveCallee_eq (chain argc : Nat) : resolveCallee f name chain argc =
    examineCallee f name argc fun handler => (match chain with
      | 0 => complain .callChain
      | chain + 1 => do
        modifyFiber f fun b =>
          { b with values := b.values.insertIdxIfInBounds (b.values.size - argc - 1) handler }
        resolveCallee f name chain (argc + 1)) := by
  cases chain <;> rfl

theorem Preserves.resolveCallee {R : Machine → Machine → Prop} [Std.Refl R] [IsTrans Machine R]
    (hpeek : ∀ depth, Preserves R (peek f depth))
    (hvalues : ∀ u : Fiber → Array Value, Preserves R (modifyFiber f fun b => { b with values := u b }))
    (chain argc : Nat) : Preserves R (resolveCallee f name chain argc) := by
  induction chain generalizing argc with
  | zero =>
    refine .bind (hpeek _) fun _ => .ite (.pure _) (.bind (.read _) fun handler => ?_)
    cases handler <;> exact .complain _
  | succ chain ih =>
    refine .bind (hpeek _) fun _ => .ite (.pure _) (.bind (.read _) fun handler => ?_)
    cases handler with
    | none => exact .complain _
    | some handler => exact .bind (hvalues _) fun _ => ih _

theorem Triple.resolveCallee {P : Nat → Machine → Prop} {S : Stop → Machine → Prop}
    (hpeek : ∀ argc, Triple (P argc) (peek f argc) (fun _ => P argc) S)
    (hfail : ∀ argc c m, P argc m → S (.fault (.complain c)) m)
    (hinsert : ∀ argc handler, Triple (P argc) (modifyFiber f fun b => { b with
      values := b.values.insertIdxIfInBounds (b.values.size - argc - 1) handler })
      (fun _ => P (argc + 1)) S) (chain argc : Nat) :
    Triple (P argc) (resolveCallee f name chain argc) P S := by
  induction chain generalizing argc with
  | zero =>
    refine .bind (hpeek _) fun _ => .ite (fun _ => .pure fun _ h => h) fun _ =>
      .bind (Q := fun _ => P argc) (.read fun _ h => h) fun handler => ?_
    cases handler <;> exact .throw (hfail argc _)
  | succ chain ih =>
    refine .bind (hpeek _) fun _ => .ite (fun _ => .pure fun _ h => h) fun _ =>
      .bind (Q := fun _ => P argc) (.read fun _ h => h) fun handler => ?_
    cases handler with
    | none => exact .throw (hfail argc _)
    | some handler => exact .bind (hinsert argc handler) fun _ => ih _

end Callees

end ScriptMachine.Exec
