import ScriptMachine.Proofs.Machine.Safety
import ScriptMachine.Proofs.Machine.Uncaught

namespace ScriptMachine

variable {u : Fiber → Fiber} {E : Engine}

def Value.isHuge : Value → Bool
  | .number x => Exec.countLimit ≤ Exec.countOf x
  | _ => false

/-- Whether no number on a value stack is too large for a count. -/
def Machine.isModest (m : Machine) : Bool :=
  m.fibers.toList.all fun b => b.values.toList.all fun v => !v.isHuge

/-- Whether as many values stand below the top frame as the number under it tells. -/
def Fiber.hasArguments (b : Fiber) : Bool :=
  match b.frames.back? with
  | none => true
  | some frame => frame.base == 0 ||
    match b.values[frame.base - 1]? with
    | some (.number x) => Exec.countOf x < frame.base
    | _ => true

/-- Whether the next instruction finds the arguments that it binds, and no number on a stack is too
large for a count, before it and also after it, should it raise an error. -/
def Turn.isHarmless (t : Turn) (E : Engine) (f : FiberId) : Bool :=
  t.machine.isModest &&
  ((t.machine.code.get? t.ip).all fun i =>
    i.op != .bindArguments || (t.machine.fiber f).hasArguments) &&
  match Exec.step E f t.fuel t.limit t.executed t.ip t.machine with
  | (.error (.fault (.runtime _)), m) => m.isModest
  | _ => true

/-- Whether a request converts a numeral of a number that is no word. -/
def Request.overflows (m : Machine) : Request → Bool
  | .invoke id _ arguments method =>
    match (m.heap.native id).behavior with
    | .builtin .tonumber => (Arguments.ofStacked arguments method).overflows
    | _ => false
  | _ => false

/-- The engine, except that it gives up a request with a turn that is not harmless. -/
def cautious : Nat → Engine
  | 0, _ => throw .exhausted
  | n + 1, request => fun m =>
    if m.isModest && !request.overflows m && (Exec.turns (cautious n) n m request).all fun t =>
        t.isHarmless (cautious n) (request.flow m) then
      match Exec.serve (cautious n) n request m with
      | (r, m') => if m'.isModest then (r, m') else (.error .exhausted, m)
    else (.error .exhausted, m)

open Exec

/-- All values, apart from some on top, can be counts if they are numbers. -/
def Modest (k : Nat) (vs : Array Value) : Prop :=
  ∀ i v, i + k < vs.size → vs[i]? = some v → v.isHuge = false

section Modesty

variable {k n k' : Nat} {vs : Array Value} {m : Machine} {f : FiberId}

theorem Modest.mono (h : Modest k vs) (hk : k ≤ k') : Modest k' vs :=
  fun i v hi hv => h i v (by omega) hv

theorem Modest.push (h : Modest k vs) (v : Value) : Modest (k + 1) (vs.push v) := by
  intro i w hi hw
  rw [Array.size_push] at hi
  rw [Array.getElem?_push, if_neg (by omega)] at hw
  exact h i w (by omega) hw

theorem Modest.appendList (h : Modest k vs) (l : List Value) :
    Modest (k + l.length) (vs.appendList l) := by
  intro i v hi hv
  rw [size_appendList] at hi
  rw [getElem?_appendList, if_pos (by omega)] at hv
  exact h i v (by omega) hv

theorem Modest.appendList_of_not_huge (h : Modest 0 vs) {l : List Value}
    (hl : ∀ v ∈ l, v.isHuge = false) : Modest 0 (vs.appendList l) := by
  intro i v hi hv
  rw [getElem?_appendList] at hv
  split at hv
  · exact h i v (by omega) hv
  · exact hl v (List.mem_of_getElem? hv)

theorem Modest.pop (h : Modest (k + 1) vs) : Modest k vs.pop := by
  intro i v hi hv
  rw [Array.size_pop] at hi
  rw [Array.getElem?_pop, if_pos (by omega)] at hv
  exact h i v (by omega) hv

theorem Modest.shrink (h : Modest k vs) (n : Nat) : Modest k (vs.shrink n) := by
  intro i v hi hv
  rw [Array.size_shrink] at hi
  rw [getElem?_shrink, if_pos (by omega)] at hv
  exact h i v (by omega) hv

theorem Modest.drop (h : Modest (k + n) vs) : Modest k (vs.shrink (vs.size - n)) := by
  intro i v hi hv
  rw [Array.size_shrink] at hi
  rw [getElem?_shrink, if_pos (by omega)] at hv
  exact h i v (by omega) hv

theorem Modest.insert {argc : Nat} (h : Modest (argc + 1) vs) (v : Value) :
    Modest (argc + 2) (vs.insertIdxIfInBounds (vs.size - argc - 1) v) := by
  have hidx : vs.insertIdxIfInBounds (vs.size - argc - 1) v =
      vs.insertIdx (vs.size - argc - 1) v (by omega) := by
    rw [Array.insertIdxIfInBounds, dif_pos]
  intro i w hi hw
  rw [hidx, Array.size_insertIdx] at hi
  rw [hidx, Array.getElem?_insertIdx, if_pos (by omega)] at hw
  exact h i w (by omega) hw

def Small (f : FiberId) (k : Nat) (m : Machine) : Prop := Modest k (m.fiber f).values

theorem Machine.small_of_isModest (h : m.isModest) (f : FiberId) : Small f k m := by
  intro i v _ hv
  have hmem := Array.mem_of_getElem? hv
  by_cases hf : f.index < m.fibers.size
  · have hfiber : m.fiber f = m.fibers[f.index] := by
      rw [fiber, Array.getD_eq_getD_getElem?, Array.getElem?_eq_getElem hf, Option.getD_some]
    rw [hfiber] at hmem
    simp only [isModest, List.all_eq_true, Array.mem_toList_iff, Bool.not_eq_true'] at h
    exact h _ (Array.getElem_mem hf) v hmem
  · rw [fiber, Array.getD_eq_getD_getElem?, Array.getElem?_eq_none (by omega)] at hmem
    exact (Array.not_mem_empty v hmem).elim

theorem Small.mono (h : Small f k m) (hk : k ≤ k') : Small f k' m := Modest.mono h hk

theorem Small.withFiber (h : Small f k m)
    (hu : Modest k (m.fiber f).values → Modest k' (u (m.fiber f)).values) :
    Small f k' (m.withFiber f u) := by
  by_cases hf : f.index < m.fibers.size
  · rw [Small, Machine.fiber_withFiber_self hf]
    exact hu h
  · intro i v hi hv
    rw [Machine.withFiber_of_le (by omega), Machine.fiber, Array.getD_eq_getD_getElem?,
      Array.getElem?_eq_none (by omega)] at hi
    cases hi

end Modesty

/-- The stack of the flow loses values, and gets none that are too large for a count. -/
def Sheds (f : FiberId) (m m' : Machine) : Prop := Small f 0 m → Small f 0 m'

instance (f : FiberId) : Std.Refl (Sheds f) := ⟨fun _ h => h⟩

instance (f : FiberId) : IsTrans Machine (Sheds f) := ⟨fun _ _ _ h h' hm => h' (h hm)⟩

/-- An operation after which a frame of the flow can be left. -/
structure Exec.Calm {α : Type} (f : FiberId) (x : Exec α) : Prop where
  safe : Safe x
  sheds : Preserves (Sheds f) x

/-- A request is not answered with a crash, and leaves stacks without numbers too large for a count,
or else gives up without having changed anything. -/
def Wary (E : Engine) : Prop := ∀ request m, match E request m with
  | (.ok _, m') => m'.isModest
  | (.error s, m') => s ≠ .crash ∧ (m'.isModest ∨ m' = m)

theorem Wary.tactful (hE : Wary E) : Tactful E := by
  intro request m _
  have hwary := hE request m
  rcases hrun : E request m with ⟨s | v, m'⟩ <;> rw [hrun] at hwary
  · exact hwary.1
  · trivial

theorem Wary.sheds (hE : Wary E) (f : FiberId) (request : Request) :
    Preserves (Sheds f) (E request) := by
  intro m hm
  have hwary := hE request m
  rcases hrun : E request m with ⟨s | v, m'⟩ <;> rw [hrun] at hwary
  · obtain h | rfl := hwary.2
    · exact m'.small_of_isModest h f
    · exact hm
  · exact m'.small_of_isModest hwary f

theorem Wary.small (hE : Wary E) (f : FiberId) (k : Nat) (request : Request) :
    Triple (Small f k) (E request) (fun _ => Small f 0) (fun s _ => s ≠ .crash) := by
  intro m _
  have hwary := hE request m
  rcases hrun : E request m with ⟨s | v, m'⟩ <;> rw [hrun] at hwary
  · exact hwary.1
  · exact m'.small_of_isModest hwary f

namespace Exec

variable {α β : Type} {f : FiberId} {k k' : Nat} {S : Stop → Machine → Prop} {x : Exec α}
  {g : α → Exec β}

theorem Calm.aside (hx : Safe x) (h : Preserves Aside x) : Calm f x :=
  ⟨hx, fun m hm => by rw [Small, Machine.fiber, (h m).fibers]; exact hm⟩

theorem Calm.read (g : Machine → α) : Calm f (read g) := .aside (.read g) (.read g)

theorem Calm.pure (a : α) : Calm f (pure a : Exec α) := .aside (.pure a) (.pure a)

theorem Calm.bind (hx : Calm f x) (hg : ∀ a, Calm f (g a)) :
    Calm f (x >>= g) := ⟨hx.safe.bind fun a => (hg a).safe, hx.sheds.bind fun a => (hg a).sheds⟩

theorem Calm.ends (h : Calm f x) (hS : ∀ s m, s ≠ .crash → Small f 0 m → S s m) :
    Triple (Small f 0) x (fun _ => Small f 0) S := by
  intro m hm
  have hsafe := h.safe m trivial
  have hsheds := h.sheds m hm
  rcases hrun : x m with ⟨s | a, m'⟩ <;> rw [hrun] at hsafe hsheds
  · exact hS s m' hsafe hsheds
  · exact hsheds

theorem Calm.triple (h : Calm f x) :
    Triple (Small f 0) x (fun _ => Small f 0) (fun s _ => s ≠ .crash) := h.ends fun _ _ hs _ => hs

theorem Careful.after (hx : Calm f x) (hg : ∀ a, Careful (Small f 0) (g a)) :
    Careful (Small f 0) (x >>= g) := .bind hx.triple hg

theorem Careful.then {P : Machine → Prop} (hx : Careful P x) (hg : ∀ a, Safe (g a)) :
    Careful P (x >>= g) := .bind hx hg

theorem sheds_modifyFiber (hu : ∀ b, Modest 0 b.values → Modest 0 (u b).values) :
    Preserves (Sheds f) (modifyFiber f u) := fun _ hm => hm.withFiber (hu _)

theorem small_push (v : Value) : Triple (Small f k) (push f v) (fun _ => Small f (k + 1)) S :=
  .modifyFiber fun _ hm => hm.withFiber fun h => h.push v

theorem small_pushAll (vs : List Value) :
    Triple (Small f k) (pushAll f vs) (fun _ => Small f (k + vs.length)) S :=
  .modifyFiber fun _ hm => hm.withFiber fun h => h.appendList vs

theorem small_pop : Triple (Small f (k + 1)) (pop f) (fun _ => Small f k) (fun s _ => s ≠ .crash) := by
  refine Triple.bind (Q := fun _ => Small f (k + 1)) (.read fun _ h => h) fun v => ?_
  cases v with
  | none => exact .throw fun _ _ => nofun
  | some v =>
    exact .bind (.modifyFiber fun _ hm => hm.withFiber fun h => h.pop) fun _ => .pure fun _ h => h

theorem calm_pop : Calm f (pop f) := by
  refine ⟨safe_pop f, .bind (.readFiber _ _) fun v => ?_⟩
  cases v with
  | none => exact .internal _
  | some v =>
    exact .bind (sheds_modifyFiber fun _ h => Modest.pop (h.mono (Nat.zero_le _))) fun _ => .pure _

theorem calm_popFrame : Calm f (popFrame f) :=
  .bind (.aside (safe_topFrame f) (aside_topFrame f)) fun _ => .bind
    ⟨.modify _, sheds_modifyFiber fun _ h => h.shrink _⟩ fun _ => .pure _

theorem small_steady (hS : ∀ s m, s ≠ .crash → Small f 0 m → S s m) :
    Logic.Steady f (fun _ => Small f 0) (fun _ _ => True) S where
  stop hs hm := hS _ _ hs hm
  next _ := trivial
  result v := .bind (small_push v) fun _ => .pure fun _ _ => trivial
  tame h := (Calm.aside h.safe h.aside).ends hS
  pop := calm_pop.ends hS

theorem small_place {v : Value} (hv : v.isHuge = false) :
    Triple (Small f 0) (push f v) (fun _ => Small f 0) S :=
  .modifyFiber fun _ hm => hm.withFiber fun h =>
    h.appendList_of_not_huge (l := [v]) (List.forall_mem_singleton.2 hv)

theorem popArguments_small : Triple (Small f 0) (popArguments f) (fun _ => Small f 0)
    (fun s _ => s ≠ .crash) := by
  have hdrop (n : Nat) : Calm f (drop f n) := by
    refine ⟨safe_drop f n, .bind (.readFiber _ _) fun _ => .ite (.internal _) ?_⟩
    exact sheds_modifyFiber fun _ h => h.shrink _
  refine Triple.bind (Q := fun v m => v.isHuge = false ∧ Small f 0 m) ?_ fun v => .given fun hv => ?_
  · intro m hm
    cases hback : (m.fiber f).values.back? with
    | none =>
      have hread : readFiber f (fun b => b.values.back?) m = (.ok none, m) := by
        rw [readFiber_apply, hback]
      rw [pop, bind_ok hread]
      intro h
      cases h
    | some v =>
      rw [pop_apply hback]
      refine ⟨?_, hm.withFiber fun h => Modest.pop (h.mono (Nat.zero_le _))⟩
      have hpos : 0 < (m.fiber f).values.size := by
        by_contra h
        rw [Array.back?_eq_getElem?, Array.getElem?_eq_none (by omega)] at hback
        cases hback
      rw [Array.back?_eq_getElem?] at hback
      exact hm _ v (by omega) hback
  · cases v with
    | number x =>
      have hcount : countOf x < countLimit := by simpa [Value.isHuge] using hv
      exact .ite (fun _ => .ite (fun _ => (hdrop _).triple) fun h => absurd hcount h)
        fun _ => .throw fun _ _ => by simp
    | _ => exact .throw fun _ _ => by simp

section Calls

theorem small_of_aside (hx : Safe x) (h : Preserves Aside x) :
    Triple (Small f k) x (fun _ => Small f k) (fun s _ => s ≠ .crash) := by
  intro m hm
  have hsafe := hx m trivial
  have hfibers := (h m).fibers
  rcases hrun : x m with ⟨s | a, m'⟩ <;> rw [hrun] at hsafe hfibers
  · exact hsafe
  · change Modest k (m'.fiber f).values
    rw [Machine.fiber, hfibers]
    exact hm

theorem small_read (g : Machine → α) :
    Triple (Small f k) (read g) (fun _ => Small f k) S := .read fun _ h => h

theorem resolveCallee_small (name : Option String) (chain argc : Nat) :
    Triple (Small f (argc + 1)) (resolveCallee f name chain argc) (fun argc => Small f (argc + 1))
      (fun s _ => s ≠ .crash) :=
  .resolveCallee (P := fun argc => Small f (argc + 1))
    (fun _ => small_of_aside (safe_peek f _) (aside_peek f _)) (fun _ _ _ _ => by simp)
    (fun _ handler => .modifyFiber fun _ hm => hm.withFiber fun h => h.insert handler) chain argc

theorem popMany_small (n : Nat) : Triple (Small f n) (popMany f n)
    (fun moved m => moved.length = n ∧ Small f 0 m) (fun s _ => s ≠ .crash) := by
  intro m hm
  by_cases hsize : (m.fiber f).values.size < n
  · rw [popMany_eq, if_pos hsize]
    exact nofun
  · rw [popMany_eq, if_neg hsize]
    refine ⟨?_, ?_⟩
    · simp
      omega
    · exact hm.withFiber fun h => Modest.drop (h.mono (Nat.zero_add n).ge)

theorem replaceFrame_small (argc : Nat) (setup : CallSetup) :
    Triple (Small f (argc + 1)) (replaceFrame f argc setup) (fun _ => Small f (argc + 1))
      (fun s _ => s ≠ .crash) := by
  refine .bind (small_read _) fun replaces => .ite (fun _ => ?_) fun _ => .pure fun _ h => h
  refine .bind (popMany_small (argc + 1)) fun moved => .given fun hmoved => ?_
  refine .bind calm_popFrame.triple fun frame => .bind popArguments_small fun _ =>
    .bind (small_pushAll moved) fun _ => .pure fun m hm => ?_
  rw [hmoved, Nat.zero_add] at hm
  exact hm

theorem settle_small {call : Nat → CallSetup → Exec Resumption}
    (hcall : ∀ argc setup, Careful (Small f (argc + 1)) (call argc setup)) (returnTo : Option Nat)
    (isEntry : Bool) : Careful (Small f 1) (settle call f returnTo isEntry) := by
  refine .bind (small_of_aside (safe_peek f 0) (aside_peek f 0)) fun v => ?_
  split
  · refine .bind (small_read _) fun request => .bind (.bind small_pop fun _ =>
      .pure fun _ h => h) fun _ => .bind (small_push _) fun _ => .bind (small_pushAll _) fun _ => ?_
    exact Triple.before (hcall _ _) fun m hm => hm.mono (by omega)
  · exact Safe.careful (.bind (.readFiber _ _) fun _ => .ite (.complain _)
      (.bind (.readFiber _ _) fun _ => .ite (.complain _) (.bind (.modify _) fun _ => .pure _)))
  · exact (Safe.pure _).careful

variable {E : Engine} (hE : Wary E)
include hE

theorem applyContinuation_small (handlers : Handlers) (v : Value) (location : Option Location) :
    Triple (Small f 0) (applyContinuation E f handlers v location) (fun _ => Small f 0)
      (fun s _ => s ≠ .crash) := by
  unfold applyContinuation
  split
  · exact .pure fun _ h => h
  · exact .ite (fun _ => .bind (small_read _) fun _ => .throw fun _ _ => nofun)
      fun _ => hE.small f 0 _

/-- A call does not crash if, below callee and arguments, no number is too large for a count. -/
theorem performCall_careful (n argc : Nat) (setup : CallSetup) :
    Careful (Small f (argc + 1)) (performCall E f n argc setup) := by
  induction n generalizing argc setup with
  | zero => exact .throw fun _ _ => nofun
  | succ n ih =>
    refine .bind (resolveCallee_small _ _ argc) fun argc => .bind (replaceFrame_small argc setup)
      fun setup => .bind (small_read _) fun calledFrom => .bind (small_read _) fun _ =>
        .first (.throw fun _ _ => nofun) fun _ => .bind (small_read _) fun size =>
          .bind (small_read _) fun callee => ?_
    split
    · exact Safe.careful (.bind (.read _) fun _ => .bind (.modify _) fun _ =>
        .bind (.modify _) fun _ => .pure _)
    · refine .bind (small_read _) fun _ => .bind (Q := fun _ => Small f (argc + 1)) (.modifyFiber
        fun _ hm => hm.withFiber fun h => h) fun _ => .bind (hE.small f _ _) fun v =>
        .bind (applyContinuation_small hE _ _ _) fun v => .bind (.modifyFiber
          fun _ hm => hm.withFiber fun h => (h.shrink _).push v) fun _ => settle_small ih _ _
    · exact (Safe.internal _).careful

theorem calm_closeBlocks (error : Value) (n : Nat) : Calm f (closeBlocks E f error n) := by
  have hsteady : Logic.Steady f (fun _ => Small f 0) (fun _ _ => True) (fun _ => Small f 0) :=
    small_steady fun _ _ _ hm => hm
  have hscopes := hsteady.scopes (hsteady.asks (fun _ => small_place rfl) fun function arguments =>
    .of_state (fun m hm _ => hE.sheds f (.call function arguments) m hm)
      fun m hm _ => hE.sheds f (.call function arguments) m hm)
    fun _ => .modifyFiber fun _ hm => hm.withFiber fun h => h
  refine ⟨safe_closeBlocks f hE.tactful error n, fun m hm => ?_⟩
  have hkeeps : Logic.Keeps _ 0 0 (closeBlocks E f error n) (closeBlocks E f error n) :=
    hscopes.closeBlocks trivial rfl
  have hrun := hkeeps.triple m hm
  rcases hx : closeBlocks E f error n m with ⟨s | u, m'⟩ <;> rw [hx] at hrun <;> exact hrun

theorem performReturn_careful (fuel : Nat) (i : Instruction) (ip : Nat) :
    Careful (Small f 0) (performReturn E f fuel i ip) := by
  have hsettle (frame : Frame) := settle_small (performCall_careful (f := f) hE fuel)
    frame.returnTo frame.isEntry
  have hleave (v : Value) : Careful (Small f 0) (leaveWith E f fuel ip v) :=
    .after calm_popFrame fun frame => .bind popArguments_small fun _ => .bind (small_read _) fun _ =>
      .bind (small_push v) fun _ => .ite
        (fun _ => .bind small_pop fun _ => .bind (applyContinuation_small hE _ _ _) fun _ =>
          .bind (small_push _) fun _ => hsettle frame)
        fun _ => hsettle frame
  exact .after (calm_closeBlocks hE _ _) fun _ => .ite (fun _ => Careful.after (.pure _) hleave)
    fun _ => .ite (fun _ => Careful.after calm_pop hleave) fun _ => (Safe.fail_bind _ _).careful

end Calls

section Unwinding

variable {E : Engine} (hE : Wary E)
include hE

theorem calm_handledError (handler : Value) (e : RuntimeError) : Calm f (handledError E handler e) :=
  ⟨safe_handledError hE.tactful handler e, .handledError (hE.sheds f) handler e⟩

theorem unwindFrames_careful (n : Nat) (e : RuntimeError) :
    Careful (Small f 0) (unwindFrames E f n e) := by
  induction n generalizing e with
  | zero => exact .throw fun _ _ => nofun
  | succ n ih =>
    refine .bind (small_read _) fun _ => .first (.throw fun _ _ => nofun) fun _ => ?_
    refine Triple.bind (Q := fun r m => r ≠ .error .crash ∧ Small f 0 m) ?_ fun r =>
      .given fun hr => ?_
    · intro m hm
      have hsafe := (safe_closeBlocks f hE.tactful e.toValue n).ne_crash (m := m) trivial
      have hsheds := (calm_closeBlocks hE e.toValue n).sheds m hm
      exact ⟨hsafe, hsheds⟩
    · split
      · exact .bind (small_of_aside (.modify _) (detached_emit _ rfl).aside) fun _ => ih _
      · exact .throw fun _ _ hs => hr (congrArg _ hs)
      · refine .bind calm_popFrame.triple fun frame => ?_
        split
        · exact .first popArguments_small fun _ => .bind (hE.small f 0 _) fun _ =>
            .bind (small_push _) fun _ => settle_small (performCall_careful hE n) _ _
        · exact .ite (fun _ => .throw fun _ _ => nofun) fun _ => ih e

theorem unwind_careful (fuel : Nat) (e : RuntimeError) (ip : Nat) :
    Careful (Small f 0) (unwind E f fuel e ip) := by
  have hhandled (handlers : List Value) (e : RuntimeError) :
      Calm f (handlers.foldlM (fun e handler => handledError E handler e) e) := by
    induction handlers generalizing e with
    | nil => exact .pure _
    | cons handler handlers ih =>
      rw [List.foldlM_cons]
      exact .bind (calm_handledError hE handler e) ih
  exact .after (.read _) fun _ => .after (.aside (.observes (observes_reportError _ _ _))
    (observes_reportError _ _ _).aside) fun _ => .after (.read _) fun _ =>
      .after (hhandled _ _) fun _ => unwindFrames_careful hE fuel _

end Unwinding

section Operators

variable {E : Engine} (hE : Wary E) (fuel ip : Nat)

include hE

theorem callHandler_careful (handler : Value) (arguments : List Value) :
    Careful (Small f 0) (callHandler E f fuel ip handler arguments) := by
  refine .bind (small_push handler) fun _ => .bind (small_pushAll arguments) fun _ => ?_
  refine .bind (Triple.before (performCall_careful hE fuel arguments.length (.byInstruction ip))
    fun m hm => hm.mono (by omega)) fun _ => .pure fun _ _ => trivial

theorem careful_calls : (Logic.single f (fun _ => Small f 0) (fun _ _ => True)
    (fun s _ => s ≠ .crash)).Calls E E fuel fuel ip ip := by
  refine (small_steady fun _ _ hs _ => hs).calls (fun _ => small_place rfl) (fun bs => ?_)
    (callHandler_careful hE fuel ip)
  refine .modifyFiber fun _ hm => hm.withFiber fun h => h.appendList_of_not_huge fun v hv => ?_
  obtain ⟨b, -, rfl⟩ := List.mem_map.1 hv
  rfl

end Operators

section Execute

variable {E : Engine} (hE : Wary E) (fuel ip : Nat)

theorem stackedArguments_careful :
    Careful (fun m => (m.fiber f).hasArguments) (stackedArguments f) := by
  refine Triple.bind (Q := fun frame m => (m.fiber f).frames.back? = some frame ∧
    (m.fiber f).hasArguments) ?_ fun frame => ?_
  · refine Triple.bind (Q := fun frame m => (m.fiber f).frames.back? = frame ∧
      (m.fiber f).hasArguments) (.read fun _ h => ⟨rfl, h⟩) fun frame => ?_
    cases frame with
    | none => exact .throw fun _ _ => nofun
    | some frame => exact .pure fun _ h => h
  · refine Triple.bind (Q := fun v _ => ∀ x, v = some (.number x) → countOf x < frame.base)
      (.read fun m hm x hx => ?_) fun v => ?_
    · simp only [Fiber.hasArguments, hm.1, Bool.or_eq_true, beq_iff_eq] at hm
      split at hx
      · cases hx
      · dsimp only at hx
        rw [hx] at hm
        simpa [‹¬frame.base = 0›] using hm
    · split
      · exact .ite (fun _ => (Safe.readFiber _ _).careful) fun h m hm => absurd (hm _ rfl) h
      · exact (Safe.internal _).careful

include hE

theorem execute_careful (i : Instruction) :
    Careful (fun m => Small f 0 m ∧ (i.op = .bindArguments → (m.fiber f).hasArguments))
      (execute E f fuel ip i) := by
  have hscopes := safe_scopes f hE.tactful
  by_cases hbind : i.op = .bindArguments
  · have hargs : Careful (fun m => (m.fiber f).hasArguments) (thenNext (bindArguments E f i)) :=
      .then (.then stackedArguments_careful fun _ => .forM fun _ =>
        (hscopes.assignLocal (k := 0) _ trivial).triple) fun _ => .pure _
    unfold execute
    rw [hbind]
    exact Triple.before hargs (fun _ h => h.2 rfl)
  suffices h : Careful (Small f 0) (execute E f fuel ip i) from
    Triple.before h (fun _ h => h.1)
  by_cases hplain : i.isPlain
  · exact Safe.careful ((safe_moves f).execute_single hplain fun _ _ _ => trivial)
  by_cases hoperator : i.isOperator
  · exact (careful_calls hE fuel ip).execute (fun _ _ => trivial) hoperator
  by_cases hscoped : i.isScoped
  · have hdoes : Logic.Does _ i.demand _ (execute E f fuel ip i) (execute E f fuel ip i) :=
      hscopes.execute rfl hscoped
    exact Safe.careful hdoes
  unfold execute
  cases hop : i.op with
  | call | methodCall =>
    exact .then (Triple.before (performCall_careful hE fuel _ _)
      fun _ h => h.mono (Nat.zero_le _)) fun _ => .pure _
  | ret => exact .then (performReturn_careful hE fuel i ip) fun _ => .pure _
  | _ =>
    simp [Instruction.isPlain, Instruction.isOperator, Instruction.isScoped, hop]
      at hbind hplain hoperator hscoped

end Execute

section Loops

variable {E : Engine} (hE : Wary E) {n : Nat} {limit : Option Nat} {executed ip : Nat} {m : Machine}
include hE

theorem step_ne_crash (h : Turn.isHarmless ⟨n, limit, executed, ip, m⟩ E f) :
    (step E f n limit executed ip m).1 ≠ .error .crash := by
  simp only [Turn.isHarmless, Bool.and_eq_true] at h
  obtain ⟨⟨hmodest, hargs⟩, -⟩ := h
  rw [step_eq]
  cases hi : m.code.get? ip with
  | none =>
    have hread : read (fun m => m.code.get? ip) m = (.ok none, m) := congrArg (·, m) (congrArg _ hi)
    rw [bind_ok hread]
    nofun
  | some i =>
    have hread : read (fun m => m.code.get? ip) m = (.ok (some i), m) :=
      congrArg (·, m) (congrArg _ hi)
    rw [hi, Option.all_some] at hargs
    obtain ⟨_, debug, events, hrun, -⟩ := observes_listening f ip i m
    rw [bind_ok hread]
    dsimp only
    rw [bind_ok hrun]
    split
    · nofun
    · have hfiber (hop : i.op = .bindArguments) : (m.fiber f).hasArguments := by
        simpa [hop] using hargs
      exact (execute_careful hE n ip i).ne_crash ⟨m.small_of_isModest hmodest f, hfiber⟩

theorem round_ne_crash (h : Turn.isHarmless ⟨n, limit, executed, ip, m⟩ E f) :
    (Exec.round E f n limit executed ip m).1 ≠ .error .crash := by
  have hstep := step_ne_crash hE h
  have hrecover (e : RuntimeError) : Careful (Small f 0) (recover E f n e ip) := by
    refine .then (unwind_careful hE n e ip) fun r => ?_
    cases r with
    | jump target => exact .bind (.readFiber _ _) fun _ => .pure _
    | done => exact .pure _
    | yielded => exact .pure _
  simp only [Turn.isHarmless, Bool.and_eq_true] at h
  rcases hrun : step E f n limit executed ip m with ⟨s | flow, m'⟩
  · rcases s with (e | _) | _
    · rw [hrun] at h
      rw [round_of_runtime hrun]
      exact (hrecover e).ne_crash (m'.small_of_isModest h.2 f)
    all_goals
      rw [round_of_error hrun rfl]
      rw [hrun] at hstep
      exact fun hs => hstep (congrArg _ (Except.error.inj hs))
  · rw [round_of_ok hrun]
    nofun

/-- A loop whose turns are harmless does not crash. -/
theorem loop_ne_crash (h : ∀ t ∈ trace E f n limit executed ip m, t.isHarmless E f) :
    (loop E f n limit executed ip m).1 ≠ .error .crash := by
  induction n generalizing limit executed ip m with
  | zero => nofun
  | succ n ih =>
    rw [trace, List.forall_mem_cons] at h
    obtain ⟨hturn, hturns⟩ := h
    have hround := round_ne_crash hE hturn
    rw [loop_succ]
    rcases hrun : Exec.round E f n limit executed ip m with ⟨s | r, m'⟩ <;>
      rw [hrun] at hround hturns
    · rw [bind_error hrun]
      exact fun hs => hround (congrArg _ (Except.error.inj hs))
    · rw [bind_ok hrun]
      cases r with
      | again limit' ip' => exact ih hturns
      | leave => exact (safe_pop f).ne_crash trivial

theorem driven_ne_crash {x : Exec Resumption} (hx : (x m).1 ≠ .error .crash)
    (h : ∀ t ∈ drivenTurns E f n (x m), t.isHarmless E f) :
    ((x >>= drive E f n) m).1 ≠ .error .crash := by
  rcases hrun : x m with ⟨s | r, m'⟩ <;> rw [hrun] at hx h
  · rw [bind_error hrun]
    exact fun hs => hx (congrArg _ (Except.error.inj hs))
  · rw [bind_ok hrun]
    cases r with
    | jump ip =>
      rw [drive, runFrom, bind_ok (budget_apply f m')]
      exact loop_ne_crash hE h
    | done => exact (safe_pop f).ne_crash trivial
    | yielded => exact (safe_pop f).ne_crash trivial

end Loops

section Serving

variable {E : Engine} (hE : Wary E) {n : Nat} {m : Machine} {arguments : List Value}

theorem Small.entered (h : Small f k m) : Small f k (m.entered f) := by
  rw [Small, Machine.fiber_entered]
  exact h.withFiber fun h => h

theorem safe_entering (hx : Safe x) : Safe (entering f x) := by
  refine .of_ne_crash fun m => ?_
  rw [entering_apply]
  exact hx.ne_crash trivial

theorem safe_concludeResume {r : Except Stop Value} (hr : r ≠ .error .crash) :
    Safe (concludeResume f r) := by
  unfold concludeResume
  split
  · exact .bind (.modify _) fun _ => .pure _
  · exact .bind (.modify _) fun _ => .pure _
  · exact .bind (.modify _) fun _ => .pure _
  · refine .bind (.modify _) fun _ => ?_
    split
    · exact .bind (.modify _) fun _ => .throw nofun
    · exact .rethrow hr

include hE

theorem callFunction_ne_crash (hm : m.isModest) {function : Value}
    (h : ∀ t ∈ turns E n m (.call function arguments), t.isHarmless E m.currentFiber) :
    (callFunction E n function arguments m).1 ≠ .error .crash := by
  have hbegin : Careful (Small m.currentFiber 0)
      (beginCall E m.currentFiber n function arguments) :=
    .bind (small_push _) fun _ => .bind (small_pushAll _) fun _ =>
      Triple.before (performCall_careful hE n _ _) fun _ h => h.mono (by omega)
  have hsmall : Small m.currentFiber 0 (m.prepared m.currentFiber) :=
    (Small.entered (m.small_of_isModest hm _)).withFiber fun h => h
  rw [outcome_callFunction]
  exact driven_ne_crash hE (hbegin.ne_crash hsmall) h

theorem resume_ne_crash (hm : m.isModest)
    (h : ∀ t ∈ turns E n m (.resume f arguments), t.isHarmless E f) :
    (Exec.resume E n f arguments m).1 ≠ .error .crash := by
  have hbegin (s : Status) : Careful (Small f 0) (beginResume E f n arguments s) := by
    have hsaved : Safe (takeSaved f) :=
      .bind (.readFiber _ _) fun _ => .bind (.modify _) fun _ => .pure _
    unfold beginResume
    split
    · exact .bind (small_pushAll _) fun _ => Triple.before (performCall_careful hE n _ _)
        fun _ h => h.mono (by omega)
    · exact Safe.careful (.bind (.modify _) fun _ => hsaved)
    · exact hsaved.careful
  by_cases hf : (m.fiber f).status.isResumable
  · rw [resume_apply hf _ rfl]
    refine (safe_concludeResume ?_).ne_crash trivial
    by_cases haccepts : (m.fiber f).status.accepts arguments
    · have hsmall : Small f 0 (m.begun f) :=
        (Small.entered (m.small_of_isModest hm f)).withFiber fun h => h
      simp only [turns, hf, haccepts, Bool.and_self, if_true] at h
      rw [runResumed_of_accepts haccepts]
      exact driven_ne_crash hE ((hbegin _).ne_crash hsmall) h
    · rw [runResumed_of_not_accepts haccepts]
      intro h
      cases h
  · rw [resume_refused hf]
    intro h
    cases h

theorem safe_close (n : Nat) : Safe (Exec.close E n f) := by
  have hframes (n : Nat) : Safe (closeFrames E f n) := by
    induction n with
    | zero => exact .throw nofun
    | succ n ih =>
      exact .bind (.readFiber _ _) fun _ => .ite (.bind (safe_closeBlocks f hE.tactful _ n) fun _ =>
        .bind (.bind (safe_popFrame f) fun _ => .pure _) fun _ => ih) (.pure _)
  have hsuspended : Safe (closeSuspended E n f) := by
    refine safe_entering (.bind (.modify _) fun _ => .attempt (hframes n) fun r hr =>
      .bind (.modify _) fun _ => ?_)
    split
    · exact .bind (.modify _) fun _ => .pure _
    · exact .bind (.modify _) fun _ => .pure _
    · exact .rethrow hr
  refine .bind (.readFiber _ _) fun s => ?_
  split
  · exact .complain _
  · exact .complain _
  · exact .bind (.readFiber _ _) fun _ => .pure _
  · exact .bind (.modify _) fun _ => .pure _
  · exact hsuspended
  · exact hsuspended

/-- A request whose turns are harmless is not answered with a crash. -/
theorem serve_ne_crash (hm : m.isModest) {request : Request} (hno : request.overflows m = false)
    (h : ∀ t ∈ turns E n m request, t.isHarmless E (request.flow m)) :
    (serve E n request m).1 ≠ .error .crash := by
  cases request with
  | call function arguments => exact callFunction_ne_crash hE hm h
  | resume f arguments => exact resume_ne_crash hE hm h
  | close f => exact (safe_close hE n).ne_crash trivial
  | invoke id site arguments method =>
    have hread : read (fun m => m.heap.native id) m = (.ok (m.heap.native id), m) := rfl
    change (Exec.invoke E id site (.ofStacked arguments method) m).1 ≠ .error .crash
    rw [Exec.invoke, bind_ok hread]
    cases hbehavior : (m.heap.native id).behavior with
    | builtin b =>
      refine (safe_libraryRun hE.tactful site _ b fun hb => ?_).ne_crash trivial
      rw [Request.overflows, hbehavior, hb] at hno
      exact hno
    | host action =>
      exact (Safe.bind (.ite (.bind (.read _) fun _ => .modify _) (.pure _)) fun _ =>
        safe_hostRun hE.tactful site _ id action).ne_crash trivial

end Serving

end Exec

/-- A request is given up, or else it is served like by the engine, and all its turns are
harmless. -/
theorem cautious_succ_cases (n : Nat) (request : Request) (m : Machine) :
    cautious (n + 1) request m = (.error .exhausted, m) ∨
      cautious (n + 1) request m = serve (cautious n) n request m ∧
      (serve (cautious n) n request m).2.isModest ∧ m.isModest ∧ request.overflows m = false ∧
      ∀ t ∈ turns (cautious n) n m request, t.isHarmless (cautious n) (request.flow m) := by
  simp only [cautious]
  split
  · rename_i hserves
    simp only [Bool.and_eq_true, Bool.not_eq_true', List.all_eq_true] at hserves
    rcases hrun : serve (cautious n) n request m with ⟨r, m'⟩
    by_cases hmodest : m'.isModest
    · exact .inr ⟨if_pos hmodest, hmodest, hserves.1.1, hserves.1.2, hserves.2⟩
    · exact .inl (if_neg hmodest)
  · exact .inl rfl

theorem wary_cautious (n : Nat) : Wary (cautious n) := by
  induction n with
  | zero => exact fun _ _ => ⟨nofun, .inr rfl⟩
  | succ n ih =>
    intro request m
    obtain hgives | ⟨hserves, hafter, hbefore, hno, hturns⟩ := cautious_succ_cases n request m
    · rw [hgives]
      exact ⟨nofun, .inr rfl⟩
    · have hcrash := serve_ne_crash ih hbefore hno hturns
      rw [hserves]
      rcases hrun : serve (cautious n) n request m with ⟨s | v, m'⟩ <;> rw [hrun] at hafter hcrash
      · exact ⟨fun hs => hcrash (congrArg _ hs), .inl hafter⟩
      · exact hafter

theorem agrees_cautious (n : Nat) : Agrees (cautious n) (engine n) :=
  agrees_of_serves (fun _ _ => rfl) (fun n r m => (cautious_succ_cases n r m).imp_right And.left) le_rfl

/-- A machine with a function that binds an argument and then has the second one called under
protection, which calls nil, and with one that puts a number in the place of its argument count. -/
def miscounting : Machine where
  code := { instructions := #[{ op := .preamble, number := 6 },
    { op := .beginFunction, number := 1 },
    { op := .bindArguments, symbols := some [.localVar "x" 0 false false] },
    { op := .literal, value := some (.native ⟨0⟩) },
    { op := .literal, value := some (.closure ⟨1⟩) },
    { op := .call, number := 1 },
    { op := .ret, number := 1 },
    { op := .preamble, number := 3 },
    { op := .literal, value := some .nil },
    { op := .call },
    { op := .ret, number := 1 },
    { op := .preamble, number := 4 },
    { op := .literal, value := some (.ofNat 100) },
    { op := .swap, number := 0, number2 := 1 },
    { op := .bindArguments, symbols := some [] },
    { op := .ret }] }
  heap := {
    closures := #[{ entry := 0 }, { entry := 7 }, { entry := 11 }]
    natives := #[{ name := "pcall", behavior := .builtin .pcall }] }
  fibers := #[{ status := .main, owner := ⟨0⟩ }]

theorem served_miscounting :
    (cautious 14 (.call (.closure ⟨0⟩) [.bool true]) miscounting).1 ≠ .error .exhausted := by
  have hok : (cautious 14 (.call (.closure ⟨0⟩) [.bool true]) miscounting).1.isOk = true := by
    decide +kernel
  intro h
  rw [h] at hok
  cases hok

end ScriptMachine
