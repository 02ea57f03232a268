import ScriptMachine.Proofs.Machine.Leaving
import ScriptMachine.Proofs.Machine.Tidying

namespace ScriptMachine

open Exec Discipline Machine

def Fiber.popped (b : Fiber) : Fiber := { b with values := b.values.pop }

/-- A machine that obeys but for what a call has left on top of a value stack. -/
structure Machine.Bears (D : Discipline) (m m₀ : Machine) (f : FiberId) : Prop where
  top : ∀ v, (m.fiber f).values.back? = some v → v.Suits D f m
  below : (m.withFiber f Fiber.popped).Tidy D m₀

/-- The machine after a call was set up or has returned obeys, but for the request of a flow that
yields. -/
def Resumption.Tidy (D : Discipline) (m₀ : Machine) (f : FiberId) (m : Machine) : Resumption → Prop
  | .yielded => (m₀.fiber f).canYield ∧ (m.withFiber f Fiber.popped).Tidy D m₀ ∧
    ∀ v, (m.fiber f).values.back? = some v → D.Answer v
  | _ => m.Tidy D m₀

def Flow.Tidy (D : Discipline) (m₀ : Machine) (f : FiberId) (m : Machine) : Flow → Prop
  | .next => m.Tidy D m₀
  | .transfer r => r.Tidy D m₀ f m

section Tops

variable {D : Discipline} {m m₀ : Machine} {f : FiberId} {v : Value} {u : Fiber → Fiber}

theorem Value.suits_of_held (h : D.Held v) : v.Suits D f m := ⟨answer_of_held h, fun _ _ _ => .inr h⟩

theorem Machine.Tidy.of_pop
    (h : (m.withFiber f Fiber.popped).Tidy D m₀)
    (htop : ∀ v, (m.fiber f).values.back? = some v → D.Held v) : m.Tidy D m₀ := by
  refine ⟨⟨h.code, h.heap, fun b hb => ?_⟩, fun f' => ?_⟩
  · obtain ⟨i, hi⟩ := Array.mem_iff_getElem?.1 hb
    by_cases hf : f.index = i
    · have hpop := h.fibers b.popped (Array.mem_iff_getElem?.2
        ⟨i, by rw [Machine.withFiber, Array.getElem?_modify, if_pos hf, hi]; rfl⟩)
      have hfiber : m.fiber f = b := by
        rw [Machine.fiber, Array.getD_eq_getD_getElem?, hf, hi, Option.getD_some]
      refine ⟨fun v hv => ?_, hpop.frames, hpop.closeError⟩
      obtain ⟨j, hj⟩ := Array.mem_iff_getElem?.1 hv
      by_cases hlast : j < b.values.size - 1
      · exact hpop.values v (Array.mem_iff_getElem?.2
          ⟨j, by rw [Fiber.popped, Array.getElem?_pop, if_pos hlast, hj]⟩)
      · obtain ⟨hsize, -⟩ := Array.getElem?_eq_some_iff.1 hj
        refine htop v ?_
        rw [hfiber, Array.back?_eq_getElem?, show b.values.size - 1 = j by omega, hj]
    · exact h.fibers b (Array.mem_iff_getElem?.2
        ⟨i, by rw [Machine.withFiber, Array.getElem?_modify, if_neg hf, hi]⟩)
  · rw [← h.canYield]
    exact (Machine.fiber_withFiber_of (v := Fiber.canYield) rfl f').symm

theorem Machine.Tidy.bears (h : m.Tidy D m₀) : m.Bears D m₀ f :=
  ⟨fun v hv => Value.suits_of_held ((h.fiber f).values v (Array.mem_of_back? hv)),
    h.withFiber (fun _ hb => hb.withValues (forall_mem_pop hb.values)) fun _ => rfl⟩

theorem Machine.back?_withFiber (htop : ∀ b, (u b).values.back? = some v) {w : Value}
    (hw : ((m.withFiber f u).fiber f).values.back? = some w) : f.index < m.fibers.size ∧ w = v := by
  by_cases hf : f.index < m.fibers.size
  · rw [fiber_withFiber_self hf, htop] at hw
    exact ⟨hf, (Option.some.inj hw).symm⟩
  · rw [withFiber_of_le (by omega), fiber, Array.getD_eq_getD_getElem?,
      Array.getElem?_eq_none (by omega)] at hw
    cases hw

theorem Machine.Tidy.bears_withFiber (h : m.Tidy D m₀) (hv : v.Suits D f m)
    (htop : ∀ b, (u b).values.back? = some v) (hbelow : ∀ b, b.Obeys D → (u b).popped.Obeys D)
    (hcanYield : ∀ b, (u b).canYield = b.canYield) (hstatus : ∀ b, (u b).status = b.status) :
    (m.withFiber f u).Bears D m₀ f := by
  refine ⟨fun w hw => ?_, ?_⟩
  · obtain ⟨hf, rfl⟩ := back?_withFiber htop hw
    refine ⟨hv.1, fun items forced hyield => ?_⟩
    rw [fiber_withFiber_self hf, Library.isYieldable, hcanYield, hstatus]
    exact hv.2 items forced hyield
  · rw [withFiber_withFiber]
    exact h.withFiber hbelow hcanYield

end Tops

section Calls

variable {D : Discipline} {m₀ : Machine} {f : FiberId} {P : Machine → Prop} {α : Type}
  {setup : CallSetup}

/-- Two operations on machines of a kind that do the same, after which the machine obeys but for the
request of a flow that yields. -/
abbrev Exec.Settles (D : Discipline) (m₀ : Machine) (f : FiberId) (P : Machine → Prop)
    (x x' : Exec Resumption) : Prop :=
  Joint P x x' (fun r m => r.Tidy D m₀ f m) (fun s m => s.Obeys D ∧ m.Tidy D m₀)

theorem Exec.Tidies.then {β : Type} {x x' : Exec α} {A : α → Prop} {g g' : α → Exec β}
    {U : β → Machine → Prop} (hx : Tidies D m₀ x x' A) (hg : ∀ a, A a →
      Joint (·.Tidy D m₀) (g a) (g' a) U (fun s m => s.Obeys D ∧ m.Tidy D m₀)) :
    Joint (·.Tidy D m₀) (x >>= g) (x' >>= g') U (fun s m => s.Obeys D ∧ m.Tidy D m₀) :=
  .bind hx fun a => .given (hg a)

theorem joint_throw {Q : α → Machine → Prop} {s : Stop} (h : s.Obeys D) :
    Joint (·.Tidy D m₀) (throw s) (throw s) Q (fun s m => s.Obeys D ∧ m.Tidy D m₀) :=
  .of (.throw fun _ hm => ⟨h, hm⟩)

theorem joint_complain {Q : α → Machine → Prop} (c : Complaint) :
    Joint (·.Tidy D m₀) (complain c) (complain c) Q (fun s m => s.Obeys D ∧ m.Tidy D m₀) :=
  joint_throw (s := .fault (.complain c)) nofun

section Logic

/-- The logic of two runs that do the same on machines that obey, which they go on to do but for the
request of a flow that yields. -/
def Discipline.logic (D : Discipline) (m₀ : Machine) (f : FiberId) : Logic f where
  D := D
  Post α := α → Machine → Prop
  Does _ Q x x' := Joint (·.Tidy D m₀) x x' Q (fun s m => s.Obeys D ∧ m.Tidy D m₀)
  flow flow m := flow.Tidy D m₀ f m

variable {α : Type} {x x' : Exec α} {A : α → Prop} {k k' : Nat}

theorem Exec.Tidies.gives (h : Tidies D m₀ x x' A) : (D.logic m₀ f).Gives k k' A x x' :=
  ⟨fun hg => h.then hg⟩

theorem Logic.Gives.tidies (h : (D.logic m₀ f).Gives k k' A x x') : Tidies D m₀ x x' A := by
  have hend (a : α) (ha : A a) : (D.logic m₀ f).Does k' (fun a m => A a ∧ m.Tidy D m₀)
      (Pure.pure a) (Pure.pure a) := .of (.pure fun _ hm => ⟨ha, hm⟩)
  exact h.does hend

theorem tidy_moves : (D.logic m₀ f).Moves where
  complain c := joint_complain c
  internal _ := joint_throw trivial
  next := .of (.pure fun _ h => h)
  result h := (tidies_push f h).then fun _ _ => .of (.pure fun _ h => h)
  pop := (tidies_pop f).gives
  peek depth := (tidies_peek f depth).gives
  top _ hg := (tidies_topFrame f).gives.bind fun frame _ => hg frame
  localValue frame index := (tidies_localValue frame index).gives
  readCell cell := (tidies_readCell cell).gives
  writeCell cell h := (tidies_writeCell cell h).gives
  metamethod? v event := (tidies_metamethod? v event).gives
  handler? l r event := Tidies.gives <| .read fun m hm w hw => by
    rw [Option.mem_def, Option.orElse_eq_some] at hw
    exact hw.elim (fun hw => D.held_of_part (hm.heap.metamethod? hw))
      fun hw => D.held_of_part (hm.heap.metamethod? hw.2)
  table t := (tidies_table t).gives.mono fun _ ht => ht.get
  shared _ _ := Tidies.gives (.read fun _ _ => trivial)
  setIndex t hkey hv := (tidies_setIndex t hkey hv).gives
  height := (tidies_height f).gives
  push h := (tidies_push f h).gives
  pushAll h := (tidies_pushAll f h).gives
  drop n := (tidies_drop f n).gives
  popMany n := (tidies_popMany f n).gives
  poke _ h := (tidies_poke f _ h).gives
  loopNumber depth := (tidies_loopNumber f depth).gives
  newTable := tidies_newTable.gives
  fill t last h := (tidies_modifyTable t fun _ ht => ht.fill last h).gives

theorem Polite.scopes {E E' : Engine} (hE : Polite D E E') :
    (D.logic m₀ f).Scopes (· = ·) E E' where
  toBasic := tidy_moves.toBasic
  newBuiltin name b := (tidies_newBuiltin name b).gives
  place h := (tidies_push f (D.held_tuple.2 h)).gives
  call hfunction h := (hE.call hfunction h).gives
  localCell _ := tidy_moves.localCell (fun hu => (tidies_modifyFrame f fun frame =>
    (hu.like frame).handlers).gives) (tidies_newCell (held_of_isAtom rfl)).gives
  addPending slots := (tidies_modifyFrame f (u := (·.addPending slots)) fun _ => rfl).gives
  newCell h := (tidies_newCell h).gives
  globals := Tidies.gives (.read fun _ _ => trivial)
  newClosure c := (tidies_newClosure c).gives
  modifyFrame hu := (tidies_modifyFrame f fun frame => (hu.like frame).handlers).gives
  zero hn hy := by
    cases hn
    rw [hy]
    exact joint_throw trivial
  succ {n} _ hn := ⟨n, hn.symm, rfl⟩

theorem tidies_closeBlocks {E E' : Engine} (hE : Polite D E E') {error : Value} (h : D.Held error)
    (n : Nat) : Tidies D m₀ (closeBlocks E f error n) (closeBlocks E' f error n) fun _ => True :=
  (hE.scopes.closeBlocks (k := 0) (f := f) h rfl).tidies

end Logic

theorem bears_peek : Triple (·.Bears D m₀ f) (peek f 0)
    (fun v m => (m.fiber f).values.back? = some v ∧ m.Bears D m₀ f)
    (fun s m => s.Obeys D ∧ m.Tidy D m₀) := by
  intro m hm
  cases hback : (m.fiber f).values.back? with
  | none =>
    have hsize : (m.fiber f).values.size = 0 := by
      rw [Array.back?_eq_none_iff] at hback
      rw [hback]
      rfl
    rw [peek_eq, if_neg (by omega)]
    exact ⟨trivial, hm.below.of_pop fun v hv => by rw [hback] at hv; cases hv⟩
  | some v =>
    rw [peek_top_apply hback]
    exact ⟨hback, hm⟩

theorem settle_tidy {call call' : Nat → CallSetup → Exec Resumption}
    (hcall : ∀ argc setup, setup.handlers.Obeys D →
      Settles D m₀ f (·.Tidy D m₀) (call argc setup) (call' argc setup))
    (returnTo : Option Nat) (isEntry : Bool) : Settles D m₀ f (·.Bears D m₀ f)
      (settle call f returnTo isEntry) (settle call' f returnTo isEntry) := by
  refine .bind (.of bears_peek) fun v => ?_
  cases v with
  | tailCall id =>
    -- the request is taken off the stack, and what it asks for may be held
    refine .bind (Q := fun t m => t.Obeys D ∧ (m.fiber f).values.back? = some (.tailCall id) ∧
      m.Bears D m₀ f) (.of (.read fun m hm => ⟨hm.2.below.heap.tailCall id, hm⟩)) fun t =>
        .given fun ht => .bind (Q := fun _ m => m.Tidy D m₀) (.of fun m hm => ?_) fun _ => ?_
    · have hpop : (discard (pop f) : Exec Unit) m = (.ok (), m.withFiber f Fiber.popped) :=
        bind_ok (pop_apply hm.1)
      rw [hpop]
      exact hm.2.below
    · exact (tidies_push f ht.function).then fun _ _ => (tidies_pushAll f ht.arguments).then
        fun _ _ => hcall _ _ ht.handlers
  | yieldRequest items forced =>
    refine .of fun m hm => ?_
    obtain ⟨hanswer, hyieldable⟩ := hm.2.top _ hm.1
    -- the request stays where it is if the flow complains, so that it has to be one that may be held
    have hstays (hcan : Library.isYieldable (m.fiber f) = false) : m.Tidy D m₀ :=
      hm.2.below.of_pop fun v hv => Option.some.inj (hm.1.symm.trans hv) ▸
        (hyieldable items forced rfl).resolve_left (by rw [hcan]; decide)
    simp only [Library.isYieldable, Bool.and_eq_false_iff] at hstays
    dsimp only
    rw [bind_ok (readFiber_apply f _ m)]
    by_cases hmain : (m.fiber f).status == .main
    · rw [if_pos hmain]
      exact ⟨nofun, hstays (.inl (by simpa using hmain))⟩
    rw [if_neg hmain, bind_ok (readFiber_apply f _ m)]
    by_cases hcannot : !(m.fiber f).canYield
    · rw [if_pos hcannot]
      exact ⟨nofun, hstays (.inr (by simpa using hcannot))⟩
    rw [if_neg hcannot]
    have hvalues : ((m.withFiber f fun b => { b with savedIp := returnTo }).fiber f).values =
        (m.fiber f).values := fiber_withFiber_of (v := Fiber.values) rfl f
    have hbelow : ((m.withFiber f fun b => { b with savedIp := returnTo }).withFiber f
        Fiber.popped).Tidy D m₀ := by
      have hpopped := hm.2.below.withFiber (f := f) (u := fun b => { b with savedIp := returnTo })
        (fun _ hb => ⟨hb.values, hb.frames, hb.closeError⟩) fun _ => rfl
      rw [withFiber_withFiber] at hpopped ⊢
      exact hpopped
    refine ⟨?_, hbelow, fun v hv => ?_⟩
    · rw [← hm.2.below.canYield, fiber_withFiber_of (v := Fiber.canYield) rfl f]
      simpa using hcannot
    · have hback := hm.1.symm.trans (hvalues ▸ hv)
      exact Option.some.inj hback ▸ hanswer
  | _ =>
    refine .of fun m hm => ?_
    have htidy : m.Tidy D m₀ := hm.2.below.of_pop fun w hw => by
      rw [hm.1] at hw
      cases hw
      exact (hm.2.top _ hm.1).1
    cases returnTo <;> exact htidy

theorem tidies_resolveCallee (name : Option String) (chain argc : Nat) : Tidies D m₀
    (resolveCallee f name chain argc) (resolveCallee f name chain argc) fun _ => True := by
  induction chain generalizing argc with
  | zero =>
    unfold resolveCallee
    refine .bind (tidies_peek f argc) fun _ _ => .ite (fun _ => .pure trivial) fun _ =>
      .bind (tidies_metamethod? _ _) fun handler _ => ?_
    cases handler <;> exact .complain _
  | succ chain ih =>
    unfold resolveCallee
    refine .bind (tidies_peek f argc) fun _ _ => .ite (fun _ => .pure trivial) fun _ =>
      .bind (tidies_metamethod? _ _) fun handler hh => ?_
    cases handler with
    | none => exact .complain _
    | some handler =>
      exact .bind (.modifyFiber (fun _ hb => hb.withValues (forall_mem_insert hb.values
        (hh handler rfl) _)) fun _ => rfl) fun _ _ => ih _

theorem tidies_replaceFrame (argc : Nat) (h : setup.handlers.Obeys D) :
    Tidies D m₀ (replaceFrame f argc setup) (replaceFrame f argc setup)
      fun setup => setup.handlers.Obeys D :=
  .bind .reads fun _ _ => .ite
    (fun _ => .bind (tidies_popMany f _) fun _ hmoved => .bind (tidies_popFrame f) fun _ _ =>
      .bind (tidies_popArguments f) fun _ _ => .bind (tidies_pushAll f hmoved) fun _ _ => .pure h)
    fun _ => .pure h

variable {E E' : Engine} (hE : Polite D E E')

omit hE in
theorem bears_push {v : Value} : Triple (fun m => v.Suits D f m ∧ m.Tidy D m₀) (push f v)
    (fun _ m => m.Bears D m₀ f) (fun s m => s.Obeys D ∧ m.Tidy D m₀) := by
  refine .modifyFiber fun m hm => hm.2.bears_withFiber hm.1 (fun _ => Array.back?_push)
    (fun b hb => hb.withValues ?_) (fun _ => rfl) fun _ => rfl
  rw [Array.pop_push]
  exact hb.values

include hE

theorem invoke_suits (id : NativeId) (location : Option Location) {arguments : List Value}
    (h : D.AllHeld arguments) (method : Bool) : Joint (·.Tidy D m₀)
      (E (.invoke id ⟨f, location⟩ arguments method))
      (E' (.invoke id ⟨f, location⟩ arguments method))
      (fun v m => v.Suits D f m ∧ m.Tidy D m₀) (fun s m => s.Obeys D ∧ m.Tidy D m₀) := hE m₀ _ h

theorem applyContinuation_suits (handlers : Handlers) (v : Value) (location : Option Location) :
    Joint (fun m => v.Suits D f m ∧ m.Tidy D m₀) (applyContinuation E f handlers v location)
      (applyContinuation E' f handlers v location) (fun w m => w.Suits D f m ∧ m.Tidy D m₀)
      (fun s m => s.Obeys D ∧ m.Tidy D m₀) := by
  refine .conseq (P := fun m => D.Answer v ∧ v.Suits D f m ∧ m.Tidy D m₀) (.given fun hanswer => ?_)
    (fun m h => ⟨h.1.1, h⟩) (fun _ _ h => h) fun _ _ h => h
  unfold applyContinuation
  split
  · exact .of (.pure fun _ h => h)
  · refine .conseq (P := (·.Tidy D m₀)) (.ite (fun _ => Tidies.then (A := fun _ => True)
      (.read fun _ _ => trivial) fun _ _ => joint_complain _) fun hrequest => ?_) (fun _ h => h.2)
        (fun _ _ h => h) fun _ _ h => h
    exact invoke_suits hE _ _ (allHeld_singleton.2 (held_of_answer hanswer hrequest)) _

theorem performCall_tidy (n argc : Nat) (h : setup.handlers.Obeys D) :
    Settles D m₀ f (·.Tidy D m₀) (performCall E f n argc setup) (performCall E' f n argc setup) := by
  induction n generalizing argc setup with
  | zero => exact joint_throw trivial
  | succ n ih =>
    refine (tidies_resolveCallee _ _ argc).then fun argc _ => (tidies_replaceFrame argc h).then
      fun setup h => Tidies.then (A := fun _ => True) (.read fun _ _ => trivial) fun calledFrom _ =>
        Tidies.then (A := fun _ => True) (.read fun _ _ => trivial) fun _ _ => .first
          (joint_complain _) fun _ => (tidies_height f).then fun size _ =>
            Tidies.then (A := fun _ => True) (.read fun _ _ => trivial) fun callee _ => ?_
    split
    · refine Tidies.then (A := fun _ => True) (.read fun _ _ => trivial) fun closure _ =>
        (tidies_push f (held_of_isAtom rfl)).then fun _ _ => Tidies.then (.modifyFiber (fun _ hb => hb.withFrames
          (forall_mem_push hb.frames h)) fun _ => rfl) fun _ _ => .of (.pure fun _ hm => hm)
    · refine Tidies.then (A := D.AllHeld)
        (.read fun _ hm => forall_mem_extract (hm.fiber f).values _ _) fun arguments harguments =>
          Tidies.then (.modifyFiber (fun _ hb => hb.withFrames (forall_mem_push hb.frames h))
            fun _ => rfl) fun _ _ => .bind (invoke_suits hE _ _ harguments _) fun v =>
              .bind (applyContinuation_suits hE _ v _) fun v =>
                .bind (Q := fun _ m => m.Bears D m₀ f) (.of (.modifyFiber fun m hm => ?_))
                  fun _ => settle_tidy (fun argc setup h => ih argc h) _ _
      refine hm.2.bears_withFiber hm.1 (fun _ => Array.back?_push) (fun b hb => ⟨?_,
        forall_mem_pop hb.frames, hb.closeError⟩) (fun _ => rfl) fun _ => rfl
      rw [Fiber.popped, Array.pop_push]
      exact forall_mem_shrink hb.values _
    · exact joint_throw trivial

theorem performReturn_tidy (fuel : Nat) (i : Instruction) (ip : Nat) : Settles D m₀ f (·.Tidy D m₀)
    (performReturn E f fuel i ip) (performReturn E' f fuel i ip) := by
  have hsettle (frame : Frame) : Settles D m₀ f (·.Bears D m₀ f)
      (settle (performCall E f fuel) f frame.returnTo frame.isEntry)
      (settle (performCall E' f fuel) f frame.returnTo frame.isEntry) :=
    settle_tidy (fun argc _ h => performCall_tidy hE fuel argc h) _ _
  have hleave {v : Value} (hv : D.Held v) :
      Settles D m₀ f (·.Tidy D m₀) (leaveWith E f fuel ip v) (leaveWith E' f fuel ip v) := by
    refine (tidies_popFrame f).then fun frame _ => (tidies_popArguments f).then fun _ _ =>
      Tidies.then (A := fun _ => True) (.read fun _ _ => trivial) fun location _ =>
        (tidies_push f hv).then fun _ _ => .ite (fun _ => (tidies_pop f).then fun v hv => ?_)
          fun _ => (hsettle frame).conseq (fun _ h => h.bears) (fun _ _ h => h) fun _ _ h => h
    exact .bind (.conseq (applyContinuation_suits hE _ v _) (fun _ h => ⟨Value.suits_of_held hv, h⟩)
      (fun _ _ h => h) fun _ _ h => h) fun v => .bind (.of bears_push) fun _ => hsettle frame
  exact (tidies_closeBlocks hE (held_of_isAtom rfl) fuel).then fun _ _ => .ite
    (fun _ => Tidies.then (A := D.Held) (.pure (held_tuple_of_isAtom (List.forall_mem_nil _)))
      fun _ => hleave) fun _ => .ite
      (fun _ => (tidies_pop f).then fun _ => hleave)
      fun _ => Tidies.then (A := D.Held) (.internal _) fun _ => hleave

end Calls

section Unwinding

variable {D : Discipline} {m₀ : Machine} {f : FiberId} {E E' : Engine} (hE : Polite D E E')
  {e : RuntimeError}
include hE

theorem unwindFrames_tidy (n : Nat) (he : e.Obeys D) :
    Settles D m₀ f (·.Tidy D m₀) (unwindFrames E f n e) (unwindFrames E' f n e) := by
  induction n generalizing e with
  | zero => exact joint_throw trivial
  | succ n ih =>
    refine Tidies.then (A := fun _ => True) (.read fun _ _ => trivial) fun _ _ =>
      .first (joint_throw he) fun _ => (tidies_closeBlocks hE (D.held_of_part he.toValue) n).attempt.then
        fun r hr => ?_
    split
    · exact Tidies.then (.modify fun _ hm => ⟨⟨hm.code, hm.heap, hm.fibers⟩, hm.canYield⟩)
        fun _ _ => ih (RuntimeError.Obeys.decorate hr none)
    · exact joint_throw hr
    · refine (tidies_popFrame f).then fun frame hframe => ?_
      split
      · refine .first (.conseq (tidies_popArguments f) (fun _ h => h) (fun _ _ h => h.2)
          fun _ _ h => h) fun _ => .bind (invoke_suits hE _ _ (allHeld_singleton.2 (D.held_of_part he.toValue)) _)
            fun v => .bind (.of bears_push) fun _ =>
              settle_tidy (fun argc _ h => performCall_tidy hE n argc h) _ _
      · exact .ite (fun _ => joint_throw he) fun _ => ih he

theorem unwind_tidy (fuel : Nat) (he : e.Obeys D) (ip : Nat) :
    Settles D m₀ f (·.Tidy D m₀) (unwind E f fuel e ip) (unwind E' f fuel e ip) := by
  have hhandled (handlers : List Value) (hh : D.AllHeld handlers) (e : RuntimeError) (he : e.Obeys D) :
      Tidies D m₀ (handlers.foldlM (fun e handler => handledError E handler e) e)
        (handlers.foldlM (fun e handler => handledError E' handler e) e) (RuntimeError.Obeys D) := by
    induction handlers generalizing e with
    | nil => exact .pure he
    | cons handler handlers ih =>
      rw [List.foldlM_cons, List.foldlM_cons]
      exact .bind (tidies_handledError hE (allHeld_cons.1 hh).1 e)
        fun e he => ih (allHeld_cons.1 hh).2 e he
  refine Tidies.then (A := fun _ => True) (.read fun _ _ => trivial) fun location _ =>
    (Tidies.observes (observes_reportError _ _ _)).then fun _ _ => Tidies.then (A := D.AllHeld)
      (.read fun m hm v hv => ?_) fun handlers hh =>
        (hhandled handlers hh _ (he.decorate location)).then fun _ he =>
          unwindFrames_tidy hE fuel he
  obtain ⟨frame, hframe, hv⟩ := List.mem_filterMap.1 hv
  rw [List.mem_reverse, Array.mem_toList_iff] at hframe
  exact (hm.fiber f).frames frame hframe v hv

end Unwinding

section Execution

variable {D : Discipline} {m₀ : Machine} {f : FiberId}

/-- Two operations that do the same on machines that obey, which they go on to do but for the request
of a flow that yields. -/
abbrev Exec.Flows (D : Discipline) (m₀ : Machine) (f : FiberId) (x x' : Exec Flow) : Prop :=
  Joint (·.Tidy D m₀) x x' (fun flow m => flow.Tidy D m₀ f m) (fun s m => s.Obeys D ∧ m.Tidy D m₀)

theorem Exec.Settles.flows {P : Machine → Prop} {x x' : Exec Resumption} (h : Settles D m₀ f P x x') :
    Joint P (do return Flow.transfer (← x)) (do return Flow.transfer (← x'))
      (fun flow m => flow.Tidy D m₀ f m) (fun s m => s.Obeys D ∧ m.Tidy D m₀) :=
  .bind h fun _ => .of (.pure fun _ h => h)

variable {E E' : Engine} (hE : Polite D E E') (fuel ip : Nat)
include hE

theorem Polite.calls : (D.logic m₀ f).Calls E E' fuel fuel ip ip where
  toBasic := tidy_moves.toBasic
  flag _ := (tidies_push f (held_of_isAtom rfl)).gives
  flags bs := by
    refine (tidies_pushAll f fun v hv => ?_).gives
    obtain ⟨b, -, rfl⟩ := List.mem_map.1 hv
    exact held_of_isAtom rfl
  handler hh h := (tidies_push f hh).then fun _ _ => (tidies_pushAll f h).then fun _ _ =>
    (performCall_tidy hE fuel _ Handlers.obeys_empty).flows

theorem execute_tidy {i : Instruction} (hi : ∀ v ∈ i.value, D.Held v) :
    Flows D m₀ f (execute E f fuel ip i) (execute E' f fuel ip i) :=
  Logic.execute (L := D.logic m₀ f) tidy_moves (hE.calls fuel ip) hE.scopes rfl hi
    (fun _ => .of (.pure fun _ hm => hm)) (tidies_stackedArguments f).gives
    (fun _ => (performCall_tidy hE fuel _ Handlers.obeys_empty).flows)
    fun _ => (performReturn_tidy hE fuel i ip).flows

end Execution

end ScriptMachine
