import ScriptMachine.Proofs.Machine.Discipline

namespace ScriptMachine

open Exec Discipline

variable {arguments : List Value} {v function : Value}

/-- The values that go with a request may be held. Those that a flow is resumed with may be parts,
since they become a tuple. -/
def Request.Obeys (D : Discipline) : Request → Prop
  | .call function arguments => D.Held function ∧ D.AllHeld arguments
  | .resume _ arguments => D.AllParts arguments
  | .close _ => True
  | .invoke _ _ arguments _ => D.AllHeld arguments

/-- A value with which a native function may end that was called on a flow. It may be a request to
yield if the flow can do so, or if requests may be held. -/
def Value.Suits (D : Discipline) (v : Value) (f : FiberId) (m : Machine) : Prop :=
  D.Answer v ∧ ∀ items forced, v = .yieldRequest items forced →
    Library.isYieldable (m.fiber f) ∨ D.Held v

/-- What may be answered to a request. -/
def Request.Answered (D : Discipline) (m : Machine) (v : Value) : Request → Prop
  | .call .. | .close _ => D.Held v
  | .resume .. => D.Answer v
  | .invoke _ site _ _ => v.Suits D site.fiber m

/-- Two engines that do the same for requests and machines that obey, which the machines go on to
do. -/
def Polite (D : Discipline) (E E' : Engine) : Prop :=
  ∀ (m₀ : Machine) (request : Request), request.Obeys D → Joint (·.Tidy D m₀) (E request)
    (E' request) (fun v m => request.Answered D m v ∧ m.Tidy D m₀)
    (fun s m => s.Obeys D ∧ m.Tidy D m₀)

namespace Polite

variable {D : Discipline} {E E' : Engine} (hE : Polite D E E') {m₀ : Machine}
include hE

theorem call (h : D.Held function) (harguments : D.AllHeld arguments) :
    Tidies D m₀ (E (.call function arguments)) (E' (.call function arguments)) D.Held :=
  hE m₀ _ ⟨h, harguments⟩

theorem resume (f : FiberId) (harguments : D.AllParts arguments) :
    Tidies D m₀ (E (.resume f arguments)) (E' (.resume f arguments)) D.Answer :=
  hE m₀ _ harguments

theorem close (f : FiberId) : Tidies D m₀ (E (.close f)) (E' (.close f)) D.Held :=
  hE m₀ (.close f) trivial

theorem invoke (id : NativeId) (site : CallSite) (harguments : D.AllHeld arguments) (method : Bool) :
    Tidies D m₀ (E (.invoke id site arguments method)) (E' (.invoke id site arguments method))
      D.Answer :=
  Joint.conseq (hE m₀ _ harguments) (fun _ h => h) (fun _ _ h => ⟨h.1.1, h.2⟩) fun _ _ h => h

end Polite

section Stacks

variable {D : Discipline} {m₀ : Machine} (f : FiberId)

theorem tidies_push (h : D.Held v) : Tidies D m₀ (push f v) (push f v) fun _ => True :=
  .modifyFiber (fun _ hb => hb.withValues (forall_mem_push hb.values h)) fun _ => rfl

theorem tidies_pushAll {vs : List Value} (h : D.AllHeld vs) :
    Tidies D m₀ (pushAll f vs) (pushAll f vs) fun _ => True :=
  .modifyFiber (fun _ hb => hb.withValues (forall_mem_appendList hb.values h)) fun _ => rfl

theorem tidies_truncate (n : Nat) : Tidies D m₀ (truncate f n) (truncate f n) fun _ => True :=
  .modifyFiber (fun _ hb => hb.withValues (forall_mem_shrink hb.values n)) fun _ => rfl

theorem tidies_height : Tidies D m₀ (height f) (height f) fun _ => True := .read fun _ _ => trivial

theorem tidies_pop : Tidies D m₀ (pop f) (pop f) D.Held := by
  refine .bind (A := fun v => ∀ w ∈ v, D.Held w) (.read fun m hm w hw => ?_) fun v hv => ?_
  · exact (hm.fiber f).values w (Array.mem_of_back? hw)
  · cases v with
    | none => exact .internal _
    | some v =>
      exact .bind (.modifyFiber (fun _ hb => hb.withValues (forall_mem_pop hb.values)) fun _ => rfl)
        fun _ _ => .pure (hv v rfl)

theorem tidies_peek (depth : Nat) : Tidies D m₀ (peek f depth) (peek f depth) D.Held :=
  .bind (tidies_height f) fun _ _ => .ite (fun _ => .read fun _ hm =>
    getD_of_forall_mem (P := D.Held) (hm.fiber f).values (held_of_isAtom rfl) _)
      fun _ => .internal _

theorem tidies_poke (depth : Nat) (h : D.Held v) :
    Tidies D m₀ (poke f depth v) (poke f depth v) fun _ => True :=
  .bind (tidies_peek f depth) fun _ _ => .modifyFiber
    (fun _ hb => hb.withValues (forall_mem_setIfInBounds hb.values h _)) fun _ => rfl

theorem tidies_drop (n : Nat) : Tidies D m₀ (drop f n) (drop f n) fun _ => True :=
  .bind (tidies_height f) fun _ _ => .ite (fun _ => .internal _) fun _ => tidies_truncate f _

theorem tidies_popMany (n : Nat) : Tidies D m₀ (popMany f n) (popMany f n) D.AllHeld :=
  .bind (tidies_height f) fun _ _ => .ite (fun _ => .internal _) fun _ =>
    .bind (A := D.AllHeld) (.read fun _ hm => forall_mem_extract (hm.fiber f).values _ _)
      fun _ h => .bind (tidies_truncate f _) fun _ _ => .pure h

theorem tidies_topFrame :
    Tidies D m₀ (topFrame f) (topFrame f) fun frame => frame.handlers.Obeys D := by
  refine .bind (A := fun frame => ∀ g ∈ frame, g.handlers.Obeys D)
    (.read fun m hm g hg => (hm.fiber f).back? hg) fun frame h => ?_
  cases frame with
  | none => exact .internal _
  | some frame => exact .pure (h frame rfl)

theorem tidies_modifyFrame {u : Frame → Frame} (hu : ∀ frame, (u frame).handlers = frame.handlers) :
    Tidies D m₀ (modifyFrame f u) (modifyFrame f u) fun _ => True :=
  .modifyFiber (fun _ hb => hb.withFrames (forall_mem_modify hb.frames
    (fun frame h => (hu frame).symm ▸ h) _)) fun _ => rfl

theorem tidies_popFrame : Tidies D m₀ (popFrame f) (popFrame f) fun frame => frame.handlers.Obeys D :=
  .bind (tidies_topFrame f) fun _ h => .bind (.modifyFiber (fun _ hb =>
    ⟨forall_mem_shrink hb.values _, forall_mem_pop hb.frames, hb.closeError⟩) fun _ => rfl)
      fun _ _ => .pure h

theorem tidies_popArguments : Tidies D m₀ (popArguments f) (popArguments f) fun _ => True := by
  refine .bind (tidies_pop f) fun v _ => ?_
  split
  · exact .ite (fun _ => .ite (fun _ => tidies_drop f _) fun _ => .throw trivial)
      fun _ => .internal _
  · exact .internal _

end Stacks

section Heap

variable {D : Discipline} {m₀ : Machine}

theorem tidies_metamethod? (v : Value) (event : String) :
    Tidies D m₀ (metamethod? v event) (metamethod? v event) fun h => ∀ w ∈ h, D.Held w :=
  .read fun _ hm _ hw => D.held_of_part (hm.heap.metamethod? hw)

theorem tidies_table (t : TableId) : Tidies D m₀ (table t) (table t) (Table.Obeys D) :=
  .read fun _ hm => hm.heap.table t

theorem tidies_modifyTable (t : TableId) {u : Table → Table} (hu : ∀ t, t.Obeys D → (u t).Obeys D) :
    Tidies D m₀ (modifyTable t u) (modifyTable t u) fun _ => True :=
  .modify fun _ hm => hm.withHeap (hm.heap.modifyTable hu t)

theorem tidies_setIndex (t : TableId) {key : Value} (hkey : D.Held key) (hv : D.Part v) :
    Tidies D m₀ (setIndex t key v) (setIndex t key v) fun _ => True :=
  .bind (A := fun _ => True) (.ofComplaint fun _ _ => trivial) fun _ _ =>
    tidies_modifyTable t fun _ ht => ht.insert (part_toScalar hkey) hv

theorem tidies_readCell (c : CellId) : Tidies D m₀ (readCell c) (readCell c) D.Held :=
  .read fun _ hm => hm.heap.cell c

theorem tidies_writeCell (c : CellId) (hv : D.Held v) :
    Tidies D m₀ (writeCell c v) (writeCell c v) fun _ => True :=
  .modify fun _ hm => hm.withHeap (hm.heap.setCell c hv)

theorem tidies_newTable : Tidies D m₀ newTable newTable D.Held :=
  .modifyGet fun _ hm => ⟨held_of_isAtom rfl, hm.withHeap hm.heap.newTable⟩

theorem tidies_newCell (hv : D.Held v) : Tidies D m₀ (newCell v) (newCell v) fun _ => True :=
  .modifyGet fun _ hm => ⟨trivial, hm.withHeap (hm.heap.newCell hv)⟩

theorem tidies_newClosure (c : Closure) :
    Tidies D m₀ (newClosure c) (newClosure c) D.Held :=
  .modifyGet fun _ hm => ⟨held_of_isAtom rfl, hm.withHeap
    ⟨hm.heap.tables, hm.heap.cells, hm.heap.tailCalls, hm.heap.natives⟩⟩

theorem tidies_newBuiltin (name : String) (b : Builtin) :
    Tidies D m₀ (newBuiltin name b) (newBuiltin name b) fun _ => True :=
  .modifyGet fun _ hm => ⟨trivial, hm.withHeap (hm.heap.newNative name b)⟩

theorem tidies_newCoroutine (body : CoroutineBody) :
    Tidies D m₀ (newCoroutine body) (newCoroutine body) fun _ => True :=
  .modifyGet fun _ hm => ⟨trivial, hm.withHeap
    ⟨hm.heap.tables, hm.heap.cells, hm.heap.tailCalls, hm.heap.natives⟩⟩

theorem tidies_newTailCall {t : TailCall} (ht : t.Obeys D) :
    Tidies D m₀ (newTailCall t) (newTailCall t) D.Answer :=
  .modifyGet fun _ hm => ⟨trivial, hm.withHeap (hm.heap.newTailCall ht)⟩

theorem tidies_raise {α : Type} {A : α → Prop} (hv : D.Part v) :
    Tidies D m₀ (raise v : Exec α) (raise v) A :=
  .bind (A := (RuntimeError.Obeys D)) (.read fun _ _ _ hw => Option.some.inj hw ▸ hv) fun _ => .fail

end Heap

/-- The arguments that a function of the library puts together: into a tuple, or into the arguments
of a resumption or the values of a request, which become one. -/
def Builtin.gathered : Builtin → List Value → List Value
  | .select, values | .resume, values => values.drop 1
  | .yield, values | .wrapped _, values | .withStatus _, values => values
  | _, _ => []

section Arguments

variable {D : Discipline} {m₀ : Machine} {a : Arguments} (ha : D.AllHeld a.values)

include ha in
theorem Arguments.part_get (i : Nat) : D.Part (a.get i) := by
  unfold Arguments.get
  split
  · exact part_toScalar (ha _ (List.mem_of_getElem? ‹_›))
  · exact D.part_of_isAtom rfl

include ha in
theorem tidies_function (i : Nat) (caller : String) : Tidies D m₀ (ofExcept (a.function i caller))
    (ofExcept (a.function i caller)) D.Held := by
  unfold Arguments.function
  split
  · exact .pure (D.held_of_part (a.part_get ha i))
  · exact .complain _

theorem tidies_tableArgument (i : Nat) (caller : String) : Tidies D m₀ (ofExcept (a.table i caller))
    (ofExcept (a.table i caller)) fun _ => True := by
  unfold Arguments.table
  split
  · exact .pure trivial
  · exact .complain _

theorem tidies_coroutineArgument (i : Nat) (caller : String) : Tidies D m₀
    (ofExcept (a.coroutine i caller)) (ofExcept (a.coroutine i caller)) fun _ => True := by
  unfold Arguments.coroutine
  split
  · exact .pure trivial
  · exact .complain _

include ha in
theorem tidies_present (i : Nat) (caller : String) : Tidies D m₀ (ofExcept (a.present i caller))
    (ofExcept (a.present i caller)) D.Held := by
  unfold Arguments.present
  split
  · exact .pure (D.held_of_part (a.part_get ha i))
  · exact .complain _

end Arguments

section Natives

open Library

variable {D : Discipline} {m₀ : Machine} {a : Arguments} (ha : D.AllHeld a.values) (site : CallSite)
  {handler : Option Value}

theorem tidies_newFiber (id : ClosureId) :
    Tidies D m₀ (newFiber (.closure id)) (newFiber (.closure id)) fun _ => True :=
  .bind .reads fun _ _ => .bind (tidies_newCoroutine _)
    fun _ _ => .bind (.modify fun _ hm => hm.pushFiber
      ⟨forall_mem_toArray (List.forall_mem_singleton.2 (held_of_isAtom rfl)), nofun,
        D.part_of_isAtom rfl⟩ rfl)
    fun _ _ => .pure trivial

theorem tidies_createCoroutine (v : Value) :
    Tidies D m₀ (createCoroutine v) (createCoroutine v) fun _ => True := by
  unfold createCoroutine
  split
  · exact tidies_newCoroutine _
  · exact tidies_newFiber _
  · exact .throw trivial

theorem tidies_guardedCall (name : String) (hf : D.Held function) (harguments : D.AllHeld arguments)
    (hh : ∀ v ∈ handler, D.Held v) : Tidies D m₀ (guardedCall name function arguments handler)
      (guardedCall name function arguments handler) D.Answer :=
  .bind (tidies_newBuiltin _ _) fun _ _ => .bind (tidies_newBuiltin _ _) fun _ _ =>
    tidies_newTailCall ⟨hf, harguments, hh⟩

theorem tidies_tonumber : Tidies D m₀ (tonumber a) (tonumber a) D.Held := by
  have hnumber (v : Value) : D.Held (v.toNumber?.elim Value.nil Value.number) := by
    cases v.toNumber? <;> exact held_of_isAtom rfl
  refine .bind (A := fun _ => True) ?_ fun v _ => .ite (fun _ => .pure (hnumber v)) fun _ =>
    .bind (A := fun _ => True) ?_ fun base _ => ?_
  · unfold Arguments.present
    split
    · exact .pure trivial
    · exact .complain _
  · unfold numeralBase
    split
    · exact .ite (fun _ => .pure trivial) fun _ => .complain _
    · exact .complain _
  · split
    · split
      · exact .ite (fun _ => .atom rfl) fun _ => .throw trivial
      · exact .atom rfl
    · exact .complain _

theorem tidies_setmetatable :
    Tidies D m₀ (setmetatable a) (setmetatable a) D.Held := by
  refine .bind (tidies_tableArgument 0 _) fun t _ => .bind (A := fun _ => True) ?_
    fun metatable _ => .bind (tidies_table t) fun _ _ => .bind .reads fun _ _ =>
      .first (.complain _) fun _ => .bind (tidies_modifyTable t fun _ ht => ⟨ht.array, ht.entries⟩)
        fun _ _ => .atom rfl
  unfold newMetatable
  split
  · exact .pure trivial
  · exact .pure trivial
  · exact .complain _

theorem tidies_getmetatable :
    Tidies D m₀ (getmetatable a) (getmetatable a) D.Held := by
  refine .bind .reads fun metatable _ => ?_
  split
  · exact .atom rfl
  · refine .bind (tidies_table _) fun t ht => .pure ?_
    split
    · exact held_of_isAtom rfl
    · exact D.held_of_part (ht.getKey _)

theorem tidies_next : Tidies D m₀ (next a) (next a) D.Held := by
  refine .bind (tidies_tableArgument 0 _) fun t _ => .bind (tidies_table t) fun t ht =>
    .bind (A := fun r => ∀ e ∈ r, D.Part e.1 ∧ D.Part e.2)
      (.ofComplaint fun r hr e he => ht.next (hr.trans (congrArg _ he))) fun r hr => ?_
  split
  · rename_i k v
    have he := hr _ rfl
    exact .pure (D.held_tuple.2 (allParts_cons.2 ⟨he.1, allParts_singleton.2 he.2⟩))
  · exact .atom rfl

theorem tidies_ipairsStep : Tidies D m₀ (ipairsStep a) (ipairsStep a) D.Held := by
  refine .bind (tidies_tableArgument 0 _) fun t _ => .bind (tidies_table t) fun t ht => .pure ?_
  split
  · exact held_of_isAtom rfl
  · exact D.held_tuple.2 (allParts_cons.2 ⟨D.part_of_isAtom rfl, allParts_singleton.2 (ht.get _)⟩)

theorem tidies_select (hgathered : D.AllParts (Builtin.select.gathered a.values)) : Tidies D m₀ (select a) (select a) D.Held := by
  unfold select
  split
  · exact .atom rfl
  · split
    · exact .complain _
    · dsimp only
      split
      · exact .pure (D.held_tuple.2 (hgathered.drop _))
      · exact .complain _

include ha

theorem tidies_error : Tidies D m₀ (error site a) (error site a) D.Held := by
  refine .bind (A := fun _ => True) ?_ fun level _ => .bind (A := (RuntimeError.Obeys D))
    (.read fun _ _ _ hw => Option.some.inj hw ▸ a.part_get ha 0) fun e he => ?_
  · unfold errorLevel
    split
    · exact .pure trivial
    · split
      · exact .pure trivial
      · exact .complain _
  · split
    · exact .ite (fun _ => .bind .reads fun l _ =>
        .fail (he.decorate l)) fun _ => .fail he
    · exact .fail he

theorem tidies_assert : Tidies D m₀ (assert a) (assert a) D.Held := by
  refine .ite (fun _ => .pure (held_pack ha)) fun _ => ?_
  split
  · exact .complain _
  · exact tidies_raise (a.part_get ha 1)

variable {E E' : Engine} (hE : Polite D E E')
include hE

omit ha in
theorem tidies_handledError {handler : Value} (hh : D.Held handler) (e : RuntimeError) :
    Tidies D m₀ (handledError E handler e) (handledError E' handler e) (RuntimeError.Obeys D) := by
  have hrest (r : Except Stop Value) (hr : Tidies.Outcome D D.Held r) :
      Tidies D m₀ (rephrased e r) (rephrased e r) (RuntimeError.Obeys D) := by
    unfold rephrased
    split
    · exact .bind .reads fun _ _ =>
        .pure fun w hw => Option.some.inj hw ▸ part_toScalar hr
    · exact .pure nofun
    · exact .throw hr
  rw [handledError_eq, handledError_eq]
  split
  · exact .bind (hE.call hh (allHeld_singleton.2 (held_of_isAtom rfl))).attempt hrest
  · exact hrest _ fun _ hv => by cases hv

omit ha in
theorem tidies_displayText (hv : D.Held v) :
    Tidies D m₀ (displayText E v) (displayText E' v) fun _ => True := by
  refine .bind (tidies_metamethod? v _) fun handler hh => ?_
  split
  · refine .bind (hE.call (hh _ rfl) (allHeld_singleton.2 hv)) fun v _ => ?_
    split
    · exact .pure trivial
    · exact .complain _
  · exact .read fun _ _ => trivial

omit ha in
theorem tidies_resumeCoroutine (co : CoroutineId) (harguments : D.AllParts arguments) :
    Tidies D m₀ (resumeCoroutine E site co arguments)
      (resumeCoroutine E' site co arguments) D.Answer := by
  refine .bind .reads fun body _ => ?_
  split
  · exact hE.resume _ harguments
  · exact .bind (.modify fun _ hm => hm.withHeap
      ⟨hm.heap.tables, hm.heap.cells, hm.heap.tailCalls, hm.heap.natives⟩) fun _ _ =>
        hE.invoke _ site harguments.allHeld false
  · exact .complain _
  · exact .complain _

omit ha in
theorem tidies_closeCoroutine (co : CoroutineId) :
    Tidies D m₀ (closeCoroutine E co) (closeCoroutine E' co) D.Held := by
  refine .bind .reads fun body _ => ?_
  split
  · exact hE.close _
  · exact .atom rfl

omit ha in
theorem tidies_protectNative (name : String) (f : NativeId) (harguments : D.AllHeld arguments)
    (hh : ∀ v ∈ handler, D.Held v) : Tidies D m₀ (protectNative E site name f arguments handler)
      (protectNative E' site name f arguments handler) D.Answer := by
  refine .bind (hE.invoke f site harguments false) fun v hv => ?_
  split
  · exact .bind (A := (TailCall.Obeys D)) (.read fun _ hm => hm.heap.tailCall _) fun t ht =>
      .ite (fun _ => .complain _) fun _ => tidies_guardedCall _ ht.function ht.arguments hh
  · exact .complain _
  · rename_i hcall hyield
    have hheld : D.Held v := by
      cases v with
      | yieldRequest items forced => exact (hyield items forced rfl).elim
      | tailCall id => exact (hcall id rfl).elim
      | _ => exact hv
    exact .pure (answer_of_held (held_pack
      (allHeld_cons.2 ⟨held_of_isAtom rfl, allHeld_singleton.2 hheld⟩)))

omit ha in
theorem tidies_protectedCall (name : String) (hf : D.Held function)
    (harguments : D.AllHeld arguments) (hh : ∀ v ∈ handler, D.Held v) :
    Tidies D m₀ (protectedCall E site name function arguments handler)
      (protectedCall E' site name function arguments handler) D.Answer := by
  have hcaught (e : RuntimeError) (he : e.Obeys D) : Tidies D m₀ (caught E site handler e)
      (caught E' site handler e) D.Answer := by
    have htuple {e : RuntimeError} (he : e.Obeys D) : D.Answer (.tuple [.bool false, e.toValue]) :=
      D.held_tuple.2 (allParts_cons.2 ⟨D.part_of_isAtom rfl, allParts_singleton.2 he.toValue⟩)
    unfold caught
    cases handler with
    | none =>
      exact .bind (A := (RuntimeError.Obeys D)) (.pure (he.decorate _)) fun _ he =>
        .pure (htuple he)
    | some handler =>
      exact .bind (tidies_handledError hE (hh handler rfl) _) fun _ he =>
        .pure (htuple he)
  unfold protectedCall
  split
  · refine .bind (tidies_protectNative site hE name _ harguments hh).attempt fun r hr => ?_
    split
    · exact hcaught _ hr
    · exact .finish hr
  · exact tidies_guardedCall _ hf harguments hh
  · exact .pure (answer_of_held (held_tuple_of_isAtom (by simp [Value.isAtom])))

omit ha in
theorem tidies_resume (hgathered : D.AllParts (Builtin.resume.gathered a.values)) :
    Tidies D m₀ (Library.resume E site a) (Library.resume E' site a)
      fun v => D.AdmitsRequests → D.Held v := by
  refine .bind (tidies_coroutineArgument 0 _) fun co _ =>
    .bind (tidies_resumeCoroutine site hE co hgathered).attempt fun r hr => ?_
  split
  · exact .pure fun _ => held_tuple_of_isAtom (List.forall_mem_singleton.2 rfl)
  · exact .pure fun hadmits => held_pack (allHeld_cons.2 ⟨held_of_isAtom rfl,
      (allParts_toList (hadmits _ hr)).allHeld⟩)
  · exact .pure fun _ => D.held_tuple.2 (allParts_cons.2 ⟨D.part_of_isAtom rfl,
      allParts_singleton.2 (RuntimeError.Obeys.toValue hr)⟩)
  · exact .throw hr

omit ha in
theorem tidies_wrapped (co : CoroutineId) (hgathered : D.AllParts a.values) :
    Tidies D m₀ (wrapped E site co a) (wrapped E' site co a) D.Answer := by
  refine .bind (tidies_resumeCoroutine site hE co hgathered) fun v hv => ?_
  split
  · exact .pure (answer_of_held (held_tuple_of_isAtom (List.forall_mem_nil _)))
  · exact .pure hv

/-- What a function of the library returns can be answered, if the arguments that it puts together may
be parts. Only `resume` may pass a request on as a part. -/
theorem tidies_libraryRun (b : Builtin) (hgathered : D.AllParts (b.gathered a.values)) :
    Tidies D m₀ (Library.run E site a b) (Library.run E' site a b)
      fun v => (b = .resume → D.AdmitsRequests) → D.Answer v := by
  have hplain {x x' : Exec Value} (h : Tidies D m₀ x x' D.Held) :
      Tidies D m₀ x x' fun v => (b = .resume → D.AdmitsRequests) → D.Answer v :=
    h.mono fun _ hv _ => answer_of_held hv
  have hanswer {x x' : Exec Value} (h : Tidies D m₀ x x' D.Answer) :
      Tidies D m₀ x x' fun v => (b = .resume → D.AdmitsRequests) → D.Answer v := h.mono fun _ hv _ => hv
  cases b with
  | pcall => exact hanswer (tidies_protectedCall site hE _ (D.held_of_part (a.part_get ha 0)) (ha.drop 1)
      nofun)
  | xpcall =>
    refine hanswer (.first (.complain _) fun _ => tidies_protectedCall site hE _
      (D.held_of_part (a.part_get ha 0)) (ha.drop 2) fun v hv => ?_)
    split at hv
    · cases hv
    · exact Option.some.inj hv ▸ D.held_of_part (a.part_get ha 1)
  | error => exact hplain (tidies_error ha site)
  | assert => exact hplain (tidies_assert ha)
  | print =>
    exact hplain (.bind (.mapM fun v hv => tidies_displayText hE
      (D.held_of_part (part_toScalar (ha v hv))))
      fun _ _ => .bind (.modify fun _ hm => ⟨⟨hm.code, hm.heap, hm.fibers⟩, hm.canYield⟩)
        fun _ _ => .pure (held_tuple_of_isAtom (List.forall_mem_nil _)))
  | type => exact hplain (.bind (tidies_present ha 0 _) fun _ _ => .atom rfl)
  | tostring =>
    exact hplain (.bind (tidies_present ha 0 _) fun _ hv => .bind (tidies_displayText hE hv)
      fun _ _ => .atom rfl)
  | tonumber => exact hplain tidies_tonumber
  | select => exact hplain (tidies_select hgathered)
  | setmetatable => exact hplain tidies_setmetatable
  | getmetatable => exact hplain tidies_getmetatable
  | rawget =>
    exact hplain (.bind (tidies_tableArgument 0 _) fun t _ => .bind (tidies_table t) fun _ ht =>
      .pure (D.held_of_part (ht.get _)))
  | rawset =>
    exact hplain (.bind (tidies_tableArgument 0 _) fun t _ => .bind
      (tidies_setIndex t (D.held_of_part (a.part_get ha 1)) (a.part_get ha 2)) fun _ _ =>
        .atom rfl)
  | rawequal => exact hplain (.atom rfl)
  | next => exact hplain tidies_next
  | ipairs =>
    exact hplain (.bind (tidies_tableArgument 0 _) fun t _ => .bind (tidies_newBuiltin _ _)
      fun _ _ => .pure (held_tuple_of_isAtom (by simp [Value.isAtom, Value.ofNat])))
  | ipairsStep => exact hplain tidies_ipairsStep
  | create =>
    exact hplain (.bind (tidies_function ha 0 _) fun _ _ => .bind (tidies_createCoroutine _)
      fun _ _ => .atom rfl)
  | wrap =>
    exact hplain (.bind (tidies_function ha 0 _) fun _ _ => .bind (tidies_createCoroutine _)
      fun _ _ => .bind (tidies_newBuiltin _ _) fun _ _ => .atom rfl)
  | resume => 
    exact (tidies_resume site hE hgathered).mono fun _ hv hadmits => answer_of_held (hv (hadmits rfl))
  | yield => exact hanswer (.pure hgathered)
  | running =>
    exact hplain (.bind .reads fun _ _ => .pure (held_tuple_of_isAtom (by simp [Value.isAtom])))
  | status =>
    exact hplain (.bind (tidies_coroutineArgument 0 _) fun _ _ => .bind .reads fun _ _ =>
      .ite (fun _ => .atom rfl) fun _ =>
        .bind .reads fun _ _ => .atom rfl)
  | close =>
    exact hplain (.bind (tidies_coroutineArgument 0 _) fun co _ => tidies_closeCoroutine hE co)
  | isyieldable =>
    exact hplain (.bind .reads fun _ _ => .atom rfl)
  | wrapped co => exact hanswer (tidies_wrapped site hE co hgathered)
  | withStatus ok => exact hplain (.pure (D.held_tuple.2 (allParts_cons.2
    ⟨D.part_of_isAtom rfl, hgathered⟩)))

end Natives

section Variables

variable {D : Discipline} {m₀ : Machine} (f : FiberId)

theorem tidies_localValue (frame : Frame) (index : Nat) :
    Tidies D m₀ (read fun m => frame.localValue m.heap index)
      (read fun m => frame.localValue m.heap index) D.Held := by
  refine .read fun m hm => ?_
  unfold Frame.localValue
  split
  · exact hm.heap.cell _
  · exact held_of_isAtom rfl

theorem tidies_loopNumber (depth : Nat) :
    Tidies D m₀ (loopNumber f depth) (loopNumber f depth) fun _ => True := by
  refine .bind (tidies_peek f depth).attempt fun r _ => ?_
  split
  · exact .pure trivial
  · exact .internal _

theorem tidies_stackedArguments :
    Tidies D m₀ (stackedArguments f) (stackedArguments f) D.AllHeld := by
  refine .bind (tidies_topFrame f) fun _ _ =>
    .bind .reads fun v _ => ?_
  split
  · exact .ite (fun _ => .read fun _ hm => forall_mem_extract (hm.fiber f).values _ _)
      fun _ => .throw trivial
  · exact .internal _

end Variables

end ScriptMachine
