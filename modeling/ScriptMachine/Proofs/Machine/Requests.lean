import ScriptMachine.Proofs.Machine.Restraint

namespace ScriptMachine

namespace Value

mutual

def isClean : Value → Bool
  | tuple items => areClean items
  | yieldRequest _ _ | tailCall _ => false
  | _ => true

def areClean : List Value → Bool
  | [] => true
  | v :: vs => v.isClean && areClean vs

end

/-- Whether a value is something to answer a call with: a clean value, or a request for nothing but
clean ones. -/
def isAnswer : Value → Bool
  | yieldRequest items _ => areClean items
  | tailCall _ => true
  | v => v.isClean

def AllClean (vs : List Value) : Prop := ∀ v ∈ vs, v.isClean

theorem areClean_iff {vs : List Value} : areClean vs ↔ AllClean vs := by
  induction vs with
  | nil => simp [areClean, AllClean]
  | cons v vs ih => simp [areClean, AllClean, ih]

end Value

open Exec Value

structure Table.Clean (t : Table) : Prop where
  array : ∀ v ∈ t.array, v.isClean
  entries : ∀ e ∈ t.entries, e.1.isClean ∧ e.2.isClean

def Handlers.Clean (h : Handlers) : Prop := ∀ v ∈ h.beforeUnwind, v.isClean

structure TailCall.Clean (t : TailCall) : Prop where
  function : t.function.isClean
  arguments : AllClean t.arguments
  handlers : t.handlers.Clean

/-- No variable, table or pending request holds a request, and all native functions are those of
the library. -/
structure Heap.Clean (h : Heap) : Prop where
  tables : ∀ t ∈ h.tables, t.Clean
  cells : ∀ v ∈ h.cells, v.isClean
  tailCalls : ∀ t ∈ h.tailCalls, t.Clean
  natives : ∀ n ∈ h.natives, ∃ b, n.behavior = .builtin b

structure Fiber.Clean (b : Fiber) : Prop where
  values : ∀ v ∈ b.values, v.isClean
  frames : ∀ frame ∈ b.frames, frame.handlers.Clean
  closeError : b.closeError.isClean

/-- No constant, variable, table or value stack of the machine holds a request. -/
structure Machine.Clean (m : Machine) : Prop where
  code : ∀ i ∈ m.code.instructions, ∀ v ∈ i.value, v.isClean
  heap : m.heap.Clean
  fibers : ∀ b ∈ m.fibers, b.Clean

def RuntimeError.Clean (e : RuntimeError) : Prop := ∀ v ∈ e.value, v.isClean

def Stop.Clean : Stop → Prop
  | .fault (.runtime e) => e.Clean
  | _ => True

def Request.Clean : Request → Prop
  | .call function arguments => function.isClean ∧ AllClean arguments
  | .resume _ arguments | .invoke _ _ arguments _ => AllClean arguments
  | .close _ => True

/-- What may be answered to a request. A native function may ask a flow to yield that can do so. -/
def Request.Answers (m : Machine) (v : Value) : Request → Prop
  | .call .. | .close _ => v.isClean
  | .resume .. => v.isAnswer
  | .invoke _ site _ _ => v.isAnswer ∧
    ∀ items forced, v = .yieldRequest items forced → Library.isYieldable (m.fiber site.fiber)

def Native.isResume (f : Native) : Bool :=
  match f.behavior with
  | .builtin .resume => true
  | _ => false

def Value.isYield : Value → Bool
  | .yieldRequest _ _ => true
  | _ => false

/-- Whether a native function lets a request go astray: `resume` passes it on as one of its results,
or it is to make a flow yield that cannot. -/
def Request.strays (request : Request) (m : Machine) : Except Stop Value × Machine → Bool
  | (.ok v, m') =>
    match request with
    | .invoke id site _ _ => ((m.heap.native id).isResume && !v.isClean) ||
      (v.isYield && !Library.isYieldable (m'.fiber site.fiber))
    | _ => false
  | _ => false

/-- The engine, except that it gives up where a request goes astray. -/
def vetted : Nat → Engine
  | 0, _ => throw .exhausted
  | n + 1, request => fun m =>
    if request.strays m (serve (vetted n) n request m) then (.error .exhausted, m)
    else serve (vetted n) n request m

/-- No request is held anywhere. -/
def cleanliness : Discipline where
  Held v := v.isClean
  Part v := v.isClean
  part_of_isAtom {v} h := by cases v <;> first | rfl | cases h
  held_of_part h := h
  held_tuple := by
    intro vs
    rw [isClean]
    exact areClean_iff
  part_of_held h _ := h
  parts_of_held h := by cases h

section

variable {m : Machine} {v : Value} {request : Request}

theorem Table.clean_iff {t : Table} : t.Clean ↔ t.Obeys cleanliness :=
  ⟨fun h => ⟨h.array, h.entries⟩, fun h => ⟨h.array, h.entries⟩⟩

theorem TailCall.clean_iff {t : TailCall} : t.Clean ↔ t.Obeys cleanliness :=
  ⟨fun h => ⟨h.function, h.arguments, h.handlers⟩, fun h => ⟨h.function, h.arguments, h.handlers⟩⟩

theorem Heap.clean_iff {h : Heap} : h.Clean ↔ h.Obeys cleanliness :=
  ⟨fun hh => ⟨fun t ht => Table.clean_iff.1 (hh.tables t ht), hh.cells,
      fun t ht => TailCall.clean_iff.1 (hh.tailCalls t ht), hh.natives⟩,
    fun hh => ⟨fun t ht => Table.clean_iff.2 (hh.tables t ht), hh.cells,
      fun t ht => TailCall.clean_iff.2 (hh.tailCalls t ht), hh.natives⟩⟩

theorem Fiber.clean_iff {b : Fiber} : b.Clean ↔ b.Obeys cleanliness :=
  ⟨fun h => ⟨h.values, h.frames, h.closeError⟩, fun h => ⟨h.values, h.frames, h.closeError⟩⟩

theorem Machine.clean_iff : m.Clean ↔ m.Obeys cleanliness :=
  ⟨fun h => ⟨h.code, Heap.clean_iff.1 h.heap, fun b hb => Fiber.clean_iff.1 (h.fibers b hb)⟩,
    fun h => ⟨h.code, Heap.clean_iff.2 h.heap, fun b hb => Fiber.clean_iff.2 (h.fibers b hb)⟩⟩

theorem Stop.clean_iff {s : Stop} : s.Clean ↔ s.Obeys cleanliness := by
  cases s with
  | fault x => cases x <;> exact Iff.rfl
  | crash => exact Iff.rfl
  | exhausted => exact Iff.rfl

theorem Request.clean_iff : request.Clean ↔ request.Obeys cleanliness := by
  cases request <;> exact Iff.rfl

theorem isAnswer_iff : v.isAnswer ↔ cleanliness.Answer v := by
  cases v with
  | yieldRequest items forced => exact areClean_iff
  | tailCall id => exact iff_of_true rfl trivial
  | _ => exact Iff.rfl

theorem Request.answers_iff : request.Answers m v ↔ request.Answered cleanliness m v := by
  cases request with
  | call function arguments => exact Iff.rfl
  | resume f arguments => exact isAnswer_iff
  | close f => exact Iff.rfl
  | invoke id site arguments method =>
    refine and_congr isAnswer_iff (forall₂_congr fun items forced => imp_congr_right fun hv => ?_)
    subst hv
    exact ⟨.inl, fun h => h.resolve_right nofun⟩

end

/-- No request is held anywhere as long as `resume` does not answer with one, and no flow is asked to
yield that cannot. -/
theorem cleanliness_keptBy : cleanliness.KeptBy Request.strays where
  gathered {id site arguments method m r b} _ _ harguments := by
    have hspread := harguments.spread
    cases b <;> first | exact List.forall_mem_nil _ | exact hspread | exact hspread.drop 1
  resumed {id site arguments method m m' v} hstrays hb := by
    simp only [Request.strays, Bool.or_eq_false_iff, Bool.and_eq_false_iff,
      Bool.not_eq_false'] at hstrays
    refine .inr (hstrays.1.resolve_left ?_)
    rw [Native.isResume, hb]
    decide
  yields {id site arguments method m m' v items forced} hstrays hv _ := by
    simp only [Request.strays, Bool.or_eq_false_iff, Bool.and_eq_false_iff,
      Bool.not_eq_false'] at hstrays
    subst hv
    exact .inl (hstrays.2.resolve_left nofun)

theorem vetted_eq_restrained (n : Nat) : vetted n = restrained Request.strays n := by
  induction n with
  | zero => rfl
  | succ n ih =>
    funext request m
    rw [vetted, restrained, ih]

/-- From a clean machine whose native functions are those of the library, a run never has a request
in a variable, in a table, in a tuple or anywhere else on a value stack when user code comes to
run: an instruction, a native function, a finalizer or a handler, at any depth. Nor does it leave
one there, and what it answers or raises holds none. This is so unless `resume` answers with a
request, or a flow is asked to yield that cannot. -/
theorem requests_never_stored {n : Nat} {request : Request} {m : Machine} (hm : m.Clean)
    (hrequest : request.Clean) (h : (vetted n request m).1 ≠ .error .exhausted) :
    engine n request m = vetted n request m ∧
      (∀ m', UserCode n (fun E => E request) m m' → m'.Clean) ∧ (engine n request m).2.Clean ∧
      (∀ v, (engine n request m).1 = .ok v → request.Answers (engine n request m).2 v) ∧
      ∀ s, (engine n request m).1 = .error s → s.Clean := by
  rw [vetted_eq_restrained] at h ⊢
  obtain ⟨hsame, huser, hmachine, hanswer, hstop⟩ := obeys_of_restrained cleanliness_keptBy
    (Request.clean_iff.1 hrequest) (Machine.clean_iff.1 hm) h
  exact ⟨hsame, fun m' hm' => Machine.clean_iff.2 (huser m' hm'), Machine.clean_iff.2 hmachine,
    fun v hv => Request.answers_iff.2 (hanswer v hv), fun s hs => Stop.clean_iff.2 (hstop s hs)⟩

/-- A machine with a function that resumes a coroutine of a function that yields, and one that
resumes a coroutine of `yield` itself and keeps the second result. -/
def yielding : Machine where
  code := { instructions := #[{ op := .preamble, number := 7 },
    { op := .literal, value := some (.native ⟨0⟩) },
    { op := .literal, value := some (.native ⟨1⟩) },
    { op := .literal, value := some (.closure ⟨1⟩) },
    { op := .call, number := 1 },
    { op := .literal, value := some (.bool true) },
    { op := .call, number := 2 },
    { op := .ret, number := 1 },
    { op := .preamble, number := 4 },
    { op := .literal, value := some (.native ⟨2⟩) },
    { op := .literal, value := some (.bool true) },
    { op := .call, number := 1 },
    { op := .ret, number := 1 },
    { op := .preamble, number := 9 },
    { op := .beginFunction, number := 1 },
    { op := .literal, value := some (.native ⟨0⟩) },
    { op := .literal, value := some (.native ⟨1⟩) },
    { op := .literal, value := some (.native ⟨2⟩) },
    { op := .call, number := 1 },
    { op := .literal, value := some (.bool true) },
    { op := .call, number := 2 },
    { op := .storeLocal, symbol := some (.localVar "x" 0 false false), number2 := 1 },
    { op := .ret, number := 1 }] }
  heap := {
    closures := #[{ entry := 0 }, { entry := 8 }, { entry := 13 }]
    natives := #[{ name := "resume", behavior := .builtin .resume },
      { name := "create", behavior := .builtin .create },
      { name := "yield", behavior := .builtin .yield }] }
  fibers := #[{ status := .main, owner := ⟨0⟩ }]

theorem clean_yielding : yielding.Clean := by
  have hcode : ∀ i ∈ yielding.code.instructions.toList, ∀ v ∈ i.value, v.isClean := by decide
  refine ⟨fun i hi => hcode i (Array.mem_toList_iff.2 hi), ⟨nofun, nofun, nofun, ?_⟩,
    forall_mem_toArray (List.forall_mem_singleton.2 ⟨nofun, nofun, rfl⟩)⟩
  refine forall_mem_toArray (List.forall_mem_cons.2 ⟨⟨_, rfl⟩, ?_⟩)
  refine List.forall_mem_cons.2 ⟨⟨_, rfl⟩, ?_⟩
  exact List.forall_mem_singleton.2 ⟨_, rfl⟩

theorem served_yielding :
    (vetted 12 (.call (.closure ⟨0⟩) []) yielding).1 ≠ .error .exhausted := by
  have hok : (vetted 12 (.call (.closure ⟨0⟩) []) yielding).1.isOk = true := by decide +kernel
  intro h
  rw [h] at hok
  cases hok

theorem yielding_stored_nowhere :
    (vetted 12 (.call (.closure ⟨0⟩) []) yielding).1 ≠ .error .exhausted ∧
      (∀ m', UserCode 12 (fun E => E (.call (.closure ⟨0⟩) [])) yielding m' → m'.Clean) ∧
      (engine 12 (.call (.closure ⟨0⟩) []) yielding).2.Clean := by
  have hrequest : (Request.call (.closure ⟨0⟩) []).Clean := ⟨rfl, List.forall_mem_nil _⟩
  have h := requests_never_stored clean_yielding hrequest served_yielding
  exact ⟨served_yielding, h.2.1, h.2.2.1⟩

/-- The second result of resuming `yield` is its request, which is then kept in a variable. -/
theorem resumed_yield_stored : yielding.Clean ∧
    ((engine 14 (.call (.closure ⟨2⟩) []) yielding).2.heap.cell ⟨0⟩).isClean = false :=
  ⟨clean_yielding, by decide +kernel⟩

end ScriptMachine
