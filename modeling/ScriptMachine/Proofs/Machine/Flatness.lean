import ScriptMachine.Proofs.Machine.Restraint

namespace ScriptMachine

variable {vs : List Value} {v : Value}

namespace Value

def isTuple : Value → Bool
  | tuple _ => true
  | _ => false

mutual

def isPlain : Value → Bool
  | tuple _ => false
  | yieldRequest items _ => arePlain items
  | _ => true

def arePlain : List Value → Bool
  | [] => true
  | v :: vs => v.isPlain && arePlain vs

end

def isFlat : Value → Bool
  | tuple items => arePlain items
  | v => v.isPlain

theorem arePlain_iff : arePlain vs ↔ ∀ v ∈ vs, v.isPlain := by
  induction vs with
  | nil => simp [arePlain]
  | cons v vs ih => simp [arePlain, ih]

theorem isFlat_of_isPlain (h : v.isPlain) : v.isFlat := by
  cases v with
  | tuple items => cases h
  | _ => exact h

theorem isPlain_of_isFlat (h : v.isFlat) (hv : v.isTuple = false) : v.isPlain := by
  cases v with
  | tuple items => cases hv
  | _ => exact h

end Value

open Exec Value

/-- No tuple is inside a tuple, a table or a request. -/
def flatness : Discipline where
  Held v := v.isFlat
  Part v := v.isPlain
  part_of_isAtom {v} h := by cases v <;> first | rfl | cases h
  held_of_part := isFlat_of_isPlain
  held_tuple := arePlain_iff
  part_of_held {v} h hne := isPlain_of_isFlat h (by cases v <;> first | rfl | exact (hne _ rfl).elim)
  parts_of_held h := arePlain_iff.1 h

theorem flatness_admitsRequests : flatness.AdmitsRequests := by
  intro v h
  cases v with
  | yieldRequest items forced => exact arePlain_iff.2 h
  | tailCall id => rfl
  | _ => exact h

/-- Whether a function of the library gets a tuple among the arguments that it puts together. Of a
tuple in the last place it gets the items. -/
def Request.nests (request : Request) (m : Machine) : Bool :=
  match request with
  | .invoke id _ arguments _ =>
    match (m.heap.native id).behavior with
    | .builtin b => (b.gathered (spread arguments)).any isTuple
    | .host _ => false
  | _ => false

theorem Builtin.mem_of_mem_gathered {b : Builtin} (h : v ∈ b.gathered vs) : v ∈ vs := by
  cases b <;> first | exact h | exact List.mem_of_mem_drop h | cases h

/-- No tuple is nested as long as none is among arguments that are put together. -/
theorem flatness_keptBy : flatness.KeptBy fun request m _ => request.nests m where
  gathered {id site arguments method m r b} hnests hb harguments := by
    simp only [Request.nests, hb, List.any_eq_false] at hnests
    intro v hv
    exact isPlain_of_isFlat (harguments.spread v (b.mem_of_mem_gathered hv))
      (eq_false_of_ne_true (hnests v hv))
  resumed _ _ := .inl flatness_admitsRequests
  yields _ _ hanswer := .inr (flatness_admitsRequests _ hanswer)

/-- From a machine in which no tuple is nested and whose native functions are those of the library, a
run never has one tuple inside another: not in a variable or on a value stack when user code comes
to run (an instruction, a native function, a finalizer or a handler, at any depth), nor in the end,
nor in what is answered or raised. This is so unless a function of the library gets a tuple among
the arguments that it puts together. -/
theorem tuples_never_nested {n : Nat} {request : Request} {m : Machine} (hm : m.Obeys flatness)
    (hrequest : request.Obeys flatness)
    (h : (restrained (fun request m _ => request.nests m) n request m).1 ≠ .error .exhausted) :
    engine n request m = restrained (fun request m _ => request.nests m) n request m ∧
      (∀ m', UserCode n (fun E => E request) m m' → m'.Obeys flatness) ∧
      (engine n request m).2.Obeys flatness ∧
      (∀ v, (engine n request m).1 = .ok v → v.isFlat) ∧
      ∀ s, (engine n request m).1 = .error s → s.Obeys flatness := by
  obtain ⟨hsame, huser, hmachine, hanswer, hstop⟩ :=
    obeys_of_restrained flatness_keptBy hrequest hm h
  refine ⟨hsame, huser, hmachine, fun v hv => ?_, hstop⟩
  have hv := hanswer v hv
  cases request with
  | call function arguments => exact hv
  | resume f arguments => exact flatness_admitsRequests v hv
  | close f => exact hv
  | invoke id site arguments method => exact flatness_admitsRequests v hv.1

/-- A machine with a function that selects from what a coroutine yields, the function of that
coroutine, and a function that selects from a tuple and another value. -/
def gathering : Machine where
  code := { instructions := #[{ op := .preamble, number := 9 },
    { op := .literal, value := some (.native ⟨0⟩) },
    { op := .literal, value := some (.ofNat 2) },
    { op := .literal, value := some (.native ⟨1⟩) },
    { op := .literal, value := some (.native ⟨2⟩) },
    { op := .literal, value := some (.closure ⟨1⟩) },
    { op := .call, number := 1 },
    { op := .call, number := 1 },
    { op := .call, number := 2 },
    { op := .ret, number := 1 },
    { op := .preamble, number := 5 },
    { op := .literal, value := some (.native ⟨3⟩) },
    { op := .literal, value := some (.bool true) },
    { op := .literal, value := some (.bool false) },
    { op := .call, number := 2 },
    { op := .ret, number := 1 },
    { op := .preamble, number := 10 },
    { op := .literal, value := some (.native ⟨0⟩) },
    { op := .literal, value := some (.ofNat 1) },
    { op := .literal, value := some (.native ⟨0⟩) },
    { op := .literal, value := some (.ofNat 1) },
    { op := .literal, value := some (.bool true) },
    { op := .literal, value := some (.bool false) },
    { op := .call, number := 3 },
    { op := .literal, value := some (.bool true) },
    { op := .call, number := 3 },
    { op := .ret, number := 1 }] }
  heap := {
    closures := #[{ entry := 0 }, { entry := 10 }, { entry := 16 }]
    natives := #[{ name := "select", behavior := .builtin .select },
      { name := "resume", behavior := .builtin .resume },
      { name := "create", behavior := .builtin .create },
      { name := "yield", behavior := .builtin .yield }] }
  fibers := #[{ status := .main, owner := ⟨0⟩ }]

theorem obeys_gathering : gathering.Obeys flatness := by
  have hcode : ∀ i ∈ gathering.code.instructions.toList, ∀ v ∈ i.value, v.isFlat := by decide
  refine ⟨fun i hi => hcode i (Array.mem_toList_iff.2 hi), ⟨nofun, nofun, nofun, ?_⟩,
    forall_mem_toArray (List.forall_mem_singleton.2 ⟨nofun, nofun, rfl⟩)⟩
  refine forall_mem_toArray (List.forall_mem_cons.2 ⟨⟨_, rfl⟩, ?_⟩)
  refine List.forall_mem_cons.2 ⟨⟨_, rfl⟩, ?_⟩
  refine List.forall_mem_cons.2 ⟨⟨_, rfl⟩, ?_⟩
  exact List.forall_mem_singleton.2 ⟨_, rfl⟩

theorem served_gathering : (restrained (fun request m _ => request.nests m) 12
    (.call (.closure ⟨0⟩) []) gathering).1 ≠ .error .exhausted := by
  have hok : (restrained (fun request m _ => request.nests m) 12 (.call (.closure ⟨0⟩) [])
    gathering).1.isOk = true := by decide +kernel
  intro h
  rw [h] at hok
  cases hok

theorem gathering_flat :
    (restrained (fun request m _ => request.nests m) 12 (.call (.closure ⟨0⟩) []) gathering).1 ≠
        .error .exhausted ∧
      (∀ m', UserCode 12 (fun E => E (.call (.closure ⟨0⟩) [])) gathering m' → m'.Obeys flatness) ∧
      (engine 12 (.call (.closure ⟨0⟩) []) gathering).2.Obeys flatness ∧
      ∃ v, (engine 12 (.call (.closure ⟨0⟩) []) gathering).1 = .ok v ∧ v.isTuple ∧ v.isFlat := by
  have hrequest : (Request.call (.closure ⟨0⟩) []).Obeys flatness := ⟨rfl, List.forall_mem_nil _⟩
  obtain ⟨-, huser, hmachine, hanswer, -⟩ :=
    tuples_never_nested obeys_gathering hrequest served_gathering
  have htuple : ((engine 12 (.call (.closure ⟨0⟩) []) gathering).1.toOption.map isTuple) =
    some true := by decide +kernel
  refine ⟨served_gathering, huser, hmachine, ?_⟩
  rcases hv : (engine 12 (.call (.closure ⟨0⟩) []) gathering).1 with s | v <;> rw [hv] at htuple
  · cases htuple
  · exact ⟨v, rfl, Option.some.inj htuple, hanswer v hv⟩

/-- What is selected from a tuple and another value is a tuple with a tuple in it. -/
theorem selection_nested : gathering.Obeys flatness ∧
    (engine 14 (.call (.closure ⟨2⟩) []) gathering).1.toOption.map isFlat = some false :=
  ⟨obeys_gathering, by decide +kernel⟩

end ScriptMachine
