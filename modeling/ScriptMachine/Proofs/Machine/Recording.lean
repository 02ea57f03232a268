import ScriptMachine.Proofs.Machine.Agreement

namespace ScriptMachine

/-- An operation that keeps a record of some of the things it does. -/
def Recorded (ε α : Type) : Type := Machine → (Except Stop α × Machine) × List ε

namespace Recorded

variable {ε δ α β γ : Type} {y : Recorded ε α}

def plain (x : Recorded ε α) : Exec α := fun m => (x m).1

instance : Monad (Recorded ε) where
  pure a m := ((.ok a, m), [])
  bind x g m := match x m with
    | ((.ok a, m'), log) => ((g a m').1, log ++ (g a m').2)
    | ((.error s, m'), log) => ((.error s, m'), log)

def silent (x : Exec α) : Recorded ε α := fun m => (x m, [])

instance : MonadLift Exec (Recorded ε) := ⟨silent⟩

/-- An operation that is recorded itself, with the machine it starts from and how it ends. -/
def noted (note : Machine → Except Stop α × Machine → ε) (x : Exec α) : Recorded ε α :=
  fun m => (x m, [note m (x m)])

def attempt (x : Recorded ε α) : Recorded ε (Except Stop α) := fun m =>
  ((.ok (x m).1.1, (x m).1.2), (x m).2)

def relabel (g : ε → δ) (x : Recorded ε α) : Recorded δ α := fun m => ((x m).1, (x m).2.map g)

section Running

variable {x : Recorded ε α} {y : Exec α} {g : α → Recorded ε β} {a : α} {s : Stop} {m m' : Machine}
  {log : List ε}

theorem bind_ok (h : x m = ((.ok a, m'), log)) :
    (x >>= g) m = ((g a m').1, log ++ (g a m').2) := by
  change (match x m with | ((.ok a, m'), log) => _ | ((.error s, m'), log) => _) = _
  rw [h]

theorem bind_error (h : x m = ((.error s, m'), log)) : (x >>= g) m = ((.error s, m'), log) := by
  change (match x m with | ((.ok a, m'), log) => _ | ((.error s, m'), log) => _) = _
  rw [h]

theorem bind_congr {y : Recorded ε α} (h : x m = y m') : (x >>= g) m = (y >>= g) m' := by
  rcases hy : y m' with ⟨⟨s | a, m''⟩, log⟩ <;> rw [hy] at h
  · rw [bind_error h, bind_error hy]
  · rw [bind_ok h, bind_ok hy]

theorem silent_ok (h : y m = (.ok a, m')) : ((silent y : Recorded ε α) >>= g) m = g a m' := by
  have hy : (silent y : Recorded ε α) m = ((.ok a, m'), []) := by rw [silent, h]
  exact bind_ok hy

theorem silent_error (h : y m = (.error s, m')) :
    ((silent y : Recorded ε α) >>= g) m = ((.error s, m'), []) := by
  have hy : (silent y : Recorded ε α) m = ((.error s, m'), []) := by rw [silent, h]
  exact bind_error hy

end Running

instance : LawfulMonad (Recorded ε) := LawfulMonad.mk' _
  (fun x => by
    funext m
    change (x >>= fun a => pure a) m = x m
    rcases h : x m with ⟨⟨s | a, m'⟩, log⟩
    · exact bind_error h
    · rw [bind_ok h]
      exact congrArg (_, ·) (List.append_nil log))
  (fun a g => by
    funext m
    have h : (pure a : Recorded ε _) m = ((.ok a, m), []) := rfl
    exact bind_ok h)
  (fun x g k => by
    funext m
    rcases h : x m with ⟨⟨s | a, m'⟩, log⟩
    · rw [bind_error (x := x >>= g) (bind_error h), bind_error h]
    · have hg := bind_ok (g := g) h
      rcases h' : g a m' with ⟨⟨s | b, m''⟩, log'⟩ <;> rw [h'] at hg
      · rw [bind_ok h, bind_error hg, bind_error h']
      · rw [bind_ok h, bind_ok hg, bind_ok h', List.append_assoc])

section Plain

@[simp] theorem plain_bind (x : Recorded ε α) (g : α → Recorded ε β) :
    (x >>= g).plain = x.plain >>= fun a => (g a).plain := by
  funext m
  rcases h : x m with ⟨⟨s | a, m'⟩, log⟩
  · rw [Exec.bind_error (show x.plain m = (.error s, m') by rw [plain, h]), plain, bind_error h]
  · rw [Exec.bind_ok (show x.plain m = (.ok a, m') by rw [plain, h]), plain, bind_ok h]
    rfl

@[simp] theorem plain_silent (y : Exec α) : (silent y : Recorded ε α).plain = y := rfl

@[simp] theorem plain_lift (y : Exec α) : (liftM y : Recorded ε α).plain = y := rfl

@[simp] theorem plain_attempt (x : Recorded ε α) : x.attempt.plain = Exec.attempt x.plain := rfl

@[simp] theorem plain_relabel (g : ε → δ) (x : Recorded ε α) : (x.relabel g).plain = x.plain := rfl

theorem plain_forM {l : List γ} {g : γ → Recorded ε PUnit} {k : γ → Exec PUnit}
    (h : ∀ c, (g c).plain = k c) : (l.forM g).plain = l.forM k := by
  induction l with
  | nil => rfl
  | cons c l ih =>
    change (g c >>= fun _ => l.forM g).plain = k c >>= fun _ => l.forM k
    rw [plain_bind, h, ih]

theorem plain_foldlM {l : List γ} {g : α → γ → Recorded ε α} {k : α → γ → Exec α}
    (h : ∀ a c, (g a c).plain = k a c) (a : α) : (l.foldlM g a).plain = l.foldlM k a := by
  induction l generalizing a with
  | nil => rfl
  | cons c l ih =>
    rw [List.foldlM_cons, List.foldlM_cons, plain_bind, h]
    exact congrArg _ (funext ih)

end Plain

/-- Unless the first operation runs out of steps, the second one does and records the same. -/
def Refines (x y : Recorded ε α) : Prop := ∀ m, (x m).1.1 ≠ .error .exhausted → y m = x m

namespace Refines

variable {x : Recorded ε α}

theorem refl (x : Recorded ε α) : Refines x x := fun _ _ => rfl

theorem bind {g k : α → Recorded ε β} (hx : Refines x y) (hg : ∀ a, Refines (g a) (k a)) :
    Refines (x >>= g) (y >>= k) := by
  intro m h
  have hy := hx m
  rcases hrun : x m with ⟨⟨s | a, m'⟩, log⟩ <;> rw [hrun] at hy
  · rw [bind_error hrun] at h ⊢
    exact bind_error (hy fun hs => h (congrArg Except.error (Except.error.inj hs)))
  · rw [bind_ok hrun] at h ⊢
    rw [bind_ok (hy nofun), hg a m' h]

theorem silent {x y : Exec α} (h : Exec.Refines x y) :
    Refines (Recorded.silent x : Recorded ε α) (Recorded.silent y) :=
  fun m hm => congrArg (·, []) (h m hm)

theorem noted {x y : Exec α} (h : Exec.Refines x y)
    (note : Machine → Except Stop α × Machine → ε) :
    Refines (Recorded.noted note x) (Recorded.noted note y) := by
  intro m hm
  rw [Recorded.noted, Recorded.noted, h m hm]

theorem relabel (h : Refines x y) (g : ε → δ) : Refines (x.relabel g) (y.relabel g) := by
  intro m hm
  rw [Recorded.relabel, Recorded.relabel, h m hm]

/-- What looks at how an operation ends has to run out of steps if that does. -/
theorem attempt_bind {g k : Except Stop α → Recorded ε β} (hx : Refines x y)
    (hexhausted : ∀ m, (g (.error .exhausted) m).1.1 = .error .exhausted)
    (hg : ∀ r, Refines (g r) (k r)) : Refines (x.attempt >>= g) (y.attempt >>= k) := by
  intro m h
  rcases hrun : x m with ⟨⟨r, m'⟩, log⟩
  have hattempt : x.attempt m = ((.ok r, m'), log) := by rw [attempt, hrun]
  rw [bind_ok hattempt] at h ⊢
  have hserved : (x m).1.1 ≠ .error .exhausted := by
    rw [hrun]
    rintro rfl
    exact h (hexhausted m')
  have hattempt' : y.attempt m = ((.ok r, m'), log) := by rw [attempt, hx m hserved, hrun]
  rw [bind_ok hattempt', hg r m' h]

theorem forM {l : List γ} {g k : γ → Recorded ε PUnit} (h : ∀ c, Refines (g c) (k c)) :
    Refines (l.forM g) (l.forM k) := by
  induction l with
  | nil => exact .refl _
  | cons c l ih => exact .bind (h c) fun _ => ih

end Refines

end Recorded

end ScriptMachine
