import Mathlib

/-! # Operations that fail and keep their effects

A Go method on a mutable receiver that returns an error has changed the receiver
by the time it fails.  `ExceptT ε (StateM σ)` models it: the state is threaded
through a failure, and `attempt` hands the error back as a value, as a caller
that inspects `err` sees it.  `exec` runs an operation from a state; the rules
below run each combinator, and `exec_bind_ok` chains steps that succeeded. -/
set_option autoImplicit false

namespace StateExcept

variable {σ ε α β : Type}

/-- Run an operation from a state. -/
def exec (x : ExceptT ε (StateM σ) α) (s : σ) : Except ε α × σ := x.run.run s

/-- Run `x` and hand back its error as a value; what `x` changed stays changed. -/
def attempt (x : ExceptT ε (StateM σ) α) : ExceptT ε (StateM σ) (Except ε α) := ExceptT.lift x.run

@[simp] theorem exec_pure (a : α) (s : σ) : exec (pure a : ExceptT ε (StateM σ) α) s = (.ok a, s) := rfl

@[simp] theorem exec_throw (e : ε) (s : σ) :
    exec (throw e : ExceptT ε (StateM σ) α) s = (.error e, s) := rfl

@[simp] theorem exec_get (s : σ) : exec (get : ExceptT ε (StateM σ) σ) s = (.ok s, s) := rfl

@[simp] theorem exec_set (s s' : σ) : exec (set s' : ExceptT ε (StateM σ) PUnit) s = (.ok (), s') := rfl

@[simp] theorem exec_modify (f : σ → σ) (s : σ) :
    exec (modify f : ExceptT ε (StateM σ) PUnit) s = (.ok (), f s) := rfl

@[simp] theorem exec_attempt (x : ExceptT ε (StateM σ) α) (s : σ) :
    exec (attempt x) s = (.ok (exec x s).1, (exec x s).2) := rfl

theorem exec_bind (x : ExceptT ε (StateM σ) α) (f : α → ExceptT ε (StateM σ) β) (s : σ) :
    exec (x >>= f) s = match exec x s with
      | (.ok a, s') => exec (f a) s'
      | (.error e, s') => (.error e, s') := by
  unfold exec
  simp only [ExceptT.run, bind, ExceptT.bind, ExceptT.mk, StateT.run, StateT.bind, ExceptT.bindCont]
  rcases x s with ⟨_ | _, _⟩ <;> rfl

theorem exec_map (f : α → β) (x : ExceptT ε (StateM σ) α) (s : σ) :
    exec (f <$> x) s = match exec x s with
      | (.ok a, s') => (.ok (f a), s')
      | (.error e, s') => (.error e, s') := by
  rw [← bind_pure_comp, exec_bind]
  rcases exec x s with ⟨_ | _, _⟩ <;> rfl

theorem exec_bind_ok {x : ExceptT ε (StateM σ) α} {f : α → ExceptT ε (StateM σ) β} {s s' : σ} {a : α}
    (first : exec x s = (.ok a, s')) : exec (x >>= f) s = exec (f a) s' := by
  rw [exec_bind, first]

/-- A sequence that succeeded: both of its steps did. -/
theorem exec_bind_eq_ok {x : ExceptT ε (StateM σ) α} {f : α → ExceptT ε (StateM σ) β} {s s' : σ} {b : β}
    (run : exec (x >>= f) s = (.ok b, s')) : ∃ a s₁, exec x s = (.ok a, s₁) ∧ exec (f a) s₁ = (.ok b, s') := by
  rw [exec_bind] at run
  rcases first : exec x s with ⟨_ | a, s₁⟩ <;> rw [first] at run
  · cases run
  · exact ⟨a, s₁, rfl, run⟩

/-- A `pure` that succeeded returned its value and left the state alone. -/
theorem exec_pure_eq_ok {a b : α} {s s' : σ} (run : exec (pure a : ExceptT ε (StateM σ) α) s = (.ok b, s')) :
    a = b ∧ s = s' := by
  simpa only [exec_pure, Prod.mk.injEq, Except.ok.injEq] using run

theorem exec_tryCatch (x : ExceptT ε (StateM σ) α) (handler : ε → ExceptT ε (StateM σ) α) (s : σ) :
    exec (tryCatch x handler) s = match exec x s with
      | (.ok a, s') => (.ok a, s')
      | (.error e, s') => exec (handler e) s' := by
  unfold exec
  simp only [ExceptT.run, tryCatch, tryCatchThe, MonadExceptOf.tryCatch, ExceptT.tryCatch, ExceptT.mk,
    bind, StateT.run, StateT.bind]
  rcases x s with ⟨_ | _, _⟩ <;> rfl

end StateExcept
