import Mathlib

/-! # Loops as folds

A Go `for _, x := range xs { s = body(s, x) }` is `xs.foldl body s`; when the
body can fail (an error return or a run-time panic) it is `xs.foldlM body s` in
`Except`.  The rules below carry a predicate through such a loop one iteration
at a time, take apart a successful `Except` bind, locate the iteration a failed
loop failed in, and follow one component of the state through a loop.  A sequence of
method calls on one value is the same fold, each call made under its precondition
(`ForallAlong`). -/
set_option autoImplicit false

namespace GoLoop

section Rules
variable {σ α ε β : Type}

theorem bind_eq_ok {x : Except ε α} {f : α → Except ε β} {b : β} :
    x >>= f = .ok b ↔ ∃ a, x = .ok a ∧ f a = .ok b := by
  cases x with
  | error e => simp [bind, Except.bind]
  | ok a => simp [bind, Except.bind]

theorem bind_eq_error {x : Except ε α} {f : α → Except ε β} {e : ε} :
    x >>= f = .error e ↔ x = .error e ∨ ∃ a, x = .ok a ∧ f a = .error e := by
  cases x with
  | error e' => simp [bind, Except.bind]
  | ok a => simp [bind, Except.bind]

@[simp] theorem throw_ne_ok {e : ε} {a : α} : (throw e : Except ε α) ≠ .ok a := by
  simp [throw, throwThe, MonadExceptOf.throw]

@[simp] theorem pure_eq_ok {a b : α} : (pure a : Except ε α) = .ok b ↔ a = b := by
  simp [pure, Except.pure]

@[simp] theorem ok_bind (a : α) (f : α → Except ε β) : (Except.ok a >>= f) = f a := rfl

/-- A loop that maps each element through a check that may fail returns the
images exactly when the check passes on each element with its image. -/
theorem mapM_eq_ok_iff (f : α → Except ε β) :
    ∀ (l : List α) (out : List β), l.mapM f = .ok out ↔ List.Forall₂ (fun a b => f a = .ok b) l out
  | [], [] => by simp [pure, Except.pure]
  | [], _ :: _ => by constructor <;> intro impossible <;> cases impossible
  | a :: rest, out => by
      rw [List.mapM_cons, bind_eq_ok]
      constructor
      · rintro ⟨b, first, later⟩
        obtain ⟨bs, restOk, returned⟩ := bind_eq_ok.mp later
        simp only [pure, Except.pure, Except.ok.injEq] at returned
        subst returned
        exact List.Forall₂.cons first ((mapM_eq_ok_iff f rest bs).mp restOk)
      · intro each
        cases each with
        | cons first later =>
            exact ⟨_, first, bind_eq_ok.mpr ⟨_, (mapM_eq_ok_iff f rest _).mpr later, rfl⟩⟩

/-- A loop whose check passes on every element returns its images, and a projection of each
image is what its element gives. -/
theorem mapM_ok_of_forall {γ : Type} (f : α → Except ε β) (g : β → γ) (h : α → γ) :
    ∀ l : List α, (∀ a ∈ l, ∃ b, f a = .ok b ∧ g b = h a) →
      ∃ out, l.mapM f = .ok out ∧ out.map g = l.map h
  | [], _ => ⟨[], rfl, rfl⟩
  | a :: rest, each => by
      obtain ⟨b, first, proj⟩ := each a List.mem_cons_self
      obtain ⟨out, restOk, restProj⟩ :=
        mapM_ok_of_forall f g h rest (fun a' mem => each a' (List.mem_cons_of_mem a mem))
      refine ⟨b :: out, ?_, by simp [proj, restProj]⟩
      rw [List.mapM_cons, first, ok_bind, restOk, ok_bind]
      rfl

/-- A checking loop whose check passes on every element passes. -/
theorem forM_eq_ok_of_forall (f : α → Except ε Unit) :
    ∀ l : List α, (∀ a ∈ l, f a = .ok ()) → l.forM f = .ok ()
  | [], _ => rfl
  | a :: rest, each => by
      rw [List.forM_eq_forM, List.forM_cons, each a List.mem_cons_self, ok_bind]
      exact forM_eq_ok_of_forall f rest fun a' mem => each a' (List.mem_cons_of_mem a mem)

/-- The loop `for i, x := range xs { if x != ys[i] { fail } }` over two slices of
one length passes exactly when they are equal. -/
theorem zip_any_bne_eq_false_iff {α : Type} [DecidableEq α] :
    ∀ (xs ys : List α), xs.length = ys.length →
      ((xs.zip ys).any (fun pair => pair.1 != pair.2) = false ↔ xs = ys) := by
  intro xs
  induction xs with
  | nil =>
      intro ys sameLength
      cases ys with
      | nil => simp
      | cons y rest => cases sameLength
  | cons x rest ih =>
      intro ys sameLength
      cases ys with
      | nil => cases sameLength
      | cons y more =>
          have restLength : rest.length = more.length := Nat.succ.inj sameLength
          simp only [List.zip_cons_cons, List.any_cons, Bool.or_eq_false_iff, bne_eq_false_iff_eq,
            ih more restLength, List.cons.injEq]

/-- An invariant of the loop body is an invariant of the loop. -/
theorem foldl_invariant (P : σ → Prop) (f : σ → α → σ) :
    ∀ (l : List α) (s : σ), (∀ t a, a ∈ l → P t → P (f t a)) → P s → P (l.foldl f s) := by
  intro l
  induction l with
  | nil => intro s _ start; exact start
  | cons a rest ih =>
      intro s step start
      have afterHead : P (f s a) := step s a (by simp) start
      exact ih (f s a) (fun t b member => step t b (by simp [member])) afterHead

/-- The same rule for a loop whose body may fail: every state it returns
satisfies the invariant. -/
theorem foldlM_invariant (P : σ → Prop) (f : σ → α → Except ε σ) :
    ∀ (l : List α) (s s' : σ), (∀ t a t', a ∈ l → P t → f t a = .ok t' → P t') → P s →
      l.foldlM f s = .ok s' → P s' := by
  intro l
  induction l with
  | nil =>
      intro s s' _ start run
      simp only [List.foldlM_nil, pure, Except.pure, Except.ok.injEq] at run
      exact run ▸ start
  | cons a rest ih =>
      intro s s' step start run
      simp only [List.foldlM_cons] at run
      obtain ⟨next, headRun, restRun⟩ := bind_eq_ok.mp run
      have afterHead : P next := step s a next (by simp) start headRun
      exact ih next s' (fun t b t' member => step t b t' (by simp [member])) afterHead restRun

/-- A loop of checks passes exactly when every check passes. -/
theorem foldlM_unit_eq_ok_iff (f : Unit → α → Except ε Unit) :
    ∀ l : List α, l.foldlM f () = .ok () ↔ ∀ a ∈ l, f () a = .ok () := by
  intro l
  induction l with
  | nil => simp [pure, Except.pure]
  | cons a rest ih =>
      rw [List.foldlM_cons, bind_eq_ok]
      constructor
      · rintro ⟨⟨⟩, head, restRun⟩
        intro b member
        rcases List.mem_cons.mp member with rfl | restMember
        · exact head
        · exact ih.mp restRun b restMember
      · intro each
        exact ⟨(), each a List.mem_cons_self,
          ih.mpr fun b member => each b (List.mem_cons_of_mem a member)⟩
/-- When every iteration from an invariant state either succeeds into one or fails with an
allowed error, so does the loop. -/
theorem foldlM_outcome (P : σ → Prop) (E : ε → Prop) (f : σ → α → Except ε σ) :
    ∀ (l : List α) (s : σ),
      (∀ t a, a ∈ l → P t → (∃ t', f t a = .ok t' ∧ P t') ∨ ∃ e, f t a = .error e ∧ E e) → P s →
        (∃ s', l.foldlM f s = .ok s' ∧ P s') ∨ ∃ e, l.foldlM f s = .error e ∧ E e := by
  intro l
  induction l with
  | nil =>
      intro s _ start
      exact .inl ⟨s, rfl, start⟩
  | cons a rest ih =>
      intro s step start
      simp only [List.foldlM_cons]
      rcases step s a List.mem_cons_self start with ⟨next, headRun, afterHead⟩ | ⟨e, headRun, allowed⟩
      · rw [headRun, ok_bind]
        exact ih next (fun t b member => step t b (List.mem_cons_of_mem a member)) afterHead
      · rw [headRun]
        exact .inr ⟨e, rfl, allowed⟩

/-- A loop that fails failed in one of its iterations, with that iteration's error. -/
theorem foldlM_error (f : σ → α → Except ε σ) :
    ∀ (l : List α) (s : σ) (e : ε), l.foldlM f s = .error e → ∃ t a, a ∈ l ∧ f t a = .error e := by
  intro l
  induction l with
  | nil =>
      intro s e run
      cases run
  | cons a rest ih =>
      intro s e run
      simp only [List.foldlM_cons] at run
      cases head : f s a with
      | error e' =>
          rw [head] at run
          cases run
          exact ⟨s, a, List.mem_cons_self, head⟩
      | ok next =>
          rw [head] at run
          obtain ⟨t, b, member, failed⟩ := ih next e run
          exact ⟨t, b, List.mem_cons_of_mem a member, failed⟩

/-- What every iteration returns, a loop over a non-empty list returns. -/
theorem foldlM_last (Q : σ → Prop) (f : σ → α → Except ε σ)
    (step : ∀ t a t', f t a = .ok t' → Q t') :
    ∀ (l : List α) (s s' : σ), l ≠ [] → l.foldlM f s = .ok s' → Q s' := by
  intro l
  induction l with
  | nil =>
      intro s s' nonempty _
      exact absurd rfl nonempty
  | cons a rest ih =>
      intro s s' _ run
      simp only [List.foldlM_cons] at run
      obtain ⟨next, headRun, restRun⟩ := bind_eq_ok.mp run
      cases rest with
      | nil =>
          simp only [List.foldlM_nil, pure, Except.pure, Except.ok.injEq] at restRun
          exact restRun ▸ step s a next headRun
      | cons b more => exact ih next s' (List.cons_ne_nil b more) restRun

/-- A component of the state that each iteration updates by `g` alone is, after
the loop, the fold of `g` over the list. -/
theorem foldlM_proj_foldl {β : Type} (proj : σ → β) (g : β → α → β) (f : σ → α → Except ε σ)
    (track : ∀ t a t', f t a = .ok t' → proj t' = g (proj t) a) :
    ∀ (l : List α) (s s' : σ), l.foldlM f s = .ok s' → proj s' = l.foldl g (proj s) := by
  intro l
  induction l with
  | nil =>
      intro s s' run
      simp only [List.foldlM_nil, pure, Except.pure, Except.ok.injEq] at run
      simp [run]
  | cons a rest ih =>
      intro s s' run
      simp only [List.foldlM_cons] at run
      obtain ⟨next, headRun, restRun⟩ := bind_eq_ok.mp run
      rw [List.foldl_cons, ← track s a next headRun]
      exact ih next s' restRun

/-- A component no iteration changes is the same after the loop (the frame rule). -/
theorem foldlM_proj_eq {β : Type} (proj : σ → β) (f : σ → α → Except ε σ)
    (frame : ∀ t a t', f t a = .ok t' → proj t' = proj t) (l : List α) {s s' : σ}
    (run : l.foldlM f s = .ok s') : proj s' = proj s := by
  rw [foldlM_proj_foldl proj (fun b _ => b) f frame l s s' run, List.foldl_fixed]

/-- The frame rule for a loop whose body cannot fail. -/
theorem foldl_proj_eq {β : Type} (proj : σ → β) (f : σ → α → σ)
    (frame : ∀ t a, proj (f t a) = proj t) (l : List α) (s : σ) :
    proj (l.foldl f s) = proj s :=
  foldl_invariant (fun t => proj t = proj s) f l s (fun t a _ same => (frame t a).trans same) rfl

/-! A loop whose failure hands back the state it stopped in (effects outside a
transaction that a rollback keeps) returns `Except (ε × σ) σ`. -/

/-- An invariant of every iteration, failing or not, holds of the state a failed
loop hands back. -/
theorem foldlM_failure_invariant (P : σ → Prop) (f : σ → α → Except (ε × σ) σ)
    (step : ∀ t a t', P t → f t a = .ok t' → P t')
    (failure : ∀ t a e t', P t → f t a = .error (e, t') → P t') :
    ∀ (l : List α) (s : σ) (e : ε) (t : σ), P s → l.foldlM f s = .error (e, t) → P t := by
  intro l
  induction l with
  | nil =>
      intro s e t _ run
      cases run
  | cons a rest ih =>
      intro s e t start run
      simp only [List.foldlM_cons] at run
      cases head : f s a with
      | error stop =>
          rw [head] at run
          cases run
          exact failure s a e t start head
      | ok next =>
          rw [head] at run
          exact ih next e t (step s a next start head) run

/-- A loop started from `g s` is the loop from `s` seen through `g`, when every
iteration is. -/
theorem foldlM_map_state (g : σ → σ) (f : σ → α → Except (ε × σ) σ)
    (commute : ∀ s a, f (g s) a = ((f s a).map g).mapError fun stop => (stop.1, g stop.2)) :
    ∀ (l : List α) (s : σ),
      l.foldlM f (g s) = ((l.foldlM f s).map g).mapError fun stop => (stop.1, g stop.2) := by
  intro l
  induction l with
  | nil => intro s; rfl
  | cons a rest ih =>
      intro s
      simp only [List.foldlM_cons, commute]
      cases f s a with
      | error stop => rfl
      | ok next => exact ih next

/-- Each call of a sequence is made in a state that meets the call's precondition `pre`. -/
def ForallAlong (f : σ → α → σ) (pre : σ → α → Prop) : σ → List α → Prop
  | _, [] => True
  | s, a :: rest => pre s a ∧ ForallAlong f pre (f s a) rest

instance decidableForallAlong (f : σ → α → σ) (pre : σ → α → Prop) [∀ s a, Decidable (pre s a)] :
    ∀ (s : σ) (l : List α), Decidable (ForallAlong f pre s l)
  | _, [] => isTrue trivial
  | s, a :: rest =>
    @instDecidableAnd _ _ (inferInstanceAs (Decidable (pre s a))) (decidableForallAlong f pre (f s a) rest)

theorem ForallAlong.imp {f : σ → α → σ} {pre pre' : σ → α → Prop} (weaker : ∀ s a, pre s a → pre' s a)
    (l : List α) : ∀ {s : σ}, ForallAlong f pre s l → ForallAlong f pre' s l := by
  induction l with
  | nil => intro s _; trivial
  | cons a rest ih =>
      intro s along
      exact ⟨weaker s a along.1, ih along.2⟩

/-- An invariant that every call made under its precondition keeps holds after a
sequence of such calls. -/
theorem foldl_invariant_along (P : σ → Prop) {f : σ → α → σ} {pre : σ → α → Prop}
    (step : ∀ s a, pre s a → P s → P (f s a)) :
    ∀ (l : List α) (s : σ), ForallAlong f pre s l → P s → P (l.foldl f s) := by
  intro l
  induction l with
  | nil => intro s _ start; exact start
  | cons a rest ih =>
      intro s along start
      exact ih (f s a) along.2 (step s a along.1 start)

/-- A run in `Option`, `none` being a panic, of calls that each succeed and keep `P` when `ok`
holds of the call: it succeeds and ends in a state satisfying `P`. -/
theorem foldlM_option_invariant (P : σ → Prop) (ok : α → Prop) (f : σ → α → Option σ)
    (step : ∀ t a, ok a → P t → ∃ t', f t a = some t' ∧ P t') :
    ∀ (l : List α) (s : σ), (∀ a ∈ l, ok a) → P s → ∃ s', l.foldlM f s = some s' ∧ P s' := by
  intro l
  induction l with
  | nil => intro s _ start; exact ⟨s, rfl, start⟩
  | cons a rest ih =>
      intro s allOk start
      obtain ⟨next, headRun, afterHead⟩ := step s a (allOk a List.mem_cons_self) start
      obtain ⟨s', restRun, final⟩ := ih next (fun b mem => allOk b (List.mem_cons_of_mem a mem)) afterHead
      exact ⟨s', by simp [List.foldlM_cons, headRun, restRun], final⟩

/-- Every state a run in `Option` returns satisfies an invariant of the calls that return. -/
theorem foldlM_option_preserves (P : σ → Prop) (f : σ → α → Option σ)
    (step : ∀ t a t', P t → f t a = some t' → P t') :
    ∀ (l : List α) (s s' : σ), P s → l.foldlM f s = some s' → P s' := by
  intro l
  induction l with
  | nil =>
      intro s s' start run
      cases run
      exact start
  | cons a rest ih =>
      intro s s' start run
      simp only [List.foldlM_cons, Option.bind_eq_bind, Option.bind_eq_some_iff] at run
      obtain ⟨next, headRun, restRun⟩ := run
      exact ih next s' (step s a next start headRun) restRun

end Rules

end GoLoop
