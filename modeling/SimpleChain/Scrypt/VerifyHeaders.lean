import Mathlib

/-! # Batch header verification (`PowScrypt.VerifyHeaders`)

`VerifyHeaders` starts `min(GOMAXPROCS, n)` workers and a collector goroutine.
The collector hands out the indices `0, 1, …` on the unbuffered `inputs` channel,
receives finished indices on `done` (buffered, one slot per worker) in whatever
order the workers finish, and after each one sends on `errorsOut` the results of
the longest run of finished headers from `out` on, returning after the last.

A run is any sequence of the goroutines' steps that the channels allow: a worker
takes an index, a worker finishes (it writes `errors[index]` and sends the index
on `done`, which blocks while `done` is full), the collector receives, or the
caller aborts.  Whatever the order, the results come out in header order, no
slice is indexed out of range, every run ends within `3 n + 1` steps, and a run
that can go no further has either been aborted or sent all `n` results, the
collector returning right after the `n`-th.

`verify i` is what `verifyHeaderWorker` returns for header `i`; a Go `error` is an
`Option ε`, `none` for nil.  The writing worker's store to `errors` and its send
are one step: the collector reads `errors[i]` only after receiving `i`.  The fake
mode and the empty batch, which answer without workers, are not modelled. -/
set_option autoImplicit false

namespace SimpleChain.Scrypt

/-- Where the program is: the collector selecting, returned or aborted, or a panic. -/
inductive Status where
  | collecting
  | returned
  | aborted
  | panicked
deriving DecidableEq, Repr

/-- The state of one call: the collector's locals `in` (`inIndex`), `out`, `inputs` and `checked`, the
`errors` slice, each worker (`none` while it waits in `range inputs`, `some i` while it
verifies header `i`), the buffer of `done` and what was sent on `errorsOut`. -/
structure Batch (ε : Type) where
  inIndex : Nat
  out : Nat
  inputs : Bool
  checked : List Bool
  errors : List (Option ε)
  workers : List (Option Nat)
  done : List Nat
  errorsOut : List (Option ε)
  status : Status

/-- A step of one goroutine. -/
inductive Event where
  /-- the collector's `inputs <- in`, received by worker `w` -/
  | send (w : Nat)
  /-- worker `w` stores its result and sends its index on `done` -/
  | finish (w : Nat)
  /-- the collector's `index := <-done` and the drain loop after it -/
  | receive
  /-- the collector's `<-abort` -/
  | abort

variable {ε : Type}

/-- The drain loop `for checked[index] = true; checked[out]; out++`: the results of the
finished headers from `out` on, sent in order; after header `n - 1` the collector returns. -/
def drain (n : Nat) (checked : List Bool) (errors : List (Option ε)) (out : Nat)
    (errorsOut : List (Option ε)) : Status × Nat × List (Option ε) :=
  match _found : checked[out]? with
  | none => (.panicked, out, errorsOut)
  | some false => (.collecting, out, errorsOut)
  | some true =>
    match errors[out]? with
    | none => (.panicked, out, errorsOut)
    | some e =>
      if out = n - 1 then (.returned, out, errorsOut ++ [e])
      else drain n checked errors (out + 1) (errorsOut ++ [e])
termination_by checked.length - out
decreasing_by
  have := (List.getElem?_eq_some_iff.mp _found).1
  omega

section Steps

variable (n cap : Nat) (verify : Nat → Option ε)

/-- The state `VerifyHeaders` leaves for the goroutines: `cap` workers, all waiting. -/
def start : Batch ε :=
  { inIndex := 0, out := 0, inputs := true, checked := List.replicate n false,
    errors := List.replicate n none, workers := List.replicate cap none, done := [],
    errorsOut := [], status := .collecting }

namespace Batch

/-- `case inputs <- in`, taken by worker `w`; `inputs` becomes nil after the last index. -/
def send (s : Batch ε) (w : Nat) : Option (Batch ε) :=
  if s.status = .collecting ∧ s.inputs = true ∧ s.workers[w]? = some none then
    let next := s.inIndex + 1
    some { s with
      workers := s.workers.set w (some s.inIndex)
      inIndex := next
      inputs := if next = n then false else s.inputs }
  else none

/-- Worker `w` stores `errors[index]` and sends `index` on `done`, once `done` has room. -/
def finish (s : Batch ε) (w : Nat) : Option (Batch ε) :=
  match s.workers[w]? with
  | some (some index) =>
    if s.done.length < cap then
      if index < s.errors.length then
        some { s with
          errors := s.errors.set index (verify index)
          done := s.done ++ [index]
          workers := s.workers.set w none }
      else some { s with status := .panicked }
    else none
  | _ => none

/-- `case index := <-done`: mark the header finished, then drain. -/
def receive (s : Batch ε) : Option (Batch ε) :=
  if s.status = .collecting then
    match s.done with
    | [] => none
    | index :: rest =>
      if index < s.checked.length then
        let checked := s.checked.set index true
        let (status, out, errorsOut) := drain n checked s.errors s.out s.errorsOut
        some { s with done := rest, checked, status, out, errorsOut }
      else some { s with done := rest, status := .panicked }
  else none

def abort (s : Batch ε) : Option (Batch ε) :=
  if s.status = .collecting then some { s with status := .aborted } else none

def step (s : Batch ε) : Event → Option (Batch ε)
  | .send w => s.send n w
  | .finish w => s.finish cap verify w
  | .receive => s.receive n
  | .abort => s.abort

end Batch

/-- A run of steps; `none` when one of them is not enabled. -/
def runEvents (s : Batch ε) (events : List Event) : Option (Batch ε) :=
  events.foldlM (fun s e => s.step n cap verify e) s

end Steps

/-! ## The drain loop -/

section Drain

variable {n : Nat} (verify : Nat → Option ε)

/-- From `out`, the drain loop sends the results of the run of checked headers there, in
order: it returns after header `n - 1`, or stops at the first header not yet checked. -/
theorem drain_spec {checked : List Bool} {errors : List (Option ε)} (sized : checked.length = n)
    (ready : ∀ i, checked[i]? = some true → errors[i]? = some (verify i)) (out : Nat) (within : out < n) :
    drain n checked errors out ((List.range out).map verify) = (.returned, n - 1, (List.range n).map verify) ∨
      ∃ out', out' < n ∧ checked[out']? = some false ∧
        drain n checked errors out ((List.range out).map verify) =
          (.collecting, out', (List.range out').map verify) := by
  rw [drain]
  split
  · rename_i missing
    rw [List.getElem?_eq_none_iff] at missing
    omega
  · rename_i unchecked
    exact .inr ⟨out, within, unchecked, rfl⟩
  · rename_i isChecked
    rw [ready out isChecked]
    dsimp only
    have sent : (List.range out).map verify ++ [verify out] = (List.range (out + 1)).map verify := by
      rw [List.range_succ, List.map_append, List.map_singleton]
    rw [sent]
    split
    · rename_i last
      left
      rw [show out + 1 = n by omega, ← last]
    · exact drain_spec sized ready (out + 1) (by omega)
termination_by n - out

end Drain

/-! ## What every reachable state satisfies -/

/-- What holds of every state a run reaches: each index handed out is being verified, waits
in `done` with its result stored, or is checked; the results sent so far are those of the
headers before `out`, and all of them once the collector has returned. -/
structure Inv (n cap : Nat) (verify : Nat → Option ε) (s : Batch ε) : Prop where
  checkedLength : s.checked.length = n
  errorsLength : s.errors.length = n
  workersLength : s.workers.length = cap
  inputsOpen : s.inputs = decide (s.inIndex < n)
  handedOut : s.inIndex ≤ n
  cover : ∀ i < s.inIndex,
    (∃ w : Nat, s.workers[w]? = some (some i)) ∨ i ∈ s.done ∨ s.checked[i]? = some true
  busyBelow : ∀ (w i : Nat), s.workers[w]? = some (some i) → i < s.inIndex
  doneBelow : ∀ i ∈ s.done, i < s.inIndex
  doneReady : ∀ i ∈ s.done, s.errors[i]? = some (verify i)
  checkedReady : ∀ i, s.checked[i]? = some true → s.errors[i]? = some (verify i)
  room : s.done.length ≤ cap
  sentPrefix : s.status ≠ .returned → s.out < n ∧ s.errorsOut = (List.range s.out).map verify
  waiting : s.status = .collecting → s.checked[s.out]? = some false
  returned : s.status = .returned → s.errorsOut = (List.range n).map verify
  noPanic : s.status ≠ .panicked

section Invariant

variable {n cap : Nat} {verify : Nat → Option ε}

theorem start_inv (nonempty : 1 ≤ n) : Inv n cap verify (start n cap) where
  checkedLength := List.length_replicate
  errorsLength := List.length_replicate
  workersLength := List.length_replicate
  inputsOpen := (decide_eq_true (show 0 < n from nonempty)).symm
  handedOut := Nat.zero_le n
  cover := fun _ below => absurd below (Nat.not_lt_zero _)
  busyBelow := fun w i busy => by simp [start, List.getElem?_replicate] at busy
  doneBelow := fun _ mem => absurd mem List.not_mem_nil
  doneReady := fun _ mem => absurd mem List.not_mem_nil
  checkedReady := fun i isChecked => by simp [start, List.getElem?_replicate] at isChecked
  room := Nat.zero_le cap
  sentPrefix := fun _ => ⟨nonempty, rfl⟩
  waiting := fun _ => by simp [start, List.getElem?_replicate]; omega
  returned := by rintro ⟨⟩
  noPanic := by rintro ⟨⟩

theorem Inv.inIndex_lt {s : Batch ε} (inv : Inv n cap verify s) (opened : s.inputs = true) : s.inIndex < n := by
  have := inv.inputsOpen
  rw [opened] at this
  exact of_decide_eq_true this.symm

theorem Batch.send_inv {s s' : Batch ε} {w : Nat} (inv : Inv n cap verify s) (sent : s.send n w = some s') :
    Inv n cap verify s' := by
  unfold Batch.send at sent
  split at sent
  · rename_i enabled
    obtain ⟨-, opened, idle⟩ := enabled
    cases sent
    have below := inv.inIndex_lt opened
    have slot : w < s.workers.length := (List.getElem?_eq_some_iff.mp idle).1
    exact {
      checkedLength := inv.checkedLength
      errorsLength := inv.errorsLength
      workersLength := by simp [inv.workersLength]
      inputsOpen := by
        dsimp only
        split
        · rename_i last
          simp [last]
        · rename_i notLast
          rw [opened]
          simp only [Bool.true_eq, decide_eq_true_eq]
          omega
      handedOut := by dsimp only; omega
      cover := fun i below => by
        dsimp only at below ⊢
        by_cases fresh : i = s.inIndex
        · exact .inl ⟨w, by simp [slot, fresh]⟩
        · rcases inv.cover i (by omega) with ⟨v, busy⟩ | pending | isChecked
          · have other : w ≠ v := by
              rintro rfl
              rw [idle] at busy
              simp at busy
            exact .inl ⟨v, by rw [List.getElem?_set_ne other]; exact busy⟩
          · exact .inr (.inl pending)
          · exact .inr (.inr isChecked)
      busyBelow := fun v i busy => by
        dsimp only at busy ⊢
        by_cases same : w = v
        · subst same
          simp [slot] at busy
          omega
        · rw [List.getElem?_set_ne same] at busy
          have := inv.busyBelow v i busy
          omega
      doneBelow := fun i mem => Nat.lt_succ_of_lt (inv.doneBelow i mem)
      doneReady := inv.doneReady
      checkedReady := inv.checkedReady
      room := inv.room
      sentPrefix := inv.sentPrefix
      waiting := inv.waiting
      returned := inv.returned
      noPanic := inv.noPanic }
  · cases sent

theorem Batch.finish_inv {s s' : Batch ε} {w : Nat} (inv : Inv n cap verify s)
    (finished : s.finish cap verify w = some s') : Inv n cap verify s' := by
  unfold Batch.finish at finished
  split at finished
  · rename_i index busy
    have below := inv.busyBelow w index busy
    have inRange : index < s.errors.length := by
      have := inv.handedOut
      rw [inv.errorsLength]
      omega
    have slot : w < s.workers.length := (List.getElem?_eq_some_iff.mp busy).1
    split at finished
    · rename_i hasRoom
      cases finished
      exact {
        checkedLength := inv.checkedLength
        errorsLength := by simp [inv.errorsLength]
        workersLength := by simp [inv.workersLength]
        inputsOpen := inv.inputsOpen
        handedOut := inv.handedOut
        cover := fun i below => by
          dsimp only
          rcases inv.cover i below with ⟨v, busyAt⟩ | pending | isChecked
          · by_cases same : w = v
            · subst same
              rw [busy] at busyAt
              cases busyAt
              exact .inr (.inl (List.mem_append_right _ (List.mem_singleton_self _)))
            · exact .inl ⟨v, by rw [List.getElem?_set_ne same]; exact busyAt⟩
          · exact .inr (.inl (List.mem_append_left _ pending))
          · exact .inr (.inr isChecked)
        busyBelow := fun v i busyAt => by
          dsimp only at busyAt
          by_cases same : w = v
          · subst same
            simp [slot] at busyAt
          · rw [List.getElem?_set_ne same] at busyAt
            exact inv.busyBelow v i busyAt
        doneBelow := fun i mem => by
          rcases List.mem_append.mp mem with old | fresh
          · exact inv.doneBelow i old
          · rw [List.mem_singleton.mp fresh]
            exact below
        doneReady := fun i mem => by
          dsimp only
          by_cases same : index = i
          · subst same
            simp [inRange]
          · rw [List.getElem?_set_ne same]
            rcases List.mem_append.mp mem with old | fresh
            · exact inv.doneReady i old
            · exact absurd (List.mem_singleton.mp fresh).symm same
        checkedReady := fun i isChecked => by
          dsimp only
          by_cases same : index = i
          · subst same
            simp [inRange]
          · rw [List.getElem?_set_ne same]
            exact inv.checkedReady i isChecked
        room := by
          dsimp only
          rw [List.length_append, List.length_singleton]
          omega
        sentPrefix := inv.sentPrefix
        waiting := inv.waiting
        returned := inv.returned
        noPanic := inv.noPanic }
    · cases finished
  · cases finished

/-- After a receive the state keeps the invariant whatever the drain loop did, given what
its result says about the sent results. -/
theorem Inv.received {s : Batch ε} (inv : Inv n cap verify s) {index : Nat} {rest : List Nat}
    (pending : s.done = index :: rest) {status : Status} {out : Nat} {errorsOut : List (Option ε)}
    (sentPrefix : status ≠ .returned → out < n ∧ errorsOut = (List.range out).map verify)
    (waiting : status = .collecting → (s.checked.set index true)[out]? = some false)
    (returned : status = .returned → errorsOut = (List.range n).map verify)
    (noPanic : status ≠ .panicked) :
    Inv n cap verify { s with done := rest, checked := s.checked.set index true, status, out, errorsOut } := by
  have mem : index ∈ s.done := by rw [pending]; exact List.mem_cons_self
  have later : ∀ i ∈ rest, i ∈ s.done := fun i mem => by rw [pending]; exact List.mem_cons_of_mem _ mem
  have inRange : index < s.checked.length := by
    have := inv.doneBelow index mem
    have := inv.handedOut
    rw [inv.checkedLength]
    omega
  exact {
    checkedLength := by simp [inv.checkedLength]
    errorsLength := inv.errorsLength
    workersLength := inv.workersLength
    inputsOpen := inv.inputsOpen
    handedOut := inv.handedOut
    cover := fun i below => by
      dsimp only
      by_cases same : index = i
      · subst same
        exact .inr (.inr (by simp [inRange]))
      · rw [List.getElem?_set_ne same]
        rcases inv.cover i below with busy | waits | isChecked
        · exact .inl busy
        · rw [pending] at waits
          rcases List.mem_cons.mp waits with first | inRest
          · exact absurd first.symm same
          · exact .inr (.inl inRest)
        · exact .inr (.inr isChecked)
    busyBelow := inv.busyBelow
    doneBelow := fun i mem => inv.doneBelow i (later i mem)
    doneReady := fun i mem => inv.doneReady i (later i mem)
    checkedReady := fun i isChecked => by
      dsimp only at isChecked ⊢
      by_cases same : index = i
      · subst same
        exact inv.doneReady index mem
      · rw [List.getElem?_set_ne same] at isChecked
        exact inv.checkedReady i isChecked
    room := by
      have := inv.room
      rw [pending, List.length_cons] at this
      dsimp only
      omega
    sentPrefix := sentPrefix
    waiting := waiting
    returned := returned
    noPanic := noPanic }

theorem Batch.receive_inv {s s' : Batch ε} (inv : Inv n cap verify s) (received : s.receive n = some s') :
    Inv n cap verify s' := by
  unfold Batch.receive at received
  split at received
  · rename_i collecting
    split at received
    · cases received
    · rename_i index rest pending
      have mem : index ∈ s.done := by rw [pending]; exact List.mem_cons_self
      have inRange : index < s.checked.length := by
        have := inv.doneBelow index mem
        have := inv.handedOut
        rw [inv.checkedLength]
        omega
      rw [if_pos inRange] at received
      have ready : ∀ i, (s.checked.set index true)[i]? = some true → s.errors[i]? = some (verify i) := by
        intro i isChecked
        by_cases same : index = i
        · subst same
          exact inv.doneReady index mem
        · rw [List.getElem?_set_ne same] at isChecked
          exact inv.checkedReady i isChecked
      obtain ⟨below, sentSoFar⟩ := inv.sentPrefix (by rw [collecting]; decide)
      have sized : (s.checked.set index true).length = n := by simp [inv.checkedLength]
      rw [sentSoFar] at received
      rcases drain_spec verify sized ready s.out below with last | ⟨out', within, unchecked, stopped⟩
      · dsimp only at received
        rw [last] at received
        cases received
        exact inv.received pending (fun notReturned => absurd rfl notReturned) (by rintro ⟨⟩) (fun _ => rfl)
          (by rintro ⟨⟩)
      · dsimp only at received
        rw [stopped] at received
        cases received
        exact inv.received pending (fun _ => ⟨within, rfl⟩) (fun _ => unchecked) (by rintro ⟨⟩) (by rintro ⟨⟩)
  · cases received

theorem Batch.abort_inv {s s' : Batch ε} (inv : Inv n cap verify s) (aborted : s.abort = some s') :
    Inv n cap verify s' := by
  unfold Batch.abort at aborted
  split at aborted
  · rename_i collecting
    cases aborted
    exact { inv with
      sentPrefix := fun _ => inv.sentPrefix (by rw [collecting]; decide)
      waiting := by rintro ⟨⟩
      returned := by rintro ⟨⟩
      noPanic := by rintro ⟨⟩ }
  · cases aborted

theorem Batch.step_inv {s s' : Batch ε} (inv : Inv n cap verify s) {e : Event} (stepped : s.step n cap verify e = some s') :
    Inv n cap verify s' := by
  cases e with
  | send w => exact send_inv inv stepped
  | finish w => exact finish_inv inv stepped
  | receive => exact receive_inv inv stepped
  | abort => exact abort_inv inv stepped

theorem runEvents_inv : ∀ (events : List Event) {s s' : Batch ε}, Inv n cap verify s →
    runEvents n cap verify s events = some s' → Inv n cap verify s'
  | [], s, s', inv, run => by
    cases run
    exact inv
  | e :: events, s, s', inv, run => by
    rw [runEvents, List.foldlM_cons] at run
    obtain ⟨next, first, rest⟩ := Option.bind_eq_some_iff.mp run
    exact runEvents_inv events (Batch.step_inv inv first) rest

/-! ## Every run is short, and a run that stops has finished -/

/-- Overwriting a slot changes a count by what leaves and what enters. -/
theorem countP_set_add {α : Type} (p : α → Bool) {l : List α} {i : Nat} {a b : α} (slot : l[i]? = some a) :
    (l.set i b).countP p + (if p a then 1 else 0) = l.countP p + (if p b then 1 else 0) := by
  obtain ⟨within, rfl⟩ := List.getElem?_eq_some_iff.mp slot
  have present : (if p l[i] then 1 else 0) ≤ l.countP p := by
    split
    · exact List.countP_pos_iff.mpr ⟨l[i], List.getElem_mem within, by assumption⟩
    · exact Nat.zero_le _
  rw [List.countP_set within]
  omega

/-- The steps a state can still take: three for each index not handed out (send, finish,
receive), two for each busy worker, one for each index waiting in `done` and one for the
abort while the collector selects. -/
def Batch.remaining (n : Nat) (s : Batch ε) : Nat :=
  3 * (n - s.inIndex) + 2 * s.workers.countP Option.isSome + s.done.length +
    if s.status = .collecting then 1 else 0

theorem remaining_start (n cap : Nat) : (start (ε := ε) n cap).remaining n = 3 * n + 1 := by
  simp [Batch.remaining, start, List.countP_replicate]

theorem Batch.remaining_step {s s' : Batch ε} (inv : Inv n cap verify s) {e : Event}
    (stepped : s.step n cap verify e = some s') : s'.remaining n < s.remaining n := by
  cases e with
  | send w =>
    simp only [step, send] at stepped
    split at stepped
    · rename_i enabled
      obtain ⟨collecting, opened, idle⟩ := enabled
      cases stepped
      have below := inv.inIndex_lt opened
      have count := countP_set_add Option.isSome (b := some s.inIndex) idle
      simp only [Option.isSome_none, Option.isSome_some, Bool.false_eq_true, ↓reduceIte] at count
      simp only [remaining, collecting]
      omega
    · cases stepped
  | finish w =>
    simp only [step, finish] at stepped
    split at stepped
    · rename_i index busy
      have inRange : index < s.errors.length := by
        have := inv.busyBelow w index busy
        have := inv.handedOut
        rw [inv.errorsLength]
        omega
      split at stepped
      · cases stepped
        have count := countP_set_add Option.isSome (b := none) busy
        simp only [Option.isSome_none, Option.isSome_some, Bool.false_eq_true, ↓reduceIte] at count
        simp only [remaining, List.length_append, List.length_singleton]
        omega
      · cases stepped
    · cases stepped
  | receive =>
    simp only [step, receive] at stepped
    split at stepped
    · rename_i collecting
      split at stepped
      · cases stepped
      · rename_i index rest pending
        split at stepped
        · generalize drain n _ s.errors s.out s.errorsOut = drained at stepped
          obtain ⟨status, out, errorsOut⟩ := drained
          cases stepped
          have : (if status = .collecting then 1 else 0) ≤ 1 := by split <;> omega
          simp only [remaining, pending, List.length_cons, collecting, if_true]
          omega
        · cases stepped
          simp only [remaining, pending, List.length_cons, collecting]
          simp
    · cases stepped
  | abort =>
    simp only [step, abort] at stepped
    split at stepped
    · rename_i collecting
      cases stepped
      simp [remaining, collecting]
    · cases stepped

/-- Each step of a run uses up one of the steps that remain. -/
theorem runEvents_remaining : ∀ (events : List Event) {s s' : Batch ε}, Inv n cap verify s →
    runEvents n cap verify s events = some s' → events.length + s'.remaining n ≤ s.remaining n
  | [], s, s', _, run => by
    cases run
    simp
  | e :: events, s, s', inv, run => by
    rw [runEvents, List.foldlM_cons] at run
    obtain ⟨next, first, rest⟩ := Option.bind_eq_some_iff.mp run
    have later := runEvents_remaining events (Batch.step_inv inv first) rest
    have fewer := Batch.remaining_step inv first
    rw [List.length_cons]
    omega

/-- A state in which no goroutine can move has been aborted or has returned: while the
collector selects, an index in `done` can be received, a busy worker can finish (`done` is
empty, so it has room), an idle worker can take the next index, and once all are handed
out and none is pending the header at `out` is checked, so the drain would have gone on. -/
theorem Inv.stuck {s : Batch ε} (inv : Inv n cap verify s) (workersExist : 1 ≤ cap)
    (stuck : ∀ e, s.step n cap verify e = none) : s.status = .aborted ∨ s.status = .returned := by
  rcases status : s.status with _ | _ | _ | _
  · exfalso
    have noneDone : s.done = [] := by
      rcases pending : s.done with _ | ⟨index, rest⟩
      · rfl
      · have receives := stuck .receive
        simp only [Batch.step, Batch.receive, status, pending, if_true] at receives
        split at receives <;> cases receives
    have idle : ∀ (w i : Nat), s.workers[w]? ≠ some (some i) := by
      intro w i busy
      have finishes := stuck (.finish w)
      simp only [Batch.step, Batch.finish, busy, noneDone, List.length_nil] at finishes
      rw [if_pos (show 0 < cap by omega)] at finishes
      split at finishes <;> cases finishes
    have closed : s.inputs = false := by
      have slot : 0 < s.workers.length := by rw [inv.workersLength]; omega
      have first : s.workers[0]? = some s.workers[0] := List.getElem?_eq_getElem slot
      rcases worker : s.workers[0] with _ | i
      · have sends := stuck (.send 0)
        simp only [Batch.step, Batch.send, status, first, worker, true_and, and_true] at sends
        simpa using sends
      · rw [worker] at first
        exact absurd first (idle 0 i)
    have allHanded : s.inIndex = n := by
      have := inv.handedOut
      rw [inv.inputsOpen] at closed
      simp only [decide_eq_false_iff_not, Nat.not_lt] at closed
      omega
    obtain ⟨below, -⟩ := inv.sentPrefix (by rw [status]; decide)
    rcases inv.cover s.out (by omega) with ⟨w, busy⟩ | waits | isChecked
    · exact idle w _ busy
    · rw [noneDone] at waits
      exact List.not_mem_nil waits
    · rw [inv.waiting status] at isChecked
      cases isChecked
  · exact .inr rfl
  · exact .inl rfl
  · exact absurd status inv.noPanic

end Invariant

/-! ## Delivery in order -/

/-- Header 1 of a batch fails to verify, the others pass. -/
def secondFails (i : Nat) : Option Unit := if i = 1 then some () else none

/-- Three headers and two workers: worker 1 finishes header 1 before worker 0 finishes
header 0, and the collector receives index 1 first. -/
def outOfOrder : List Event :=
  [.send 0, .send 1, .finish 1, .receive, .send 1, .finish 0, .finish 1, .receive, .receive]

end SimpleChain.Scrypt
