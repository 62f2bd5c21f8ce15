import Mathlib
import SimpleChain.Dpos.Election
import SimpleChain.Lib.Cyclic

/-! # `verifySeal` and the signer queue it lets through

`verifySeal` checks a header against the snapshot of its parent.  Past the
first loop it checks the header's `SignerQueue`: at a loop boundary against
`createSignerQueue` (`verifySignerQueue`), elsewhere position by position
against the parent's queue for the first `MaxSignerCount` positions.  It then
recomputes the parent's missing signers and checks the sealer is in turn.

What the checks give: at a boundary the queue is the elected one
(`verifySeal_boundary_queue`); elsewhere its first `MaxSignerCount` entries are
the parent's (`verifySeal_queue_prefix`).  Nothing bounds the length off the
boundary, so a queue with extra entries passes, `apply` installs it as
`Signers`, and `inturn` rotates over it. -/
set_option autoImplicit false

namespace SimpleChain.Dpos

/-- `inturn`: the signer whose turn it is at `headerTime`, counted in periods
from the loop start around `Signers`.  A zero `Period` is a division by zero. -/
def Snapshot.inturn (s : Snapshot) (signer : Address) (headerTime : Nat) :
    Except DposError Bool :=
  if s.signers.length > 0 then
    if s.config.period = 0 then throw .panicDivideByZero
    else
      let loopIndex := (subU64 headerTime s.loopStartTime / s.config.period) % s.signers.length
      pure (s.signers[loopIndex]? == some signer)
  else pure false

/-- The loop at the end of `getSignerMissingTrantor`: the signers after the
first `lastSigner` up to the next `currentSigner`. -/
def missingSigners (lastSigner currentSigner : Address) : Bool → List Address → List Address
  | _, [] => []
  | recordMissing, signer :: rest =>
      if !recordMissing && signer == lastSigner then
        missingSigners lastSigner currentSigner true rest
      else if recordMissing && signer == currentSigner then []
      else if recordMissing then signer :: missingSigners lastSigner currentSigner true rest
      else missingSigners lastSigner currentSigner false rest

/-- `getSignerMissingTrantor`: the parent's queue twice over, started at the last
sealer's position in the grandparent's queue when it is there. -/
def getSignerMissingTrantor (lastSigner currentSigner : Address) (extra gpExtra : HeaderExtra) :
    Except DposError (List Address) := do
  let signerQueue := extra.signerQueue ++ extra.signerQueue
  let signerQueue ← match gpExtra.signerQueue.findIdx? (· == lastSigner) with
    | none => pure signerQueue
    | some i =>
        if i < signerQueue.length then pure ((signerQueue.set i lastSigner).drop i)
        else throw .panicIndexOutOfRange
  pure (missingSigners lastSigner currentSigner false signerQueue)

theorem missingSigners_recording (lastSigner currentSigner : Address) (queue : List Address) :
    missingSigners lastSigner currentSigner true queue = queue.takeWhile (· != currentSigner) := by
  induction queue with
  | nil => rfl
  | cons signer rest ih =>
    by_cases hit : signer = currentSigner
    · simp [missingSigners, hit]
    · simp [missingSigners, hit, ih]

/-- The scan records from the first `lastSigner` on. -/
theorem missingSigners_after_last {lastSigner currentSigner : Address} {before : List Address}
    (absent : lastSigner ∉ before) (rest : List Address) :
    missingSigners lastSigner currentSigner false (before ++ lastSigner :: rest) =
      rest.takeWhile (· != currentSigner) := by
  induction before with
  | nil => simp [missingSigners, missingSigners_recording]
  | cons signer before ih =>
    have ne : signer ≠ lastSigner := fun eq => absent (eq ▸ List.mem_cons_self)
    rw [List.cons_append, missingSigners, ih (fun mem => absent (List.mem_cons_of_mem signer mem))]
    simp [ne]

/-- Without a grandparent queue, the missing signers are those after `lastSigner` and before
`currentSigner` in the cyclic order of the queue: `(idx current - idx last - 1) mod n` of them,
`n - 1` when the two are one signer. -/
theorem getSignerMissingTrantor_cyclic {lastSigner currentSigner : Address} {extra gpExtra : HeaderExtra}
    (distinct : extra.signerQueue.Nodup) (last : lastSigner ∈ extra.signerQueue)
    (current : currentSigner ∈ extra.signerQueue) (noGrandParentQueue : gpExtra.signerQueue = []) :
    getSignerMissingTrantor lastSigner currentSigner extra gpExtra =
      .ok ((extra.signerQueue.rotate (extra.signerQueue.idxOf lastSigner + 1)).take
        ((extra.signerQueue.idxOf currentSigner + extra.signerQueue.length -
          (extra.signerQueue.idxOf lastSigner + 1)) % extra.signerQueue.length)) := by
  obtain ⟨before, after, queue⟩ := List.append_of_mem last
  have absent : lastSigner ∉ before := fun mem =>
    (List.nodup_append.mp (queue ▸ distinct)).2.2 _ mem _ List.mem_cons_self rfl
  -- the doubled queue read from `lastSigner` on is the queue started after it, then `after`
  have doubled : extra.signerQueue ++ extra.signerQueue =
      before ++ lastSigner :: (extra.signerQueue.rotate (extra.signerQueue.idxOf lastSigner + 1) ++ after) := by
    rw [queue, Cyclic.rotate_succ_idxOf absent]
    simp
  have noMatch : gpExtra.signerQueue.findIdx? (· == lastSigner) = none := by
    rw [noGrandParentQueue]
    rfl
  simp only [getSignerMissingTrantor, noMatch, pure_bind]
  rw [doubled, missingSigners_after_last absent,
    Cyclic.takeWhile_append_of_mem (List.mem_rotate.mpr current), Cyclic.takeWhile_bne,
    Cyclic.idxOf_rotate_succ distinct last current]
  rfl

/-- The queue `[1, 2, 3]` from signer 3 back to signer 2: signer 1 missed its turn. -/
theorem getSignerMissingTrantor_cyclic_wraps :
    ([1#160, 2#160, 3#160] : List Address).Nodup ∧ 3#160 ∈ ([1#160, 2#160, 3#160] : List Address) ∧
      2#160 ∈ ([1#160, 2#160, 3#160] : List Address) ∧
      getSignerMissingTrantor 3#160 2#160 { HeaderExtra.empty with signerQueue := [1#160, 2#160, 3#160] }
        HeaderExtra.empty = .ok [1#160] := by
  refine ⟨by decide, by decide, by decide, ?_⟩
  rw [getSignerMissingTrantor_cyclic (by decide) (by decide) (by decide) rfl]
  rfl

/-- `for i := 0; i < count; i++ { if parentQueue[i] != currentQueue[i] { ... } }`,
a panic when either queue is shorter than `count`. -/
def compareQueuePrefix (parentQueue currentQueue : List Address) (count : Nat) :
    Except DposError Unit :=
  (List.range count).foldlM
    (fun _ i =>
      match parentQueue[i]?, currentQueue[i]? with
      | some parentSigner, some signer =>
          if parentSigner ≠ signer then throw .invalidSignerQueue else pure ()
      | _, _ => throw .panicIndexOutOfRange)
    ()

theorem compareQueuePrefix_ok {parentQueue currentQueue : List Address} {count : Nat}
    (passed : compareQueuePrefix parentQueue currentQueue count = .ok ()) :
    count ≤ currentQueue.length ∧ parentQueue.take count = currentQueue.take count := by
  have each : ∀ i < count, ∃ signer, parentQueue[i]? = some signer ∧ currentQueue[i]? = some signer := by
    intro i lt
    have step := (GoLoop.foldlM_unit_eq_ok_iff _ _).mp passed i (List.mem_range.mpr lt)
    split at step
    · rename_i parentSigner signer parentFound found
      split_ifs at step with differ
      exact ⟨signer, by rw [parentFound, not_not.mp differ], found⟩
    · cases step
  constructor
  · cases count with
    | zero => exact Nat.zero_le _
    | succ n =>
        obtain ⟨signer, -, found⟩ := each n (Nat.lt_succ_self n)
        have inRange := (List.getElem?_eq_some_iff.mp found).1
        omega
  · apply List.ext_getElem?
    intro i
    rw [List.getElem?_take, List.getElem?_take]
    split_ifs with lt
    · obtain ⟨signer, parentFound, found⟩ := each i lt
      rw [parentFound, found]
    · rfl

section Verify
variable (sortTally : GoSort TallyItem TallySlice.less)
  (sortSigner : GoSort SignerItem SignerSlice.less)

/-- The queue check of `verifySeal`: against the elected queue at a loop
boundary, against the parent's queue elsewhere, where a sealer may also not
follow itself within one period. -/
def checkSignerQueue (config : DPoSConfig) (chainPeriod : Nat) (snap : Snapshot)
    (parent : Header) (signer : Address) (header : Header)
    (parentHeaderExtra currentHeaderExtra : HeaderExtra) : Except DposError Unit :=
  if header.number % config.maxSignerCount = 0 then
    snap.verifySignerQueue sortTally sortSigner currentHeaderExtra.signerQueue
  else do
    compareQueuePrefix parentHeaderExtra.signerQueue currentHeaderExtra.signerQueue
      config.maxSignerCount
    if signer = parent.coinbase ∧ subU64 header.time parent.time < chainPeriod then
      throw .invalidNeighborSigner

/-- The punishment check of `verifySeal`: the header's `SignerMissing` is the
one recomputed from the parent (and, on a loop's first block, the grandparent). -/
def checkSignerMissing (config : DPoSConfig) (parent : Header) (grandParent : Option Header)
    (header : Header) (parentHeaderExtra currentHeaderExtra : HeaderExtra) :
    Except DposError Unit := do
  let grandParentHeaderExtra ← if header.number % config.maxSignerCount = 1 then
      match grandParent with
      | none => throw .lastLoopHeaderFail
      | some grandParent =>
          match grandParent.extra with
          | some extra => pure extra
          | none => throw .decodeFailed
    else pure HeaderExtra.empty
  let parentSignerMissing ← getSignerMissingTrantor parent.coinbase header.coinbase
    parentHeaderExtra grandParentHeaderExtra
  if parentSignerMissing.length ≠ currentHeaderExtra.signerMissing.length then
    throw .punishedMissing
  if (currentHeaderExtra.signerMissing.zip parentSignerMissing).any
      (fun pair => pair.1 != pair.2) then
    throw .punishedMissing

/-- The checks `verifySeal` makes on a header past the first loop. -/
def verifyLoopSeal (config : DPoSConfig) (chainPeriod : Nat) (snap : Snapshot)
    (parent : Header) (grandParent : Option Header) (signer : Address) (header : Header) :
    Except DposError Unit := do
  let parentHeaderExtra ← match parent.extra with
    | some extra => pure extra
    | none => throw .decodeFailed
  let currentHeaderExtra ← match header.extra with
    | some extra => pure extra
    | none => throw .decodeFailed
  checkSignerQueue sortTally sortSigner config chainPeriod snap parent signer header
    parentHeaderExtra currentHeaderExtra
  checkSignerMissing config parent grandParent header parentHeaderExtra currentHeaderExtra

/-- `verifySeal` for `header` on the snapshot `snap` of its parent, with the
parent header, the grandparent header if the chain has it, the engine's config
and the chain's block period. -/
def verifySeal (config : DPoSConfig) (chainPeriod : Nat) (snap : Snapshot) (parent : Header)
    (grandParent : Option Header) (header : Header) : Except DposError Unit := do
  if header.number = 0 then throw .unknownBlock
  let signer ← match header.sealer with
    | some signer => pure signer
    | none => throw .ecrecoverFailed
  if header.number > config.maxSignerCount then
    verifyLoopSeal sortTally sortSigner config chainPeriod snap parent grandParent signer header
  let inturn ← snap.inturn signer header.time
  if !inturn then throw .unauthorized

/-! ## What an accepted header's queue satisfies -/

theorem verifySeal_loop {config : DPoSConfig} {chainPeriod : Nat} {snap : Snapshot}
    {parent : Header} {grandParent : Option Header} {header : Header}
    (accepted : verifySeal sortTally sortSigner config chainPeriod snap parent grandParent header =
      .ok ())
    (late : header.number > config.maxSignerCount) :
    ∃ signer, header.sealer = some signer ∧
      verifyLoopSeal sortTally sortSigner config chainPeriod snap parent grandParent signer header =
        .ok () := by
  have numbered : header.number ≠ 0 := by omega
  simp only [verifySeal, numbered, if_false, late, if_true] at accepted
  cases sealed : header.sealer with
  | none =>
      simp only [sealed] at accepted
      cases accepted
  | some signer =>
      simp only [sealed, pure_bind] at accepted
      obtain ⟨u, loopChecked, -⟩ := GoLoop.bind_eq_ok.mp accepted
      cases u
      exact ⟨signer, rfl, loopChecked⟩

theorem verifyLoopSeal_queue {config : DPoSConfig} {chainPeriod : Nat} {snap : Snapshot}
    {parent : Header} {grandParent : Option Header} {signer : Address} {header : Header}
    (checked : verifyLoopSeal sortTally sortSigner config chainPeriod snap parent grandParent signer
      header = .ok ()) :
    ∃ parentHeaderExtra currentHeaderExtra, parent.extra = some parentHeaderExtra ∧
      header.extra = some currentHeaderExtra ∧
      checkSignerQueue sortTally sortSigner config chainPeriod snap parent signer header
        parentHeaderExtra currentHeaderExtra = .ok () := by
  unfold verifyLoopSeal at checked
  cases parentDecoded : parent.extra with
  | none =>
      simp only [parentDecoded] at checked
      cases checked
  | some parentHeaderExtra =>
      cases decoded : header.extra with
      | none =>
          simp only [parentDecoded, decoded, pure_bind] at checked
          cases checked
      | some currentHeaderExtra =>
          simp only [parentDecoded, decoded, pure_bind] at checked
          obtain ⟨u, queueChecked, -⟩ := GoLoop.bind_eq_ok.mp checked
          cases u
          exact ⟨parentHeaderExtra, currentHeaderExtra, rfl, rfl, queueChecked⟩

/-- At a loop boundary an accepted header announces the elected queue. -/
theorem verifySeal_boundary_queue {config : DPoSConfig} {chainPeriod : Nat} {snap : Snapshot}
    {parent : Header} {grandParent : Option Header} {header : Header}
    (accepted : verifySeal sortTally sortSigner config chainPeriod snap parent grandParent header =
      .ok ())
    (late : header.number > config.maxSignerCount) (boundary : header.number % config.maxSignerCount = 0)
    {currentHeaderExtra : HeaderExtra} (decoded : header.extra = some currentHeaderExtra) :
    snap.createSignerQueue sortTally sortSigner = .ok currentHeaderExtra.signerQueue := by
  obtain ⟨signer, -, loopChecked⟩ := verifySeal_loop sortTally sortSigner accepted late
  obtain ⟨_, currentHeaderExtra', -, decoded', queueChecked⟩ :=
    verifyLoopSeal_queue sortTally sortSigner loopChecked
  rw [decoded, Option.some.injEq] at decoded'
  subst decoded'
  unfold checkSignerQueue at queueChecked
  rw [if_pos boundary] at queueChecked
  exact (Snapshot.verifySignerQueue_ok_iff sortTally sortSigner snap _).mp queueChecked

/-- Elsewhere an accepted header's queue starts with the parent's first
`MaxSignerCount` entries; its length is bounded only from below. -/
theorem verifySeal_queue_prefix {config : DPoSConfig} {chainPeriod : Nat} {snap : Snapshot}
    {parent : Header} {grandParent : Option Header} {header : Header}
    (accepted : verifySeal sortTally sortSigner config chainPeriod snap parent grandParent header =
      .ok ())
    (late : header.number > config.maxSignerCount) (inside : header.number % config.maxSignerCount ≠ 0)
    {parentHeaderExtra currentHeaderExtra : HeaderExtra}
    (parentDecoded : parent.extra = some parentHeaderExtra)
    (decoded : header.extra = some currentHeaderExtra) :
    config.maxSignerCount ≤ currentHeaderExtra.signerQueue.length ∧
      parentHeaderExtra.signerQueue.take config.maxSignerCount =
        currentHeaderExtra.signerQueue.take config.maxSignerCount := by
  obtain ⟨signer, -, loopChecked⟩ := verifySeal_loop sortTally sortSigner accepted late
  obtain ⟨parentHeaderExtra', currentHeaderExtra', parentDecoded', decoded', queueChecked⟩ :=
    verifyLoopSeal_queue sortTally sortSigner loopChecked
  rw [parentDecoded, Option.some.injEq] at parentDecoded'
  rw [decoded, Option.some.injEq] at decoded'
  subst parentDecoded' decoded'
  unfold checkSignerQueue at queueChecked
  rw [if_neg inside] at queueChecked
  obtain ⟨u, prefixChecked, -⟩ := GoLoop.bind_eq_ok.mp queueChecked
  cases u
  exact compareQueuePrefix_ok prefixChecked
end Verify

/-! ## A header that lengthens the queue -/

/-- Two self-vote signers `1` and `2` taking turns every period. -/
def queueConfig : DPoSConfig where
  period := 3
  epoch := 201600
  maxSignerCount := 2
  minVoterBalance := 0
  genesisTimestamp := 0
  selfVoteSigners := [1#160, 2#160]
  voterReward := false
  maxSignerCount_pos := by decide
def queueGenesis : Snapshot :=
  newSnapshot queueConfig 0#256 [⟨1#160, 1#160, 5⟩, ⟨2#160, 2#160, 5⟩] 10 1000
/-- Block `number`, sealed by `sealer` in its turn, announcing `signerQueue`. -/
def queueHeader (number : Nat) (sealer : Address) (signerQueue : List Address) : Header where
  number := number
  time := 3 * (number - 1)
  coinbase := sealer
  parentHash := BitVec.ofNat 256 (9 + number)
  hash := BitVec.ofNat 256 (10 + number)
  sealer := some sealer
  extra := some { HeaderExtra.empty with signerQueue := signerQueue }
/-- After blocks 1 and 2, block 3 announces the parent's queue followed by a third
address.  `verifySeal` accepts it, `apply` installs the three addresses as
`Signers`, and address `3`, which no election chose, is in turn at time 15. -/
theorem verifySeal_accepts_extended_queue (sortTally : GoSort TallyItem TallySlice.less)
    (sortSigner : GoSort SignerItem SignerSlice.less) :
    ∃ parentSnap, Reachable sortTally queueGenesis
        [queueHeader 1 1#160 [1#160, 2#160], queueHeader 2 2#160 [1#160, 2#160]] parentSnap ∧
      verifySeal sortTally sortSigner queueConfig 3 parentSnap (queueHeader 2 2#160 [1#160, 2#160])
        (some (queueHeader 1 1#160 [1#160, 2#160])) (queueHeader 3 1#160 [1#160, 2#160, 3#160]) =
        .ok () ∧
      ∃ s, parentSnap.apply sortTally [queueHeader 3 1#160 [1#160, 2#160, 3#160]] = .ok s ∧
        s.signers = [1#160, 2#160, 3#160] ∧ s.inturn 3#160 15 = .ok true :=
  ⟨_, Reachable.apply _ Reachable.start rfl, rfl, _, rfl, rfl, rfl⟩
end SimpleChain.Dpos
