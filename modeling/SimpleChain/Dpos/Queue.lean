import Mathlib
import SimpleChain.Dpos.History
import SimpleChain.Dpos.Election
import SimpleChain.Lib.Cyclic

/-! # What an elected signer queue is made of

At a loop boundary, with the history window of `HistoryWindow`, every index
`createSignerQueue` takes into `HistoryHash` is inside it: the window holds at
least `MaxSignerCount` hashes there, and no selection pairs more items than that
with hashes (the tiers of the official selection use at most twenty).  The queue
has `MaxSignerCount` entries.  On a re-election loop they are eligible tally
keys, elsewhere current signers; and when the tally has `MaxSignerCount`
eligible entries, the sorted signer slice has exactly that many distinct
addresses, which the queue lists once each. -/
set_option autoImplicit false

namespace SimpleChain.Dpos

/-- `(Number+1) % (MaxSignerCount*LCRS) == 0`: the loop re-elects from the tally. -/
def Snapshot.Recalculating (s : Snapshot) : Prop :=
  modU64 (s.number + 1) (mulU64 s.config.maxSignerCount s.lcrs) = .ok 0

theorem subperm_nodup {α : Type} {l₁ l₂ : List α} (sub : l₁.Subperm l₂) (distinct : l₂.Nodup) :
    l₁.Nodup := by
  obtain ⟨l, perm, sublist⟩ := sub
  exact perm.nodup_iff.mp (sublist.nodup distinct)

/-! ## The history window at a boundary -/

section Window
variable {genesisHash : Hash} {chain : List Header} {s : Snapshot}

theorem HistoryWindow.maxSignerCount_le (window : HistoryWindow s.config genesisHash chain s)
    (boundary : (s.number + 1) % s.config.maxSignerCount = 0) :
    s.config.maxSignerCount ≤ s.historyHash.length := by
  have positive := s.config.maxSignerCount_pos
  have reached : s.config.maxSignerCount ≤ s.number + 1 :=
    Nat.le_of_dvd (by omega) (Nat.dvd_of_mod_eq_zero boundary)
  rw [window.window, Window.length_rtake, List.length_cons, List.length_map, ← window.number_eq]
  omega

theorem HistoryWindow.historyHashAt_zero (window : HistoryWindow s.config genesisHash chain s) :
    historyHashAt s.historyHash 0 = .ok s.hash := by
  have positive : 0 < 2 * s.config.maxSignerCount := by
    have := s.config.maxSignerCount_pos
    omega
  have last : s.historyHash.getLast? = some s.hash := by
    rw [window.window, Window.getLast?_rtake positive, window.hash_eq]
  rw [historyHashAt, ← List.head?_eq_getElem?, List.head?_reverse, last]

end Window

theorem historyHashAt_ok {historyHash : List Hash} {i : Nat} (lt : i < historyHash.length) :
    ∃ hash, historyHashAt historyHash i = .ok hash := by
  have lt' : i < historyHash.reverse.length := by rw [List.length_reverse]; exact lt
  exact ⟨historyHash.reverse[i], by rw [historyHashAt, List.getElem?_eq_getElem lt']⟩

/-- Items that fit the window are paired with hashes, one per address. -/
theorem signerItems_ok {historyHash : List Hash} {addrs : List Address}
    (fits : addrs.length ≤ historyHash.length) :
    ∃ items, signerItems historyHash addrs = .ok items ∧ items.map SignerItem.addr = addrs := by
  have each : ∀ pair ∈ addrs.zipIdx, ∃ item,
      (do let hash ← historyHashAt historyHash pair.2; pure ⟨pair.1, hash⟩ : Except DposError SignerItem) =
        .ok item ∧ item.addr = pair.1 := by
    intro pair mem
    have inside := (List.mem_zipIdx mem).2.1
    obtain ⟨hash, found⟩ := historyHashAt_ok (show pair.2 < historyHash.length by omega)
    exact ⟨⟨pair.1, hash⟩, by rw [found]; rfl, rfl⟩
  obtain ⟨items, ok, addrs'⟩ := GoLoop.mapM_ok_of_forall _ SignerItem.addr Prod.fst _ each
  exact ⟨items, ok, by rw [addrs', List.zipIdx_map_fst]⟩

/-! ## The official selection -/

section Official
variable (sortSigner : GoSort SignerItem SignerSlice.less)

/-- A tier after its sort and cut keeps some of the tier's addresses. -/
theorem tier_subperm (items : SignerSlice) (count : Nat) :
    (((sortSigner.run items).take count).map SignerItem.addr).Subperm (items.map SignerItem.addr) := by
  exact ((List.take_sublist count _).map _).subperm.trans ((sortSigner.perm items).map _).subperm

/-- The four tiers are consecutive sections of the tally slice. -/
theorem tiers_sublist (tallySlice : TallySlice) (last : Nat) :
    (tallySlice.take 10 ++ (tallySlice.drop 10).take 10 ++ (tallySlice.drop 20).take 10 ++
      (tallySlice.drop 30).take last).Sublist tallySlice := by
  have whole : tallySlice = tallySlice.take 10 ++ ((tallySlice.drop 10).take 10 ++
      ((tallySlice.drop 20).take 10 ++ tallySlice.drop 30)) := by
    rw [show tallySlice.drop 30 = (tallySlice.drop 20).drop 10 by rw [List.drop_drop],
      List.take_append_drop, show tallySlice.drop 20 = (tallySlice.drop 10).drop 10 by rw [List.drop_drop],
      List.take_append_drop, List.take_append_drop]
  conv => rhs; rw [whole]
  simp only [List.append_assoc]
  exact (((List.take_sublist _ _).append_left _).append_left _).append_left _

/-- With more than thirty candidates and twenty hashes, the official selection pairs 21 items:
ten of the first tier, six of the second, four of the third and one of the rest, all of them
entries of the tally slice taken once. -/
theorem officialSignerSlice_ok {historyHash : List Hash} {tallySlice : TallySlice}
    (many : defaultOfficialThirdLevelCount < tallySlice.length) (fits : 20 ≤ historyHash.length) :
    ∃ items, officialSignerSlice sortSigner historyHash tallySlice = .ok items ∧ items.length = 21 ∧
      (items.map SignerItem.addr).Subperm (tallySlice.map TallyItem.addr) := by
  unfold defaultOfficialThirdLevelCount at many
  obtain ⟨first, firstOk, firstAddrs⟩ :=
    @signerItems_ok historyHash ((tallySlice.take 10).map TallyItem.addr) (by simp; omega)
  obtain ⟨second, secondOk, secondAddrs⟩ :=
    @signerItems_ok historyHash (((tallySlice.drop 10).take 10).map TallyItem.addr) (by simp; omega)
  obtain ⟨third, thirdOk, thirdAddrs⟩ :=
    @signerItems_ok historyHash (((tallySlice.drop 20).take 10).map TallyItem.addr) (by simp; omega)
  obtain ⟨rest, restOk, restAddrs⟩ := @signerItems_ok historyHash
    (((tallySlice.drop 30).take (min 50 tallySlice.length - 30)).map TallyItem.addr) (by simp; omega)
  -- the lengths of the four tiers follow from the addresses they pair
  have firstLength : first.length = 10 := by
    rw [← List.length_map SignerItem.addr, firstAddrs]; simp; omega
  have secondLength : second.length = 10 := by
    rw [← List.length_map SignerItem.addr, secondAddrs]; simp; omega
  have thirdLength : third.length = 10 := by
    rw [← List.length_map SignerItem.addr, thirdAddrs]; simp; omega
  have restLength : 0 < rest.length := by
    rw [← List.length_map SignerItem.addr, restAddrs]; simp; omega
  refine ⟨first ++ (sortSigner.run second).take 6 ++ (sortSigner.run third).take 4 ++
    (sortSigner.run rest).take 1, ?_, ?_, ?_⟩
  · simp only [officialSignerSlice, defaultOfficialFirstLevelCount, defaultOfficialSecondLevelCount,
      defaultOfficialThirdLevelCount, defaultOfficialMaxValidCount, firstOk, secondOk, thirdOk,
      Nat.reduceSub, GoLoop.ok_bind]
    rw [restOk]
    rfl
  · simp only [List.length_append, List.length_take, GoSort.length_run, secondLength, thirdLength]
    omega
  · simp only [List.map_append]
    rw [firstAddrs]
    refine List.Subperm.trans ?_ ((tiers_sublist tallySlice (min 50 tallySlice.length - 30)).map
      TallyItem.addr).subperm
    simp only [List.map_append]
    have second' := tier_subperm sortSigner second 6
    have third' := tier_subperm sortSigner third 4
    have rest' := tier_subperm sortSigner rest 1
    rw [secondAddrs] at second'
    rw [thirdAddrs] at third'
    rw [restAddrs] at rest'
    exact List.Subperm.append (List.Subperm.append (List.Subperm.append (List.Subperm.refl _) second')
      third') rest'

end Official

/-! ## The tally slice -/

/-- `buildTallySlice` keeps the eligible tally keys, each once, in map order. -/
theorem Snapshot.map_addr_buildTallySlice (s : Snapshot) :
    s.buildTallySlice.map TallyItem.addr =
      (s.tally.entries.filter fun entry => !candidateNeedPD || s.isCandidate entry.1).map Sigma.fst := by
  unfold Snapshot.buildTallySlice
  induction s.tally.entries with
  | nil => rfl
  | cons entry rest ih =>
    by_cases eligible : (!candidateNeedPD || s.isCandidate entry.1) = true
    · simp [Snapshot.tallyItem, eligible, ih]
    · simp [Snapshot.tallyItem, eligible, ih]

theorem Snapshot.nodup_buildTallySlice (s : Snapshot) : (s.buildTallySlice.map TallyItem.addr).Nodup := by
  rw [Snapshot.map_addr_buildTallySlice]
  exact (List.filter_sublist.map Sigma.fst).nodup s.tally.keys_nodup

theorem Snapshot.eligible_of_mem_buildTallySlice {s : Snapshot} {a : Address}
    (mem : a ∈ s.buildTallySlice.map TallyItem.addr) :
    a ∈ s.tally.keys ∧ (!candidateNeedPD || s.isCandidate a) = true := by
  rw [Snapshot.map_addr_buildTallySlice] at mem
  obtain ⟨entry, member, rfl⟩ := List.mem_map.mp mem
  obtain ⟨inTally, eligible⟩ := List.mem_filter.mp member
  exact ⟨List.mem_map_of_mem inTally, eligible⟩

/-! ## The signer slice -/

section Queue
variable (sortTally : GoSort TallyItem TallySlice.less)
  (sortSigner : GoSort SignerItem SignerSlice.less)

theorem modU64_error {a b : Nat} {e : DposError} (failed : modU64 a b = .error e) :
    e = .panicDivideByZero := by
  unfold modU64 at failed
  split at failed
  · cases failed
    rfl
  · cases failed

/-- With a window of `MaxSignerCount` hashes and at most that many signers, the signer slice
is built without an index out of range: from the tally on a re-election loop, with
`MaxSignerCount` items when the tally has as many eligible entries, and from `Signers`
elsewhere. -/
theorem Snapshot.signerSlice_spec (s : Snapshot) (window : s.config.maxSignerCount ≤ s.historyHash.length)
    (fewSigners : s.signers.length ≤ s.config.maxSignerCount) :
    s.signerSlice sortTally sortSigner ≠ .error .panicIndexOutOfRange ∧
      ∀ items, s.signerSlice sortTally sortSigner = .ok items →
        (s.Recalculating →
          (items.map SignerItem.addr).Subperm (s.buildTallySlice.map TallyItem.addr) ∧
            (s.config.maxSignerCount ≤ s.buildTallySlice.length → items.length = s.config.maxSignerCount)) ∧
        (¬ s.Recalculating → items.map SignerItem.addr = s.signers) := by
  unfold Snapshot.signerSlice Snapshot.Recalculating
  cases hmod : modU64 (s.number + 1) (mulU64 s.config.maxSignerCount s.lcrs) with
  | error e =>
    rw [modU64_error hmod]
    exact ⟨nofun, fun items failed => nomatch failed⟩
  | ok r =>
    simp only [GoLoop.ok_bind, Except.ok.injEq]
    by_cases recalc : r = 0
    · subst recalc
      -- the tally slice, sorted: a permutation of the eligible entries
      have sorted := (sortTally.perm s.buildTallySlice).map TallyItem.addr
      simp only [if_true, not_true_eq_false, false_implies, and_true, true_implies]
      by_cases official : min s.config.maxSignerCount (sortTally.run s.buildTallySlice).length =
          defaultOfficialMaxSignerCount ∧
          (sortTally.run s.buildTallySlice).length > defaultOfficialThirdLevelCount
      · rw [if_pos official]
        have many := official.2
        have fits : 20 ≤ s.historyHash.length := by
          have := official.1
          unfold defaultOfficialMaxSignerCount at this
          omega
        obtain ⟨items, ok, len, sub⟩ := officialSignerSlice_ok sortSigner many fits
        rw [ok]
        refine ⟨nofun, fun items' same => ?_⟩
        cases same
        refine ⟨sub.trans sorted.subperm, fun enough => ?_⟩
        have := official.1
        rw [GoSort.length_run] at this
        unfold defaultOfficialMaxSignerCount at this
        omega
      · rw [if_neg official]
        obtain ⟨items, ok, addrs⟩ := @signerItems_ok s.historyHash
          (((sortTally.run s.buildTallySlice).take
            (min s.config.maxSignerCount (sortTally.run s.buildTallySlice).length)).map TallyItem.addr)
          (by simp; omega)
        rw [ok]
        refine ⟨nofun, fun items' same => ?_⟩
        cases same
        refine ⟨?_, fun enough => ?_⟩
        · rw [addrs, List.map_take]
          exact (List.take_sublist _ _).subperm.trans sorted.subperm
        · rw [← List.length_map SignerItem.addr, addrs]
          simp only [List.length_map, List.length_take, GoSort.length_run]
          omega
    · simp only [recalc, false_implies, not_false_eq_true, true_implies, true_and]
      obtain ⟨items, ok, addrs⟩ := @signerItems_ok s.historyHash s.signers (by omega)
      rw [ok]
      exact ⟨nofun, fun items' same => by cases same; exact addrs⟩

/-- At a loop boundary of a snapshot with its history window and at most `MaxSignerCount`
signers, `createSignerQueue` indexes nothing out of range, and a queue it returns has
`MaxSignerCount` entries: eligible tally keys on a re-election loop, current signers elsewhere,
and no address twice when a re-election has `MaxSignerCount` eligible entries to choose from. -/
theorem createSignerQueue_bounds {genesisHash : Hash} {chain : List Header} {s : Snapshot}
    (window : HistoryWindow s.config genesisHash chain s)
    (boundary : (s.number + 1) % s.config.maxSignerCount = 0)
    (fewSigners : s.signers.length ≤ s.config.maxSignerCount) :
    s.createSignerQueue sortTally sortSigner ≠ .error .panicIndexOutOfRange ∧
      ∀ queue, s.createSignerQueue sortTally sortSigner = .ok queue →
        queue.length = s.config.maxSignerCount ∧
        (s.Recalculating → ∀ a ∈ queue, a ∈ s.tally.keys ∧ (!candidateNeedPD || s.isCandidate a) = true) ∧
        (¬ s.Recalculating → ∀ a ∈ queue, a ∈ s.signers) ∧
        (s.Recalculating → s.config.maxSignerCount ≤ s.buildTallySlice.length → queue.Nodup) := by
  obtain ⟨safe, spec⟩ :=
    s.signerSlice_spec sortTally sortSigner (window.maxSignerCount_le boundary) fewSigners
  unfold Snapshot.createSignerQueue
  simp only [boundary, ne_eq, not_true_eq_false, if_false, window.historyHashAt_zero, GoLoop.ok_bind]
  refine ⟨fun failed => ?_, fun queue returned => ?_⟩
  · -- the slice is built without a panic, and what follows it cannot index out of range
    rcases GoLoop.bind_eq_error.mp failed with sliceFailed | ⟨items, -, matched⟩
    · exact safe sliceFailed
    · split at matched
      · simp [throw, throwThe, MonadExceptOf.throw] at matched
      · simp [pure, Except.pure] at matched
  · obtain ⟨items, hslice, matched⟩ := GoLoop.bind_eq_ok.mp returned
    obtain ⟨recalcSpec, otherSpec⟩ := spec items hslice
    cases hrun : sortSigner.run items with
    | nil =>
      rw [hrun] at matched
      exact absurd matched GoLoop.throw_ne_ok
    | cons first rest =>
      rw [hrun] at matched
      simp only [pure, Except.pure, Except.ok.injEq] at matched
      subst matched
      -- the queue reads the sorted signer slice round and round
      have reads : ((List.range s.config.maxSignerCount).map fun i =>
          ((first :: rest).getD (i % (rest.length + 1)) first).addr) =
          ((List.range s.config.maxSignerCount).map fun i =>
            (first :: rest).getD (i % (rest.length + 1)) first).map SignerItem.addr := by
        rw [List.map_map]
        rfl
      have members : ∀ a ∈ (List.range s.config.maxSignerCount).map (fun i =>
          ((first :: rest).getD (i % (rest.length + 1)) first).addr), a ∈ items.map SignerItem.addr := by
        intro a mem
        rw [reads] at mem
        obtain ⟨item, inQueue, rfl⟩ := List.mem_map.mp mem
        have sorted : item ∈ sortSigner.run items := hrun ▸ Cyclic.mem_of_mem_roundRobin inQueue
        exact List.mem_map_of_mem ((sortSigner.mem_run items item).mp sorted)
      refine ⟨by simp, fun recalc a mem => ?_, fun other a mem => ?_, fun recalc enough => ?_⟩
      · exact Snapshot.eligible_of_mem_buildTallySlice ((recalcSpec recalc).1.subset (members a mem))
      · rw [← otherSpec other]
        exact members a mem
      · have full : rest.length + 1 = s.config.maxSignerCount := by
          rw [← (recalcSpec recalc).2 enough, ← GoSort.length_run sortSigner items, hrun]
          rfl
        rw [reads, ← full, Cyclic.roundRobin_length, ← hrun]
        exact subperm_nodup (((sortSigner.perm items).map SignerItem.addr).subperm.trans
          (recalcSpec recalc).1) s.nodup_buildTallySlice

end Queue

/-- Two self-vote signers, loops of two blocks, every loop an election. -/
def pairConfig : DPoSConfig where
  period := 3
  epoch := 201600
  maxSignerCount := 2
  minVoterBalance := 0
  genesisTimestamp := 0
  selfVoteSigners := [1#160, 2#160]
  voterReward := false
  maxSignerCount_pos := Nat.two_pos

/-- Block 1, sealed by signer 1 in its turn. -/
def pairHeader : Header where
  number := 1
  time := 3
  coinbase := 1#160
  parentHash := 0#256
  hash := 11#256
  sealer := some 1#160
  extra := some { HeaderExtra.empty with signerQueue := [1#160, 2#160] }

/-- After block 1 of a chain whose genesis stakes three candidates, the loop ends and the
election picks the two with the most stake, each once. -/
theorem createSignerQueue_bounds_after_one_block :
    ∃ s, Reachable (insertionGoSort TallySlice.less TallySlice.less_strictWeak)
        (newSnapshot pairConfig 0#256 [⟨1#160, 1#160, 5⟩, ⟨2#160, 2#160, 7⟩, ⟨3#160, 3#160, 6⟩] 1 0)
        [pairHeader] s ∧
      HistoryWindow s.config 0#256 [pairHeader] s ∧
      (s.number + 1) % s.config.maxSignerCount = 0 ∧
      s.signers.length ≤ s.config.maxSignerCount ∧
      s.Recalculating ∧
      s.createSignerQueue (insertionGoSort TallySlice.less TallySlice.less_strictWeak)
          (insertionGoSort SignerSlice.less SignerSlice.less_strictWeak) = .ok [2#160, 3#160] ∧
      (s.createSignerQueue (insertionGoSort TallySlice.less TallySlice.less_strictWeak)
          (insertionGoSort SignerSlice.less SignerSlice.less_strictWeak) ≠ .error .panicIndexOutOfRange ∧
        ∀ queue, s.createSignerQueue (insertionGoSort TallySlice.less TallySlice.less_strictWeak)
          (insertionGoSort SignerSlice.less SignerSlice.less_strictWeak) = .ok queue →
          queue.length = s.config.maxSignerCount ∧
          (s.Recalculating → ∀ a ∈ queue, a ∈ s.tally.keys ∧ (!candidateNeedPD || s.isCandidate a) = true) ∧
          (¬ s.Recalculating → ∀ a ∈ queue, a ∈ s.signers) ∧
          (s.Recalculating → s.config.maxSignerCount ≤ s.buildTallySlice.length → queue.Nodup)) := by
  have reach : Reachable (insertionGoSort TallySlice.less TallySlice.less_strictWeak)
      (newSnapshot pairConfig 0#256 [⟨1#160, 1#160, 5⟩, ⟨2#160, 2#160, 7⟩, ⟨3#160, 3#160, 6⟩] 1 0)
      ([] ++ [pairHeader]) _ :=
    Reachable.apply _ Reachable.start rfl
  have window := reach.historyWindow
  exact ⟨_, reach, window, rfl, by decide, rfl, rfl,
    createSignerQueue_bounds (insertionGoSort TallySlice.less TallySlice.less_strictWeak)
      (insertionGoSort SignerSlice.less SignerSlice.less_strictWeak) window rfl (by decide)⟩

end SimpleChain.Dpos
