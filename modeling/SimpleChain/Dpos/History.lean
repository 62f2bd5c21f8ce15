import Mathlib
import SimpleChain.Dpos.Run
import SimpleChain.Lib.Window

/-! # The history-hash window

`HistoryHash` starts as the genesis hash, and each header trims it to its last
`2 * MaxSignerCount - 1` entries when full and appends its own hash.  Over any
run of `apply` calls from `newSnapshot` it is the window of the last
`2 * MaxSignerCount` block hashes, blocks `Number + 1 - 2 * MaxSignerCount` to
`Number`, ending in `Hash`: what `createSignerQueue` assumes when it checks
`Hash` against the last entry and indexes back from it. -/
set_option autoImplicit false

namespace SimpleChain.Dpos

theorem historyHashPush_rtake {window : Nat} (positive : 0 < window) (hashes : List Hash)
    (hash : Hash) :
    historyHashPush window (hashes.rtake window) hash = (hashes ++ [hash]).rtake window :=
  Window.trim_append_rtake positive hashes hash

/-- Headers applied one by one leave the window over all their hashes. -/
theorem foldl_pushHistory (config : DPoSConfig) (number : Nat) (hash : Hash) :
    ∀ (headers : List Header) (hashes : List Hash),
      headers.foldl pushHistory (config, number, hash, hashes.rtake (2 * config.maxSignerCount)) =
        (config, number, hash,
          (hashes ++ headers.map Header.hash).rtake (2 * config.maxSignerCount)) := by
  have positive : 0 < 2 * config.maxSignerCount := by
    have := config.maxSignerCount_pos
    omega
  intro headers
  induction headers with
  | nil =>
      intro hashes
      simp
  | cons header rest ih =>
      intro hashes
      rw [List.foldl_cons]
      show rest.foldl pushHistory (config, number, hash,
        historyHashPush (2 * config.maxSignerCount)
          (hashes.rtake (2 * config.maxSignerCount)) header.hash) = _
      rw [historyHashPush_rtake positive, ih]
      simp

/-- `apply`'s sanity check numbers a run from its first header on. -/
theorem consecutive_numbers :
    ∀ (headers : List Header) (start : Nat), consecutive headers = true →
      (∀ first ∈ headers.head?, first.number = start) →
      headers.map Header.number = List.range' start headers.length := by
  intro headers
  induction headers with
  | nil =>
      intro _ _ _
      rfl
  | cons first rest ih =>
      intro start chained numbered
      have firstNumber : first.number = start := numbered first rfl
      cases rest with
      | nil => simp [firstNumber]
      | cons second more =>
          simp only [consecutive, Bool.and_eq_true, beq_iff_eq] at chained
          have restNumbers := ih (start + 1) chained.2 (fun next found => by
            cases found
            omega)
          rw [List.map_cons, restNumbers, firstNumber]
          rfl

/-! ## The window invariant -/

/-- After replaying `chain` from a genesis block with hash `genesisHash` under
`config`: the chain is numbered from 1, the snapshot stands at its last block,
and the window holds the last `2 * MaxSignerCount` block hashes. -/
structure HistoryWindow (config : DPoSConfig) (genesisHash : Hash) (chain : List Header)
    (s : Snapshot) : Prop where
  config_eq : s.config = config
  numbers : chain.map Header.number = List.range' 1 chain.length
  number_eq : s.number = chain.length
  window : s.historyHash =
    (genesisHash :: chain.map Header.hash).rtake (2 * config.maxSignerCount)
  hash_eq : (genesisHash :: chain.map Header.hash).getLast? = some s.hash

section Apply
variable (sortTally : GoSort TallyItem TallySlice.less)

theorem newSnapshot_historyWindow (config : DPoSConfig) (hash : Hash) (votes : List Vote)
    (lcrs now : Nat) : HistoryWindow config hash [] (newSnapshot config hash votes lcrs now) := by
  have genesis := newSnapshot_position config hash votes lcrs now
  simp only [Snapshot.position, Prod.mk.injEq] at genesis
  obtain ⟨sameConfig, zero, sameHash, single⟩ := genesis
  have positive := config.maxSignerCount_pos
  refine ⟨sameConfig, rfl, zero, ?_, by rw [sameHash]; rfl⟩
  rw [single]
  show [hash] = [hash].drop (1 - 2 * config.maxSignerCount)
  rw [show 1 - 2 * config.maxSignerCount = 0 by omega, List.drop_zero]

/-- One `apply` call extends the chain by its headers and keeps the window. -/
theorem Snapshot.apply_historyWindow {config : DPoSConfig} {genesisHash : Hash}
    {chain headers : List Header} {s s' : Snapshot}
    (window : HistoryWindow config genesisHash chain s)
    (run : s.apply sortTally headers = .ok s') :
    HistoryWindow config genesisHash (chain ++ headers) s' := by
  rcases Snapshot.apply_ok sortTally run with
    ⟨rfl, rfl⟩ | ⟨first, rest, snap, rfl, chained, numbered, folded, rfl, -⟩
  · simpa using window
  · have tracked : snap.position = (first :: rest).foldl pushHistory s.copy.position :=
      GoLoop.foldlM_proj_foldl Snapshot.position pushHistory _
        (fun _ _ _ step => Snapshot.applyHeader_position sortTally step) _ _ _ folded
    have start : s.copy.position = (config, s.number, s.hash,
        (genesisHash :: chain.map Header.hash).rtake (2 * config.maxSignerCount)) := by
      rw [Snapshot.copy_position, ← window.window, ← window.config_eq]
      rfl
    rw [start, foldl_pushHistory] at tracked
    simp only [Snapshot.position, Prod.mk.injEq] at tracked
    obtain ⟨sameConfig, sameNumber, -, pushed⟩ := tracked
    have runNumbers := consecutive_numbers (first :: rest) (s.number + 1) chained
      (fun header found => by
        cases found
        exact numbered)
    refine ⟨sameConfig, ?_, ?_, ?_, ?_⟩
    · rw [List.map_append, window.numbers, runNumbers, window.number_eq, List.length_append,
        show chain.length + 1 = 1 + 1 * chain.length by omega, List.range'_append]
    · show snap.number + (first :: rest).length = (chain ++ first :: rest).length
      rw [sameNumber, window.number_eq, List.length_append]
    · show snap.historyHash = _
      rw [pushed]
      simp
    · show _ = some ((first :: rest).getLast (List.cons_ne_nil first rest)).hash
      rw [List.map_append, ← List.cons_append, List.getLast?_append, List.getLast?_map,
        List.getLast?_eq_some_getLast (List.cons_ne_nil first rest)]
      rfl

theorem HistoryWindow.reorder {config : DPoSConfig} {genesisHash : Hash} {chain : List Header}
    {s s' : Snapshot} (window : HistoryWindow config genesisHash chain s)
    (reordered : s.Reordered s') : HistoryWindow config genesisHash chain s' := by
  have same := reordered.position_eq
  simp only [Snapshot.position, Prod.mk.injEq] at same
  obtain ⟨sameConfig, sameNumber, sameHash, sameHistory⟩ := same
  exact ⟨sameConfig ▸ window.config_eq, window.numbers, sameNumber ▸ window.number_eq,
    sameHistory ▸ window.window, sameHash ▸ window.hash_eq⟩

end Apply

theorem Reachable.historyWindow {sortTally : GoSort TallyItem TallySlice.less}
    {config : DPoSConfig} {hash : Hash} {votes : List Vote} {lcrs now : Nat}
    {chain : List Header} {s : Snapshot}
    (reach : Reachable sortTally (newSnapshot config hash votes lcrs now) chain s) :
    HistoryWindow config hash chain s := by
  induction reach with
  | start => exact newSnapshot_historyWindow config hash votes lcrs now
  | apply headers _ run ih => exact Snapshot.apply_historyWindow sortTally ih run
  | reorder _ reordered ih => exact ih.reorder reordered

/-- Every snapshot reachable from the genesis snapshot holds in `HistoryHash`
the hashes of blocks `max 0 (Number + 1 - 2 * MaxSignerCount)` to `Number` in
ascending order, so `min (Number + 1) (2 * MaxSignerCount)` of them, the last
one `Hash`. -/
theorem historyHash_window_of_reachable {sortTally : GoSort TallyItem TallySlice.less}
    {config : DPoSConfig} {hash : Hash} {votes : List Vote} {lcrs now : Nat}
    {chain : List Header} {s : Snapshot}
    (reach : Reachable sortTally (newSnapshot config hash votes lcrs now) chain s) :
    s.config = config ∧ chain.map Header.number = List.range' 1 chain.length ∧
      s.number = chain.length ∧
      s.historyHash =
        (hash :: chain.map Header.hash).drop (s.number + 1 - 2 * config.maxSignerCount) ∧
      s.historyHash.length = min (s.number + 1) (2 * config.maxSignerCount) ∧
      s.historyHash.getLast? = some s.hash := by
  have window := reach.historyWindow
  have positive : 0 < 2 * config.maxSignerCount := by
    have := config.maxSignerCount_pos
    omega
  have blocks : (hash :: chain.map Header.hash).length = s.number + 1 := by
    simp [window.number_eq]
  refine ⟨window.config_eq, window.numbers, window.number_eq, ?_, ?_, ?_⟩
  · rw [window.window, List.rtake, blocks]
  · rw [window.window, Window.length_rtake, blocks, Nat.min_comm]
  · rw [window.window, Window.getLast?_rtake positive, window.hash_eq]

/-- One signer `1` and a window of two hashes. -/
def windowConfig : DPoSConfig where
  period := 3
  epoch := 201600
  maxSignerCount := 1
  minVoterBalance := 0
  genesisTimestamp := 0
  selfVoteSigners := [1#160]
  voterReward := false
  maxSignerCount_pos := Nat.one_pos

/-- Block `number`, sealed by `1`. -/
def windowHeader (number : Nat) : Header where
  number := number
  time := 3 * number
  coinbase := 1#160
  parentHash := BitVec.ofNat 256 (9 + number)
  hash := BitVec.ofNat 256 (10 + number)
  sealer := some 1#160
  extra := some { HeaderExtra.empty with signerQueue := [1#160] }

theorem historyHash_window_after_three_blocks :
    ∃ s, Reachable (insertionGoSort TallySlice.less TallySlice.less_strictWeak)
        (newSnapshot windowConfig 0#256 [⟨1#160, 1#160, 5⟩] 10 1000)
        [windowHeader 1, windowHeader 2, windowHeader 3] s ∧
      s.config = windowConfig ∧
      [windowHeader 1, windowHeader 2, windowHeader 3].map Header.number = List.range' 1 3 ∧
      s.number = 3 ∧
      s.historyHash = ([0#256] ++ [windowHeader 1, windowHeader 2, windowHeader 3].map
        Header.hash).drop (s.number + 1 - 2 * windowConfig.maxSignerCount) ∧
      s.historyHash.length = min (s.number + 1) (2 * windowConfig.maxSignerCount) ∧
      s.historyHash.getLast? = some s.hash := by
  have reach : Reachable (insertionGoSort TallySlice.less TallySlice.less_strictWeak)
      (newSnapshot windowConfig 0#256 [⟨1#160, 1#160, 5⟩] 10 1000)
      ([] ++ [windowHeader 1, windowHeader 2, windowHeader 3]) _ :=
    Reachable.apply _ Reachable.start rfl
  exact ⟨_, reach, historyHash_window_of_reachable reach⟩

end SimpleChain.Dpos
