import Mathlib
import SimpleChain.Lib.GoSlice
import SimpleChain.Cross.IndexDb

/-! # The unconfirmed-log journal (`cross/trigger/simpletrigger/subscriber`)

`rotate` writes the logs of the ring of unconfirmed blocks, block after block,
and `load` reads them back and regroups them: a log whose block number or hash
differs from the previous one (0 standing for "none yet") closes the block so
far, which goes to `add`.  The grouping is right: on a journal written from
blocks that are told apart this way, `add` is called with each block's index,
hash and logs, in order (`load_calls`).

The batch is a Go slice.  `add` keeps the slice it is given, and `load` goes on
with `batch = batch[:0]`: the same backing array, whose first cell the next
`append` overwrites.  The logs a retained block shows are those of the blocks
loaded after it. -/
set_option autoImplicit false

namespace SimpleChain.Cross

open GoSlice

/-- `types.Log` as the journal handles it: `load` reads the block number and hash, and
`payload` stands for the fields it carries unread. -/
structure Log where
  blockNumber : Nat
  blockHash : Hash
  payload : List UInt8
  deriving DecidableEq, Inhabited

structure UnconfirmedBlockLog where
  index : Nat
  hash : Hash
  logs : Slice

/-- `SimpleSubscriber.add`: the block goes to the end of the ring and keeps the slice it was
given.  The heap is the memory the call sees. -/
def SimpleSubscriber.add (blocks : List UnconfirmedBlockLog) (_ : Heap Log) (index : Nat)
    (hash : Hash) (blockLogs : Slice) : List UnconfirmedBlockLog :=
  blocks ++ [⟨index, hash, blockLogs⟩]

/-- `rotate`: the new journal holds the ring's logs from its head on. -/
def rotate (heap : Heap Log) (blocks : List UnconfirmedBlockLog) : List Log :=
  blocks.flatMap fun b => b.logs.read heap

def newBlock (lastIndex : Nat) (lastHash : Hash) (lg : Log) : Bool :=
  (lastIndex > 0 && lastIndex != lg.blockNumber) || (lastHash != 0 && lastHash != lg.blockHash)

structure LoadState (σ : Type) where
  lastIndex : Nat
  lastHash : Hash
  batch : Slice
  heap : Heap Log
  sub : σ

section Load
variable {σ : Type} (grow : Nat → Nat → Nat) (add : σ → Heap Log → Nat → Hash → Slice → σ)

/-- One decoded log of `load`'s loop. -/
def loadStep (st : LoadState σ) (lg : Log) : LoadState σ :=
  let st := if newBlock st.lastIndex st.lastHash lg then
      { st with sub := add st.sub st.heap st.lastIndex st.lastHash st.batch, batch := st.batch.truncate }
    else st
  let (heap, batch) := append grow st.heap st.batch lg
  { st with lastIndex := lg.blockNumber, lastHash := lg.blockHash, batch := batch, heap := heap }

/-- The variables of `load` before its loop: no block yet and a nil batch. -/
def LoadState.init (heap : Heap Log) (sub : σ) : LoadState σ :=
  ⟨0, 0, .nil, heap, sub⟩

/-- `load`: the journal is `none` when the file does not exist, else the logs its stream decodes
and the decoding error that ended it, `none` at EOF, which `load` returns. -/
def load (sub : σ) (heap : Heap Log) (journal : Option (List Log × Option String)) :
    σ × Heap Log × Option String :=
  match journal with
  | none => (sub, heap, none)
  | some (logs, failure) =>
    let st := logs.foldl (loadStep grow add) (.init heap sub)
    if st.batch.len > 0 then (add st.sub st.heap st.lastIndex st.lastHash st.batch, st.heap, failure)
    else (st.sub, st.heap, failure)

/-! ## One step of the loop -/

theorem newBlock_zero (lg : Log) : newBlock 0 0 lg = false := by
  simp [newBlock]

theorem newBlock_self (lg : Log) : newBlock lg.blockNumber lg.blockHash lg = false := by
  simp [newBlock]

/-- A step closes the batch on a new block and then appends the log. -/
theorem loadStep_spec {st : LoadState σ} (v : st.batch.Valid st.heap) (lg : Log) :
    let st' := loadStep grow add st lg
    st'.sub = (if newBlock st.lastIndex st.lastHash lg then
        add st.sub st.heap st.lastIndex st.lastHash st.batch else st.sub) ∧
      st'.batch.read st'.heap =
        (if newBlock st.lastIndex st.lastHash lg then [] else st.batch.read st.heap) ++ [lg] ∧
      st'.batch.Valid st'.heap ∧ st'.lastIndex = lg.blockNumber ∧ st'.lastHash = lg.blockHash := by
  unfold loadStep
  split_ifs with fresh
  · obtain ⟨read, valid⟩ := append_spec grow v.truncate lg
    rw [read_truncate] at read
    exact ⟨rfl, read, valid, rfl, rfl⟩
  · obtain ⟨read, valid⟩ := append_spec grow v lg
    exact ⟨rfl, read, valid, rfl, rfl⟩

/-- On a new block the log goes into the array of the closed batch, resliced to `[:0]`. -/
theorem loadStep_heap_of_new {st : LoadState σ} {lg : Log}
    (fresh : newBlock st.lastIndex st.lastHash lg = true) :
    (loadStep grow add st lg).heap = (append grow st.heap st.batch.truncate lg).1 := by
  simp only [loadStep, fresh, if_true]

/-- The logs of one block, after a first log of that block, only extend the batch. -/
theorem foldl_loadStep_same {i : Nat} {hs : Hash} (ls : List Log)
    (carried : ∀ lg ∈ ls, lg.blockNumber = i ∧ lg.blockHash = hs) {st : LoadState σ}
    (v : st.batch.Valid st.heap) (last : st.lastIndex = i ∧ st.lastHash = hs) :
    let st' := ls.foldl (loadStep grow add) st
    st'.sub = st.sub ∧ st'.batch.read st'.heap = st.batch.read st.heap ++ ls ∧
      st'.batch.Valid st'.heap ∧ st'.lastIndex = i ∧ st'.lastHash = hs := by
  induction ls generalizing st with
  | nil => exact ⟨rfl, by simp, v, last⟩
  | cons lg ls ih =>
    obtain ⟨number, hash⟩ := carried lg List.mem_cons_self
    have same : newBlock st.lastIndex st.lastHash lg = false := by
      rw [last.1, last.2, ← number, ← hash, newBlock_self]
    obtain ⟨sub, read, valid, index, hash'⟩ := loadStep_spec grow add v lg
    rw [same, if_neg Bool.false_ne_true] at sub read
    obtain ⟨sub', read', valid', rest⟩ :=
      ih (fun lg' mem => carried lg' (List.mem_cons_of_mem lg mem)) valid
        ⟨index.trans number, hash'.trans hash⟩
    refine ⟨sub'.trans sub, ?_, valid', rest⟩
    rw [List.foldl_cons, read', read, List.append_assoc, List.singleton_append]

end Load

/-! ## The blocks `add` is called with -/

/-- A block as `rotate` writes it: its index, hash and logs, each log carrying the index and the
hash, and at least one log. -/
def JournalBlock (b : Nat × Hash × List Log) : Prop :=
  b.2.2 ≠ [] ∧ ∀ lg ∈ b.2.2, lg.blockNumber = b.1 ∧ lg.blockHash = b.2.1

/-- Two consecutive blocks that `load`'s test tells apart. -/
def Separated (b b' : Nat × Hash × List Log) : Prop :=
  (b.1 > 0 ∧ b.1 ≠ b'.1) ∨ (b.2.1 ≠ 0 ∧ b.2.1 ≠ b'.2.1)

/-- The callback that records each call with the logs its slice shows when it is made. -/
def recordAdd (calls : List (Nat × Hash × List Log)) (heap : Heap Log) (index : Nat) (hash : Hash)
    (logs : Slice) : List (Nat × Hash × List Log) :=
  calls ++ [(index, hash, logs.read heap)]

theorem newBlock_of_separated {b b' : Nat × Hash × List Log} (apart : Separated b b') {lg : Log}
    (number : lg.blockNumber = b'.1) (hash : lg.blockHash = b'.2.1) : newBlock b.1 b.2.1 lg = true := by
  simp only [newBlock, number, hash, Bool.or_eq_true, Bool.and_eq_true, bne_iff_ne, ne_eq,
    decide_eq_true_eq]
  rcases apart with ⟨pos, ne⟩ | ⟨nz, ne⟩
  · exact .inl ⟨pos, ne⟩
  · exact .inr ⟨nz, ne⟩

/-- The state `load` is in while block `cur` is the batch and `done` has been added. -/
def Loading (done : List (Nat × Hash × List Log)) (cur : Nat × Hash × List Log)
    (st : LoadState (List (Nat × Hash × List Log))) : Prop :=
  st.sub = done ∧ st.batch.read st.heap = cur.2.2 ∧ st.batch.Valid st.heap ∧
    st.lastIndex = cur.1 ∧ st.lastHash = cur.2.1

variable (grow : Nat → Nat → Nat)

/-- The first log of a block told apart from the current one closes it, and the block's logs
make the new batch. -/
theorem loading_next {done : List (Nat × Hash × List Log)} {cur b : Nat × Hash × List Log}
    {st : LoadState (List (Nat × Hash × List Log))} (inv : Loading done cur st)
    (block : JournalBlock b) (apart : Separated cur b) :
    Loading (done ++ [cur]) b (b.2.2.foldl (loadStep grow recordAdd) st) := by
  obtain ⟨sub, read, valid, index, hash⟩ := inv
  obtain ⟨lg, ls, logs⟩ := List.exists_cons_of_ne_nil block.1
  obtain ⟨number, hash'⟩ := block.2 lg (by rw [logs]; exact List.mem_cons_self)
  have fresh : newBlock st.lastIndex st.lastHash lg = true := by
    rw [index, hash]
    exact newBlock_of_separated apart number hash'
  obtain ⟨sub₁, read₁, valid₁, index₁, hash₁⟩ := loadStep_spec grow recordAdd valid lg
  rw [fresh, if_pos rfl] at sub₁ read₁
  obtain ⟨sub₂, read₂, valid₂, index₂, hash₂⟩ :=
    foldl_loadStep_same grow recordAdd ls
      (fun lg' mem => block.2 lg' (by rw [logs]; exact List.mem_cons_of_mem lg mem)) valid₁
      ⟨index₁.trans number, hash₁.trans hash'⟩
  rw [logs, List.foldl_cons]
  refine ⟨?_, ?_, valid₂, index₂, hash₂⟩
  · rw [sub₂, sub₁, recordAdd, sub, read, index, hash]
  · rw [read₂, read₁, List.nil_append, List.singleton_append, logs]

/-- Run lemma: the blocks after `cur` are added in order and the last is the batch. -/
theorem loading_run (blocks : List (Nat × Hash × List Log)) (wf : ∀ b ∈ blocks, JournalBlock b) :
    ∀ {done : List (Nat × Hash × List Log)} {cur : Nat × Hash × List Log} {st},
      (cur :: blocks).IsChain Separated → Loading done cur st →
      ∃ last, Loading (done ++ (cur :: blocks).dropLast) last
        ((blocks.flatMap (·.2.2)).foldl (loadStep grow recordAdd) st) ∧
        (cur :: blocks).getLast? = some last := by
  induction blocks with
  | nil => intro done cur st _ inv; exact ⟨cur, by simpa using inv, rfl⟩
  | cons b rest ih =>
    intro done cur st chain inv
    obtain ⟨apart, chain⟩ := List.isChain_cons_cons.mp chain
    have next := loading_next grow inv (wf b List.mem_cons_self) apart
    obtain ⟨last, run, final⟩ :=
      ih (fun b' mem => wf b' (List.mem_cons_of_mem b mem)) chain next
    refine ⟨last, ?_, by simpa using final⟩
    rw [List.flatMap_cons, List.foldl_append]
    simpa [List.dropLast_cons_cons] using run

/-- `load` of the journal of blocks that carry their index and hash, at least one log each, and
are told apart from their successors, calls `add` with exactly these blocks, in order, each with
its logs as the slice shows them at the call. -/
theorem load_calls (blocks : List (Nat × Hash × List Log)) (wf : ∀ b ∈ blocks, JournalBlock b)
    (chain : blocks.IsChain Separated) (heap : Heap Log) (failure : Option String) :
    (load grow recordAdd [] heap (some (blocks.flatMap (·.2.2), failure))).1 = blocks := by
  cases blocks with
  | nil => rfl
  | cons b rest =>
    -- the first log opens the first block: `load`'s test reads 0 and the zero hash as "none yet"
    have block := wf b List.mem_cons_self
    obtain ⟨lg, ls, logs⟩ := List.exists_cons_of_ne_nil block.1
    obtain ⟨number, hash⟩ := block.2 lg (by rw [logs]; exact List.mem_cons_self)
    obtain ⟨sub₁, read₁, valid₁, index₁, hash₁⟩ :=
      @loadStep_spec _ grow recordAdd (.init heap []) (valid_nil heap) lg
    rw [show (LoadState.init heap []).lastIndex = 0 from rfl,
      show (LoadState.init heap []).lastHash = 0 from rfl, newBlock_zero, if_neg Bool.false_ne_true]
      at sub₁ read₁
    obtain ⟨sub₂, read₂, valid₂, index₂, hash₂⟩ :=
      foldl_loadStep_same grow recordAdd ls
        (fun lg' mem => block.2 lg' (by rw [logs]; exact List.mem_cons_of_mem lg mem)) valid₁
        ⟨index₁.trans number, hash₁.trans hash⟩
    have first : Loading [] b (b.2.2.foldl (loadStep grow recordAdd) (.init heap [])) := by
      rw [logs, List.foldl_cons]
      refine ⟨sub₂.trans sub₁, ?_, valid₂, index₂, hash₂⟩
      rw [read₂, read₁, logs]
      rfl
    obtain ⟨last, ⟨sub, read, valid, index, hash'⟩, final⟩ :=
      loading_run grow rest (fun b' mem => wf b' (List.mem_cons_of_mem b mem)) chain first
    -- the last block is still the batch, and the flush after the loop adds it
    have len : 0 < ((rest.flatMap (·.2.2)).foldl (loadStep grow recordAdd)
        (b.2.2.foldl (loadStep grow recordAdd) (.init heap []))).batch.len := by
      rw [← valid.length_read, read]
      exact List.length_pos_of_ne_nil (wf last (List.mem_of_getLast? final)).1
    simp only [load, List.flatMap_cons, List.foldl_append]
    rw [if_pos len]
    simp only [recordAdd, sub, read, index, hash', List.nil_append]
    exact List.dropLast_append_getLast? last final

/-! ## What the added blocks keep -/

/-- Two logs of two blocks: `add` keeps the first block's slice, `batch[:0]` reuses its array,
and the second log is written over the first.  After `load` both blocks show the second log. -/
theorem load_overwrites_retained_logs (heap : Heap Log) {l₁ l₂ : Log}
    (apart : newBlock l₁.blockNumber l₁.blockHash l₂ = true) :
    (load grow SimpleSubscriber.add [] heap (some ([l₁, l₂], none))).1.map
        (fun b => (b.index, b.hash,
          b.logs.read (load grow SimpleSubscriber.add [] heap (some ([l₁, l₂], none))).2.1)) =
      [(l₁.blockNumber, l₁.blockHash, [l₂]), (l₂.blockNumber, l₂.blockHash, [l₂])] := by
  obtain ⟨sub₁, read₁, valid₁, index₁, hash₁⟩ :=
    @loadStep_spec _ grow SimpleSubscriber.add (.init heap []) (valid_nil heap) l₁
  rw [show (LoadState.init heap []).lastIndex = 0 from rfl,
    show (LoadState.init heap []).lastHash = 0 from rfl, newBlock_zero, if_neg Bool.false_ne_true]
    at sub₁ read₁
  have fresh : newBlock (loadStep grow SimpleSubscriber.add (.init heap []) l₁).lastIndex
      (loadStep grow SimpleSubscriber.add (.init heap []) l₁).lastHash l₂ = true := by
    rw [index₁, hash₁]
    exact apart
  obtain ⟨sub₂, read₂, valid₂, index₂, hash₂⟩ := loadStep_spec grow SimpleSubscriber.add valid₁ l₂
  rw [fresh, if_pos rfl] at sub₂ read₂
  have len₁ : 0 < (loadStep grow SimpleSubscriber.add (.init heap []) l₁).batch.len := by
    rw [← valid₁.length_read, read₁]
    simp
  -- the first block's slice, read in the heap after the second append
  have kept : (loadStep grow SimpleSubscriber.add (.init heap []) l₁).batch.read
      (loadStep grow SimpleSubscriber.add (loadStep grow SimpleSubscriber.add (.init heap []) l₁) l₂).heap =
        [l₂] := by
    rw [loadStep_heap_of_new grow SimpleSubscriber.add fresh, read_append_truncate grow valid₁ len₁,
      read₁]
    rfl
  have len₂ : 0 < (loadStep grow SimpleSubscriber.add
      (loadStep grow SimpleSubscriber.add (.init heap []) l₁) l₂).batch.len := by
    rw [← valid₂.length_read, read₂]
    simp
  simp only [load, List.foldl_cons, List.foldl_nil, if_pos len₂, SimpleSubscriber.add, sub₂, sub₁,
    index₁, hash₁]
  rw [show (LoadState.init heap ([] : List UnconfirmedBlockLog)).sub = [] from rfl]
  simp only [List.nil_append, List.singleton_append, List.map_cons, List.map_nil, kept, read₂,
    index₂, hash₂]

def firstLog : Log := ⟨1, 1, [1]⟩

def secondLog : Log := ⟨2, 2, [2]⟩

/-- The ring of blocks 1 and 2 with a log each, rotated and loaded with Go's doubling growth:
block 1 comes back showing block 2's log. -/
theorem load_overwrites_retained_logs_of_rotated :
    rotate ⟨[[firstLog], [secondLog]]⟩ [⟨1, 1, ⟨0, 0, 1, 1⟩⟩, ⟨2, 2, ⟨1, 0, 1, 1⟩⟩] =
        [firstLog, secondLog] ∧
      newBlock firstLog.blockNumber firstLog.blockHash secondLog = true ∧
      (load (fun cap _ => 2 * cap) SimpleSubscriber.add [] ⟨[]⟩ (some ([firstLog, secondLog], none))).1.map
          (fun b => (b.index, b.hash, b.logs.read
            (load (fun cap _ => 2 * cap) SimpleSubscriber.add [] ⟨[]⟩
              (some ([firstLog, secondLog], none))).2.1)) =
        [(firstLog.blockNumber, firstLog.blockHash, [secondLog]),
          (secondLog.blockNumber, secondLog.blockHash, [secondLog])] :=
  ⟨rfl, by decide, load_overwrites_retained_logs (fun cap _ => 2 * cap) ⟨[]⟩ (by decide)⟩

end SimpleChain.Cross
