import Mathlib
import SimpleChain.Rlp.Accept
import SimpleChain.Rlp.Decode

/-! # Decoding into `interface{}` is canonical (`decodeInterface`, `DecodeBytes`)

What `DecodeBytes` accepts into an `interface{}` is the encoding of the tree it
returns, so encoding the tree gives the input back and no two inputs decode to
one tree.  The decoder is read backwards over the stream lemmas of
`SimpleChain.Rlp.Accept`: a string is accepted only in its canonical encoding, a
list only when its elements fill the size its header gives (`ListEnd`), and the
element loop stops only at `EOL`, which `Kind` raises at the end of the list with
nothing read. -/
set_option autoImplicit false

namespace SimpleChain.Rlp

open StateExcept

namespace Stream

theorem kind_ok_cached {s s₁ : Stream} {k : Kind} {size : Nat} (rearmed : s.kindAhead = none)
    (kindRun : exec kind s = (.ok (k, size), s₁)) : exec kind s₁ = (.ok (k, size), s₁) := by
  obtain ⟨_, _, _, _, _, rfl⟩ := kind_ok rearmed kindRun
  exact exec_kind_cached rfl rfl

/-- Nothing read: what `Kind` leaves when it raises `EOL`. -/
theorem reads_nil {s t : Stream} (input : t.input = s.input) (stack : t.stack = s.stack)
    (remaining : t.remaining = s.remaining) (limited : t.limited = s.limited) (rearmed : t.kindAhead = none) :
    Reads s t [] :=
  ⟨by rw [input]; rfl, ⟨by simp [input], by simp [stack], by rw [remaining]; split <;> simp, limited, rearmed⟩⟩

/-- A list read to its end: `ListEnd` finds the payload filled the size its header gave. -/
theorem reads_listEnd {s u w : Stream} {rest payload : List UInt8} {size : Nat}
    (input : s.input = header 0xC0 0xF7 size ++ rest)
    (body : Reads { s.book (header 0xC0 0xF7 size).length with
                    input := rest, byteval := 0, kinderr := none, sizeAhead := 0,
                    stack := { pos := 0, size := size } :: advance (header 0xC0 0xF7 size).length s.stack }
      u payload)
    (closeRun : exec listEnd u = (.ok (), w)) :
    payload.length = size ∧ Reads s w (header 0xC0 0xF7 size ++ payload) := by
  have stack := body.consumed.stack
  have bodyInput : rest = payload ++ u.input := body.input
  simp only [advance.eq_2, Nat.zero_add] at stack
  unfold listEnd at closeRun
  simp only [exec_bind, exec_get, stack] at closeRun
  split at closeRun
  · cases closeRun
  rename_i filled
  simp only [ne_eq, Decidable.not_not] at filled
  simp only [exec_set, Prod.mk.injEq] at closeRun
  obtain ⟨-, rfl⟩ := closeRun
  have remaining : u.remaining = _ := body.consumed.remaining
  have limited : u.limited = s.limited := body.consumed.limited
  refine ⟨filled, ⟨by rw [input, bodyInput, List.append_assoc], ?_⟩⟩
  refine ⟨by simp [input, bodyInput], ?_, ?_, limited, rfl⟩
  · simp only [popList_eq_advance, advance_advance, List.length_append, filled]
  · simp only [remaining, book, List.length_append]
    exact remaining_book_book s _ _

end Stream

/-! ## Errors of the decoders -/

theorem wrapped_ok {α : Type} {typ : RType} {x : StreamM α} {s t : Stream} {a : α}
    (run : exec (wrapped typ x) s = (.ok a, t)) : exec x s = (.ok a, t) := by
  rw [wrapped, exec_tryCatch] at run
  rcases xRun : exec x s with ⟨e | a', s₁⟩ <;> simp only [xRun] at run
  · cases run
  · rw [run]

theorem wrapStreamError_eq_eol {e : RlpError} {typ : RType} (eol : wrapStreamError e typ = .eol) : e = .eol := by
  cases e <;> simp_all [wrapStreamError]

theorem wrapped_eol {α : Type} {typ : RType} {x : StreamM α} {s t : Stream}
    (run : exec (wrapped typ x) s = (.error .eol, t)) : exec x s = (.error .eol, t) := by
  rw [wrapped, exec_tryCatch] at run
  rcases xRun : exec x s with ⟨e | a, s₁⟩ <;> simp only [xRun] at run
  · simp only [exec_throw, Prod.mk.injEq, Except.error.injEq] at run
    obtain ⟨eol, rfl⟩ := run
    rw [wrapStreamError_eq_eol eol]
  · cases run

/-- The slice loop catches `EOL` and stops at its bound with another error. -/
theorem noEol_sliceElems (dec : StreamM Value) : ∀ n, Stream.NoEol (elemsUntilEOL dec (throw .loopDiverges) n)
  | 0 => Stream.noEol_throw (by simp)
  | n + 1 => by
      refine Stream.noEol_bind (Stream.noEol_attempt _) fun r => ?_
      split
      · exact Stream.noEol_pure _
      · rename_i err other
        exact Stream.noEol_throw fun eol => other eol
      · exact Stream.noEol_bind (noEol_sliceElems dec n) fun _ => Stream.noEol_pure _

theorem decodeListSlice_eol {typ : RType} {dec : StreamM Value} {s t : Stream}
    (run : exec (decodeListSlice typ dec) s = (.error .eol, t)) : exec Stream.kind s = (.error .eol, t) := by
  unfold decodeListSlice at run
  rw [exec_bind] at run
  rcases openRun : exec (wrapped typ Stream.list) s with ⟨e | size, s₁⟩ <;> rw [openRun] at run
  · simp only [Prod.mk.injEq, Except.error.injEq] at run
    obtain ⟨rfl, rfl⟩ := run
    exact Stream.list_eol (wrapped_eol openRun)
  · exfalso
    refine (?_ : Stream.NoEol _) s₁ t run
    split
    · exact Stream.noEol_bind Stream.noEol_listEnd fun _ => Stream.noEol_pure _
    · exact Stream.noEol_bind (noEol_sliceElems dec _) fun _ =>
        Stream.noEol_bind Stream.noEol_listEnd fun _ => Stream.noEol_pure _

/-! ## What the decoder of `interface{}` reads -/

/-- A decoder that reads exactly the encoding of the tree it returns. -/
def ReadsTree (dec : StreamM Value) : Prop :=
  ∀ s t v, s.kindAhead = none → exec dec s = (.ok v, t) →
    v.isTree ∧ v.treeItem.Fits ∧ Stream.Reads s t v.treeItem.encode

/-- A decoder that fails with `EOL` only at the end of a list, having read nothing. -/
def StopsAtEOL (dec : StreamM Value) : Prop :=
  ∀ s t, s.kindAhead = none → exec dec s = (.error .eol, t) → Stream.Reads s t []

/-- A list of trees read from its header to its end is read in its encoding. -/
theorem list_reads {s t : Stream} {vs : List Value} {size : Nat} (fits : size < 2 ^ 64)
    (trees : ∀ v ∈ vs, v.isTree) (each : Item.FitsAll (vs.map Value.treeItem))
    (filled : (encodeItems (vs.map Value.treeItem)).length = size)
    (read : Stream.Reads s t (header 0xC0 0xF7 size ++ encodeItems (vs.map Value.treeItem))) :
    (Value.list vs).isTree ∧ (Value.list vs).treeItem.Fits ∧ Stream.Reads s t (Value.list vs).treeItem.encode := by
  rw [Value.treeItem, treeItems_eq_map, encode_list, filled]
  exact ⟨isTree_list.mpr trees, ⟨filled ▸ fits, each⟩, read⟩

section Elements

variable {dec : StreamM Value} (reads : ReadsTree dec) (stops : StopsAtEOL dec)
include reads stops

/-- The slice loop reads its elements one after the other and stops at the end of the list. -/
theorem sliceElems_reads : ∀ n s t vs, s.kindAhead = none →
    exec (elemsUntilEOL dec (throw .loopDiverges) n) s = (.ok vs, t) →
      (∀ v ∈ vs, v.isTree) ∧ Item.FitsAll (vs.map Value.treeItem) ∧
        Stream.Reads s t (encodeItems (vs.map Value.treeItem))
  | 0, s, t, vs, _, run => by cases run
  | n + 1, s, t, vs, rearmed, run => by
      rw [elemsUntilEOL, exec_bind, exec_attempt] at run
      rcases elemRun : exec dec s with ⟨e | v, s₁⟩ <;> simp only [elemRun] at run
      · -- the element failed: `EOL` ends the list, anything else fails the loop
        split at run
        · rename_i eol
          cases eol
          obtain ⟨rfl, rfl⟩ := exec_pure_eq_ok run
          exact ⟨by simp, trivial, stops s s₁ rearmed elemRun⟩
        · cases run
        · rename_i _ impossible
          cases impossible
      · obtain ⟨tree, fits, read⟩ := reads s s₁ v rearmed elemRun
        obtain ⟨vs', s₂, restRun, run⟩ := exec_bind_eq_ok run
        obtain ⟨rfl, rfl⟩ := exec_pure_eq_ok run
        obtain ⟨trees, restFits, restRead⟩ :=
          sliceElems_reads n s₁ s₂ vs' read.consumed.rearmed restRun
        refine ⟨?_, ⟨fits, restFits⟩, read.trans restRead⟩
        intro x member
        rcases List.mem_cons.mp member with rfl | later
        · exact tree
        · exact trees x later

/-- A list of `interface{}` values: its header, then elements up to the size it gives. -/
theorem decodeListSlice_reads {typ : RType} {s t : Stream} {v : Value} (rearmed : s.kindAhead = none)
    (run : exec (decodeListSlice typ dec) s = (.ok v, t)) :
    v.isTree ∧ v.treeItem.Fits ∧ Stream.Reads s t v.treeItem.encode := by
  unfold decodeListSlice at run
  obtain ⟨size, _, openRun, run⟩ := exec_bind_eq_ok run
  obtain ⟨rest, fits, input, rfl⟩ := Stream.list_ok rearmed (wrapped_ok openRun)
  split at run
  · -- an empty list: `ListEnd` at once
    rename_i empty
    subst empty
    obtain ⟨_, _, closeRun, run⟩ := exec_bind_eq_ok run
    obtain ⟨rfl, rfl⟩ := exec_pure_eq_ok run
    obtain ⟨filled, read⟩ := Stream.reads_listEnd input (Stream.reads_nil rfl rfl rfl rfl rfl) closeRun
    exact list_reads fits (by simp) trivial filled read
  · obtain ⟨vs, _, elemsRun, run⟩ := exec_bind_eq_ok run
    obtain ⟨_, _, closeRun, run⟩ := exec_bind_eq_ok run
    obtain ⟨rfl, rfl⟩ := exec_pure_eq_ok run
    obtain ⟨trees, each, body⟩ := sliceElems_reads reads stops _ _ _ vs rfl elemsRun
    obtain ⟨filled, read⟩ := Stream.reads_listEnd input body closeRun
    exact list_reads fits trees each filled read

end Elements

theorem decodeListSlice_again {typ : RType} {dec : StreamM Value} {s s₁ : Stream} {k : Kind} {size : Nat}
    (rearmed : s.kindAhead = none) (kindRun : exec Stream.kind s = (.ok (k, size), s₁)) :
    exec (decodeListSlice typ dec) s₁ = exec (decodeListSlice typ dec) s := by
  have listAgain : exec Stream.list s₁ = exec Stream.list s := Stream.exec_kind_bind_again rearmed kindRun _
  simp only [decodeListSlice, wrapped, exec_bind, exec_tryCatch, listAgain]

theorem bytes_again {s s₁ : Stream} {k : Kind} {size : Nat} (rearmed : s.kindAhead = none)
    (kindRun : exec Stream.kind s = (.ok (k, size), s₁)) : exec Stream.bytes s₁ = exec Stream.bytes s :=
  Stream.exec_kind_bind_again rearmed kindRun _

/-- `decodeInterface` at every depth reads the encoding of the tree it returns,
and fails with `EOL` only at the end of a list. -/
theorem decodeInterface_reads : ∀ depth, ReadsTree (decodeInterface depth) ∧ StopsAtEOL (decodeInterface depth)
  | 0 => ⟨fun _ _ _ _ run => (by cases run), fun _ _ _ run => (by cases run)⟩
  | depth + 1 => by
      obtain ⟨reads, stops⟩ := decodeInterface_reads depth
      constructor
      · intro s t v rearmed run
        unfold decodeInterface at run
        obtain ⟨⟨k, size⟩, _, kindRun, run⟩ := exec_bind_eq_ok run
        dsimp only at run
        split at run
        · rw [decodeListSlice_again rearmed kindRun] at run
          exact decodeListSlice_reads reads stops rearmed run
        · obtain ⟨b, _, bytesRun, run⟩ := exec_bind_eq_ok run
          obtain ⟨rfl, rfl⟩ := exec_pure_eq_ok run
          rw [bytes_again rearmed kindRun] at bytesRun
          obtain ⟨fits, read⟩ := Stream.bytes_ok rearmed bytesRun
          exact ⟨rfl, fits, read⟩
      · intro s t rearmed run
        unfold decodeInterface at run
        rw [exec_bind] at run
        rcases kindRun : exec Stream.kind s with ⟨e | ⟨k, size⟩, s₁⟩ <;> rw [kindRun] at run
        · -- `Kind` raised it: nothing was read
          simp only [Prod.mk.injEq, Except.error.injEq] at run
          obtain ⟨rfl, rfl⟩ := run
          obtain ⟨-, rfl⟩ := Stream.kind_eol rearmed kindRun
          exact Stream.reads_nil rfl rfl rfl rfl rearmed
        · -- past a `Kind` that succeeded, the cached `Kind` cannot raise it
          exfalso
          have cached := Stream.kind_ok_cached rearmed kindRun
          dsimp only at run
          split at run
          · rw [decodeListSlice_eol run] at cached
            cases cached
          · rw [exec_bind] at run
            rcases bytesRun : exec Stream.bytes s₁ with ⟨e | b, s₂⟩ <;> rw [bytesRun] at run
            · simp only [Prod.mk.injEq, Except.error.injEq] at run
              obtain ⟨rfl, rfl⟩ := run
              rw [Stream.bytes_eol bytesRun] at cached
              cases cached
            · cases run

/-- What `DecodeBytes` accepts into an `interface{}` is the encoding of the tree it
returns, with every payload below 2^64. -/
theorem decodeBytes_iface_reads {b : List UInt8} {tree : Value} (accepted : decodeBytes .iface b = .ok tree) :
    tree.isTree ∧ tree.treeItem.Fits ∧ tree.treeItem.encode = b := by
  unfold decodeBytes at accepted
  rcases run : exec (makeDecoder .iface) (Stream.reset b) with ⟨e | v, t⟩ <;> simp only [run] at accepted
  · cases accepted
  split at accepted
  · rename_i drained
    cases accepted
    rw [makeDecoder] at run
    obtain ⟨_, _, getRun, run⟩ := exec_bind_eq_ok run
    simp only [exec_get, Prod.mk.injEq, Except.ok.injEq] at getRun
    obtain ⟨rfl, rfl⟩ := getRun
    obtain ⟨tree, fits, read⟩ := (decodeInterface_reads _).1 _ _ _ rfl run
    have input := read.input
    rw [List.isEmpty_iff.mp drained, List.append_nil] at input
    exact ⟨tree, fits, input.symm⟩
  · cases accepted

theorem decodeBytes_iface_canonical (b : List UInt8) (tree : Value) (accepted : decodeBytes .iface b = .ok tree) :
    encodeToBytes .iface tree = .ok b := by
  obtain ⟨isTree, fits, encoded⟩ := decodeBytes_iface_reads accepted
  rw [encodeToBytes_iface isTree fits, encoded]

theorem decodeBytes_iface_canonical_abc :
    decodeBytes .iface [0x83, 0x61, 0x62, 0x63] = .ok (.bytes [0x61, 0x62, 0x63]) ∧
      encodeToBytes .iface (.bytes [0x61, 0x62, 0x63]) = .ok [0x83, 0x61, 0x62, 0x63] :=
  ⟨rfl, decodeBytes_iface_canonical _ _ rfl⟩

/-- Two inputs `DecodeBytes` accepts as the same tree are the same bytes. -/
theorem decodeBytes_iface_injective {b b' : List UInt8} {tree : Value}
    (accepted : decodeBytes .iface b = .ok tree) (accepted' : decodeBytes .iface b' = .ok tree) : b = b' := by
  rw [← (decodeBytes_iface_reads accepted).2.2, (decodeBytes_iface_reads accepted').2.2]

end SimpleChain.Rlp
