import Mathlib
import SimpleChain.Rlp.Tail

/-! # Raft membership records (`peer.go`, `snapshot.go`)

An `Address` travels over raft and is kept in raft's snapshots.  `toBytes` writes the
legacy list of five fields when the hostname is an IP literal, with the parsed IP in
place of `Ip`, and the struct with its hostname and its `Rest` tail otherwise.
`BytesToAddress` tries the struct first; the struct decoder rejects a legacy list with
"too few elements", since the list ends where `Hostname` starts, and the legacy decoder
then reads it.  A snapshot goes the same way: legacy when every hostname is an IP
literal.  `net.ParseIP` and `IP.String` are the parameters `parseIP` and `ipString`, a Go
string is its bytes, and a nil slice is the empty one.

Every record comes back normalised (`bytesToAddress_toBytes`, `bytesToSnapshot_toBytes`)
as long as each value of its tail is one RLP value.  `Rest` is written as it is, though,
and a tail holding bytes that are not one value makes both decoders fail, so that the
node stops at `log.Fatalf`. -/
set_option autoImplicit false

namespace SimpleChain.Raft

open SimpleChain.Rlp StateExcept

structure Address where
  raftId : UInt16
  /-- `enode.EnodeID`, the 64-byte public key. -/
  nodeId : Vector UInt8 64
  ip : List UInt8
  p2pPort : UInt16
  raftPort : UInt16
  hostname : List UInt8
  /-- Ignore additional fields (for forward compatibility). -/
  rest : List (List UInt8)
  deriving DecidableEq

def Address.zero : Address := ⟨0, Vector.replicate 64 0, [], 0, 0, [], []⟩

/-- The fields of `Address` before its tail: `enr.TCP` and `enr.RaftPort` are `uint16`
and `net.IP` is a byte slice. -/
def addressFields : List RType :=
  [.uint .u16, .array 64 (.uint .u8), .slice (.uint .u8), .uint .u16, .uint .u16, .string]

def addressWithoutHostnameFields : List RType :=
  [.uint .u16, .array 64 (.uint .u8), .slice (.uint .u8), .uint .u16, .uint .u16]

def addressType : RType := .struct (addressFields ++ [.slice (.slice (.uint .u8))])

def Address.values (addr : Address) : List Value :=
  [.uint addr.raftId.toNat, .bytes addr.nodeId.toList, .bytes addr.ip, .uint addr.p2pPort.toNat,
    .uint addr.raftPort.toNat, .bytes addr.hostname]

def Address.valuesWithoutHostname (addr : Address) (ip : List UInt8) : List Value :=
  [.uint addr.raftId.toNat, .bytes addr.nodeId.toList, .bytes ip, .uint addr.p2pPort.toNat,
    .uint addr.raftPort.toNat]

def writeAddress (addr : Address) : EncM Unit :=
  writeStructWithTail addressFields addr.values addr.rest

def decodeAddress : StreamM Value :=
  decodeStructWithTail addressType addressFields (decodeTail decodeRawValue)

/-! ## Filling in a record from the values read

The decoders return only values of their types, so the last case of each of these is
never taken. -/

def bytesOf : Value → List UInt8
  | .bytes b => b
  | _ => []

def uint16Of : Value → UInt16
  | .uint n => UInt16.ofNat n
  | _ => 0

def arrayOf (n : Nat) (v : Value) : Vector UInt8 n :=
  if h : (bytesOf v).length = n then ⟨(bytesOf v).toArray, by simpa using h⟩ else Vector.replicate n 0

def Address.ofValue : Value → Address
  | .list [raftId, nodeId, ip, p2pPort, raftPort, hostname, .list rest] =>
      ⟨uint16Of raftId, arrayOf 64 nodeId, bytesOf ip, uint16Of p2pPort, uint16Of raftPort, bytesOf hostname,
        rest.map bytesOf⟩
  | _ => Address.zero

/-- The `Address` that `BytesToAddress` and `bytesToSnapshot` build from a legacy one. -/
def Address.ofValueWithoutHostname (ipString : List UInt8 → List UInt8) : Value → Address
  | .list [raftId, nodeId, ip, p2pPort, raftPort] =>
      ⟨uint16Of raftId, arrayOf 64 nodeId, [], uint16Of p2pPort, uint16Of raftPort, ipString (bytesOf ip), []⟩
  | _ => Address.zero

structure SnapshotWithHostnames where
  addresses : List Address
  removedRaftIds : List UInt16
  headBlockHash : Vector UInt8 32
  deriving DecidableEq

def snapshotType : RType := .struct [.slice addressType, .slice (.uint .u16), .array 32 (.uint .u8)]

def snapshotWithoutHostnamesFields : List RType :=
  [.slice (.struct addressWithoutHostnameFields), .slice (.uint .u16), .array 32 (.uint .u8)]

def idsValue (ids : List UInt16) : Value := .list (ids.map fun id => .uint id.toNat)

def hashValue (hash : Vector UInt8 32) : Value := .bytes hash.toList

def decodeSnapshot : StreamM Value :=
  makeStructDecoder snapshotType (decodeFieldsOf snapshotType
    [decodeListSlice (.slice addressType) decodeAddress, makeDecoder (.slice (.uint .u16)),
      makeDecoder (.array 32 (.uint .u8))])

/-- `EncodeRLP`: the `[]interface{}` of the three fields, each written by its type's writer. -/
def SnapshotWithHostnames.encodeRLP (snapshot : SnapshotWithHostnames) : EncM Unit := do
  let lh ← list
  let addrs ← list
  snapshot.addresses.forM writeAddress
  listEnd addrs
  writer (.slice (.uint .u16)) (idsValue snapshot.removedRaftIds)
  writer (.array 32 (.uint .u8)) (hashValue snapshot.headBlockHash)
  listEnd lh

def SnapshotWithHostnames.ofValue : Value → SnapshotWithHostnames
  | .list [.list addrs, .list ids, hash] => ⟨addrs.map Address.ofValue, ids.map uint16Of, arrayOf 32 hash⟩
  | _ => ⟨[], [], Vector.replicate 32 0⟩

def SnapshotWithHostnames.ofValueWithoutHostnames (ipString : List UInt8 → List UInt8) :
    Value → SnapshotWithHostnames
  | .list [.list olds, .list ids, hash] =>
      ⟨olds.map (Address.ofValueWithoutHostname ipString), ids.map uint16Of, arrayOf 32 hash⟩
  | _ => ⟨[], [], Vector.replicate 32 0⟩

section Codecs

variable (parseIP : List UInt8 → Option (List UInt8)) (ipString : List UInt8 → List UInt8)

def Address.toBytes (addr : Address) : Except RlpError (List UInt8) :=
  -- need to check if addr.Hostname is hostname/ip
  match parseIP addr.hostname with
  | none => encodeWith (writeAddress addr)
  -- the `[]interface{}` of the five values, written as the struct of their types is
  | some ip => encodeToBytes (.struct addressWithoutHostnameFields) (.list (addr.valuesWithoutHostname ip))

/-- `BytesToAddress`; an error is the one `log.Fatalf` stops the node with. -/
def bytesToAddress (input : List UInt8) : Except RlpError Address :=
  -- try the new format first
  match Stream.decode decodeAddress input with
  | .ok v => .ok (Address.ofValue v)
  | .error _ =>
      -- else try the old format
      match Stream.decode (makeDecoder (.struct addressWithoutHostnameFields)) input with
      | .ok v => .ok (Address.ofValueWithoutHostname ipString v)
      | .error err => .error err

/-- The loop of `toBytes` over the addresses: their legacy structs, or `none` at the first
hostname that is not an IP literal, where the loop breaks. -/
def addressesWithoutHostnames : List Address → Option (List Value)
  | [] => some []
  | addr :: addrs =>
      match parseIP addr.hostname with
      -- this is a hostname
      | none => none
      -- this is an ip
      | some ip => (addressesWithoutHostnames addrs).map (.list (addr.valuesWithoutHostname ip) :: ·)

def SnapshotWithHostnames.toBytes (snapshot : SnapshotWithHostnames) : Except RlpError (List UInt8) :=
  -- use old snapshot if all snapshot.Addresses are ips
  -- but use the new snapshot if any of it is a hostname
  match addressesWithoutHostnames parseIP snapshot.addresses with
  | some olds => encodeToBytes (.struct snapshotWithoutHostnamesFields)
      (.list [.list olds, idsValue snapshot.removedRaftIds, hashValue snapshot.headBlockHash])
  | none => encodeWith snapshot.encodeRLP

/-- `bytesToSnapshot`; an error is the one `raft.Fatalf` stops the node with. -/
def bytesToSnapshot (input : List UInt8) : Except RlpError SnapshotWithHostnames :=
  match Stream.decode decodeSnapshot input with
  | .ok v => .ok (SnapshotWithHostnames.ofValue v)
  | .error _ =>
      -- Build new snapshot with hostname from legacy Address struct
      match Stream.decode (makeDecoder (.struct snapshotWithoutHostnamesFields)) input with
      | .ok v => .ok (SnapshotWithHostnames.ofValueWithoutHostnames ipString v)
      | .error errOld => .error errOld

end Codecs

/-! ## What comes back -/

def Address.RawRest (addr : Address) : Prop := ∃ items : List Item, addr.rest = items.map Item.encode

def Address.structEncoding (addr : Address) : List UInt8 :=
  listBytes (encodeItems (RType.itemFields addressFields addr.values) ++ addr.rest.flatten)

def Address.itemWithoutHostname (addr : Address) (ip : List UInt8) : Item :=
  (RType.struct addressWithoutHostnameFields).item (.list (addr.valuesWithoutHostname ip))

def Address.item (addr : Address) (restItems : List Item) : Item :=
  .list (RType.itemFields addressFields addr.values ++ restItems)

def Address.value (addr : Address) : Value := .list (addr.values ++ [.list (addr.rest.map .bytes)])

def SnapshotWithHostnames.value (snapshot : SnapshotWithHostnames) : Value :=
  .list [.list (snapshot.addresses.map Address.value), idsValue snapshot.removedRaftIds,
    hashValue snapshot.headBlockHash]

def SnapshotWithHostnames.item (snapshot : SnapshotWithHostnames) (restItems : Address → List Item) : Item :=
  .list [.list (snapshot.addresses.map fun addr => addr.item (restItems addr)),
    (RType.slice (.uint .u16)).item (idsValue snapshot.removedRaftIds),
    (RType.array 32 (.uint .u8)).item (hashValue snapshot.headBlockHash)]

section Spec

variable (parseIP : List UInt8 → Option (List UInt8)) (ipString : List UInt8 → List UInt8)

def Address.encoding (addr : Address) : List UInt8 :=
  match parseIP addr.hostname with
  | some ip => (addr.itemWithoutHostname ip).encode
  | none => addr.structEncoding

def SnapshotWithHostnames.encoding (snapshot : SnapshotWithHostnames) : List UInt8 :=
  match addressesWithoutHostnames parseIP snapshot.addresses with
  | some olds => ((RType.struct snapshotWithoutHostnamesFields).item
      (.list [.list olds, idsValue snapshot.removedRaftIds, hashValue snapshot.headBlockHash])).encode
  | none => listBytes (listBytes (snapshot.addresses.flatMap Address.structEncoding) ++
      ((RType.slice (.uint .u16)).item (idsValue snapshot.removedRaftIds)).encode ++
      ((RType.array 32 (.uint .u8)).item (hashValue snapshot.headBlockHash)).encode)

/-- What a node reads back of `addr`: an IP-literal hostname comes back as the text of its
IP, with no `Ip` and no tail, as the legacy form keeps it; any other address as it was. -/
def Address.normalised (addr : Address) : Address :=
  match parseIP addr.hostname with
  | some ip => { addr with ip := [], hostname := ipString ip, rest := [] }
  | none => addr

def SnapshotWithHostnames.normalised (snapshot : SnapshotWithHostnames) : SnapshotWithHostnames :=
  if snapshot.addresses.all fun addr => (parseIP addr.hostname).isSome then
    { snapshot with addresses := snapshot.addresses.map (Address.normalised parseIP ipString) }
  else snapshot

end Spec

/-! ## Values -/

@[simp] theorem uint16Of_toNat (x : UInt16) : uint16Of (.uint x.toNat) = x := by
  simp [uint16Of]

@[simp] theorem arrayOf_toList {n : Nat} (x : Vector UInt8 n) : arrayOf n (.bytes x.toList) = x := by
  have sized : (bytesOf (.bytes x.toList)).length = n := by simp [bytesOf]
  rw [arrayOf, dif_pos sized]
  exact Vector.ext_iff.mpr fun i _ => by simp [bytesOf, Vector.toArray_toList]

theorem Address.ofValue_value (addr : Address) : Address.ofValue addr.value = addr := by
  simp [Address.ofValue, Address.value, Address.values, bytesOf, Function.comp_def]

theorem SnapshotWithHostnames.ofValue_value (snapshot : SnapshotWithHostnames) :
    SnapshotWithHostnames.ofValue snapshot.value = snapshot := by
  simp [SnapshotWithHostnames.ofValue, SnapshotWithHostnames.value, idsValue, hashValue, Function.comp_def,
    Address.ofValue_value]

theorem Address.ofValueWithoutHostname_values (ipString : List UInt8 → List UInt8) (addr : Address)
    (ip : List UInt8) : Address.ofValueWithoutHostname ipString (.list (addr.valuesWithoutHostname ip)) =
      { addr with ip := [], hostname := ipString ip, rest := [] } := by
  simp [Address.ofValueWithoutHostname, Address.valuesWithoutHostname, bytesOf]

theorem uint16_below (x : UInt16) : x.toNat < 65536 := x.toNat_lt

theorem Address.holds_values (addr : Address) : RType.holdsFields addressFields addr.values := by
  simp [addressFields, Address.values, RType.holdsFields, RType.holds, RType.isByte, UintSize.bits, uint16_below]

theorem Address.holds_valuesWithoutHostname (addr : Address) (ip : List UInt8) :
    RType.holdsFields addressWithoutHostnameFields (addr.valuesWithoutHostname ip) := by
  simp [addressWithoutHostnameFields, Address.valuesWithoutHostname, RType.holdsFields, RType.holds, RType.isByte,
    UintSize.bits, uint16_below]

/-! ## Writing -/

theorem length_le_listBytes (payload : List UInt8) : payload.length ≤ (listBytes payload).length := by
  simp [listBytes]

theorem writeAddress_writes (addr : Address) (fits : addr.structEncoding.length < 2 ^ 64) :
    Writes (writeAddress addr) addr.structEncoding :=
  writes_structWithTail addressFields addr.values addr.holds_values addr.rest
    (Nat.lt_of_le_of_lt (length_le_listBytes _) fits)

theorem length_le_flatMap {α β : Type} {f : α → List β} {l : List α} {a : α} (member : a ∈ l) :
    (f a).length ≤ (l.flatMap f).length := by
  rw [List.flatMap_def]
  exact (List.sublist_flatten_of_mem (List.mem_map_of_mem member)).length_le

theorem holds_idsValue (ids : List UInt16) : (RType.slice (.uint .u16)).holds (idsValue ids) := by
  simp [idsValue, RType.holds, RType.isByte, UintSize.bits, uint16_below]

theorem holds_hashValue (hash : Vector UInt8 32) : (RType.array 32 (.uint .u8)).holds (hashValue hash) := by
  simp [hashValue, RType.holds, RType.isByte]

theorem SnapshotWithHostnames.encodeRLP_writes (snapshot : SnapshotWithHostnames)
    (fits : (listBytes (listBytes (snapshot.addresses.flatMap Address.structEncoding) ++
      ((RType.slice (.uint .u16)).item (idsValue snapshot.removedRaftIds)).encode ++
      ((RType.array 32 (.uint .u8)).item (hashValue snapshot.headBlockHash)).encode)).length < 2 ^ 64) :
    Writes snapshot.encodeRLP (listBytes (listBytes (snapshot.addresses.flatMap Address.structEncoding) ++
      ((RType.slice (.uint .u16)).item (idsValue snapshot.removedRaftIds)).encode ++
      ((RType.array 32 (.uint .u8)).item (hashValue snapshot.headBlockHash)).encode)) := by
  have payloadFits := Nat.lt_of_le_of_lt (length_le_listBytes _) fits
  simp only [List.length_append] at payloadFits
  have listFits : (listBytes (snapshot.addresses.flatMap Address.structEncoding)).length < 2 ^ 64 := by
    omega
  have addressesFit := Nat.lt_of_le_of_lt (length_le_listBytes _) listFits
  have grouped : snapshot.encodeRLP = (do
      let lh ← list
      (do
        (do
          let addrs ← list
          snapshot.addresses.forM writeAddress
          listEnd addrs)
        writer (.slice (.uint .u16)) (idsValue snapshot.removedRaftIds)
        writer (.array 32 (.uint .u8)) (hashValue snapshot.headBlockHash))
      listEnd lh) := by
    simp only [SnapshotWithHostnames.encodeRLP, bind_assoc]
  rw [grouped, List.append_assoc]
  refine writes_list (writes_seq (writes_list (writes_forM_flatMap _ fun addr member => ?_) addressesFit)
    (writes_seq (writer_writes _ _ (holds_idsValue _) (by omega)) (writer_writes _ _ (holds_hashValue _) (by omega))))
    (by simp only [List.length_append]; omega)
  exact writeAddress_writes addr (Nat.lt_of_le_of_lt (length_le_flatMap member) addressesFit)

/-! ## Reading -/

theorem addressFields_eq : addressFields = addressWithoutHostnameFields ++ [.string] := rfl

theorem addressFields_decode : ∀ field ∈ addressFields, Decodes (makeDecoder field) field := by
  intro field member
  simp only [addressFields, List.mem_cons, List.not_mem_nil, or_false] at member
  rcases member with rfl | rfl | rfl | rfl | rfl | rfl
  · exact decodeUint_decodes .u16
  · show Decodes (decodeByteArray _ 64) _
    exact decodeByteArray_decodes _ (by decide)
  · exact decodeByteSlice_decodes _
  · exact decodeUint_decodes .u16
  · exact decodeUint_decodes .u16
  · exact decodeString_decodes

theorem addressWithoutHostnameFields_decode :
    ∀ field ∈ addressWithoutHostnameFields, Decodes (makeDecoder field) field :=
  fun field member => addressFields_decode field (by rw [addressFields_eq]; exact List.mem_append_left _ member)

theorem addressWithoutHostname_decodes :
    Decodes (makeDecoder (.struct addressWithoutHostnameFields)) (.struct addressWithoutHostnameFields) :=
  makeDecoder_struct_decodes _ addressWithoutHostnameFields_decode

theorem idsValue_decodes : Decodes (makeDecoder (.slice (.uint .u16))) (.slice (.uint .u16)) := by
  show Decodes (decodeListSlice _ (decodeUint .u16)) _
  exact decodeListSlice_decodes (decodeUint_decodes .u16) (decodeUint_endsAtEOL .u16) _ rfl

theorem hashValue_decodes : Decodes (makeDecoder (.array 32 (.uint .u8))) (.array 32 (.uint .u8)) := by
  show Decodes (decodeByteArray _ 32) _
  exact decodeByteArray_decodes _ (by decide)

theorem snapshotWithoutHostnames_decodes :
    Decodes (makeDecoder (.struct snapshotWithoutHostnamesFields)) (.struct snapshotWithoutHostnamesFields) := by
  refine makeDecoder_struct_decodes _ fun field member => ?_
  simp only [snapshotWithoutHostnamesFields, List.mem_cons, List.not_mem_nil, or_false] at member
  rcases member with rfl | rfl | rfl
  · show Decodes (decodeListSlice _ (makeDecoder (.struct addressWithoutHostnameFields))) _
    exact decodeListSlice_decodes addressWithoutHostname_decodes (makeStructDecoder_endsAtEOL _ _) _ rfl
  · exact idsValue_decodes
  · exact hashValue_decodes

theorem Address.structEncoding_eq (addr : Address) (restItems : List Item)
    (raw : addr.rest = restItems.map Item.encode) : addr.structEncoding = (addr.item restItems).encode := by
  rw [Address.structEncoding, Address.item, ← listBytes_encodeItems, encodeItems_append, raw,
    encodeItems_eq_flatMap restItems, List.flatMap_def]

theorem decodeAddress_reads (addr : Address) (restItems : List Item) (raw : addr.rest = restItems.map Item.encode) :
    DecodesItem decodeAddress (addr.item restItems) addr.value := by
  have reads := decodeStructWithTail_reads addressType addressFields addressFields_decode addr.values
    addr.holds_values restItems
  rw [Address.value, raw, List.map_map]
  exact reads

/-- The struct decoder of `Address` on a legacy list: the list ends where `Hostname` starts. -/
theorem decodeAddress_too_few (addr : Address) (ip : List UInt8) :
    FailsItem decodeAddress (addr.itemWithoutHostname ip) (.decode "too few elements" addressType) :=
  decodeStructWithTail_too_few addressType addressWithoutHostnameFields .string [] decodeString_endsAtEOL
    addressWithoutHostnameFields_decode _ (addr.holds_valuesWithoutHostname ip) _

theorem SnapshotWithHostnames.item_encode (snapshot : SnapshotWithHostnames) (restItems : Address → List Item)
    (raw : ∀ addr ∈ snapshot.addresses, addr.rest = (restItems addr).map Item.encode) :
    (snapshot.item restItems).encode = listBytes (listBytes (snapshot.addresses.flatMap Address.structEncoding) ++
      ((RType.slice (.uint .u16)).item (idsValue snapshot.removedRaftIds)).encode ++
      ((RType.array 32 (.uint .u8)).item (hashValue snapshot.headBlockHash)).encode) := by
  have addresses : snapshot.addresses.flatMap Address.structEncoding =
      encodeItems (snapshot.addresses.map fun addr => addr.item (restItems addr)) := by
    rw [encodeItems_eq_flatMap, List.flatMap_map]
    exact List.flatMap_congr fun addr member => addr.structEncoding_eq _ (raw addr member)
  rw [addresses, listBytes_encodeItems, SnapshotWithHostnames.item, ← listBytes_encodeItems]
  simp [List.append_assoc]

theorem decodeSnapshot_reads (snapshot : SnapshotWithHostnames) (restItems : Address → List Item)
    (raw : ∀ addr ∈ snapshot.addresses, addr.rest = (restItems addr).map Item.encode) :
    DecodesItem decodeSnapshot (snapshot.item restItems) snapshot.value := by
  have addresses := decodeListSlice_items (makeStructDecoder_endsAtEOL addressType _) (.slice addressType)
    (snapshot.addresses.map fun addr => (addr.item (restItems addr), addr.value)) (fun e member => by
      obtain ⟨addr, listed, rfl⟩ := List.mem_map.mp member
      exact decodeAddress_reads addr (restItems addr) (raw addr listed))
  simp only [List.map_map, Function.comp_def] at addresses
  have ids := idsValue_decodes.item (holds_idsValue snapshot.removedRaftIds)
  have hash := hashValue_decodes.item (holds_hashValue snapshot.headBlockHash)
  have struct := decodeStructOf_items snapshotType
    [(decodeListSlice (.slice addressType) decodeAddress,
        .list (snapshot.addresses.map fun addr => addr.item (restItems addr)), .list (snapshot.addresses.map Address.value)),
      (makeDecoder (.slice (.uint .u16)), (RType.slice (.uint .u16)).item (idsValue snapshot.removedRaftIds),
        idsValue snapshot.removedRaftIds),
      (makeDecoder (.array 32 (.uint .u8)), (RType.array 32 (.uint .u8)).item (hashValue snapshot.headBlockHash),
        hashValue snapshot.headBlockHash)] (by
      intro field member
      simp only [List.mem_cons, List.not_mem_nil, or_false] at member
      rcases member with rfl | rfl | rfl
      · exact addresses
      · exact ids
      · exact hash)
  simp only [List.map_cons, List.map_nil] at struct
  exact struct

theorem decodeSnapshot_fails_legacy (addr : Address) (ip : List UInt8) (items : List Item) (ids hash : Item) :
    FailsItem decodeSnapshot (.list [.list (addr.itemWithoutHostname ip :: items), ids, hash])
      (.decode "too few elements" addressType) :=
  decodeStructOf_fails snapshotType _ (by simp)
    (decodeListSlice_fails (.slice addressType) (by simp) (decodeAddress_too_few addr ip) items) [ids, hash]

section Codecs

variable (parseIP : List UInt8 → Option (List UInt8)) (ipString : List UInt8 → List UInt8)

theorem Address.toBytes_eq (addr : Address) (fits : (addr.encoding parseIP).length < 2 ^ 64) :
    addr.toBytes parseIP = .ok (addr.encoding parseIP) := by
  rw [Address.encoding] at fits ⊢
  rw [Address.toBytes]
  rcases parsed : parseIP addr.hostname with _ | ip <;> simp only [parsed] at fits ⊢
  · exact encodeWith_of_writes (writeAddress_writes addr fits)
  · exact encodeToBytes_eq_encode _ _ (addr.holds_valuesWithoutHostname ip) fits

theorem holds_snapshotWithoutHostnames (addrs : List Address) (ips : Address → List UInt8) (ids : List UInt16)
    (hash : Vector UInt8 32) : (RType.struct snapshotWithoutHostnamesFields).holds
      (.list [.list (addrs.map fun addr => .list (addr.valuesWithoutHostname (ips addr))), idsValue ids,
        hashValue hash]) := by
  simp [snapshotWithoutHostnamesFields, RType.holds, RType.holdsFields, RType.isByte, Function.comp_def,
    Address.holds_valuesWithoutHostname, holds_idsValue, holds_hashValue]

/-- The loop of `toBytes` finishes exactly when every hostname is an IP literal, with the
legacy struct of each address. -/
theorem addressesWithoutHostnames_eq_some : ∀ {addrs : List Address} {olds : List Value},
    addressesWithoutHostnames parseIP addrs = some olds →
      (∀ addr ∈ addrs, ∃ ip, parseIP addr.hostname = some ip) ∧
        olds = addrs.map fun addr => .list (addr.valuesWithoutHostname ((parseIP addr.hostname).getD []))
  | [], olds, finished => by
      rw [addressesWithoutHostnames, Option.some.injEq] at finished
      simp [← finished]
  | addr :: addrs, olds, finished => by
      rw [addressesWithoutHostnames] at finished
      rcases parsed : parseIP addr.hostname with _ | ip <;> simp only [parsed] at finished
      · cases finished
      obtain ⟨rest, restFinished, rfl⟩ := Option.map_eq_some_iff.mp finished
      obtain ⟨restParsed, rfl⟩ := addressesWithoutHostnames_eq_some restFinished
      refine ⟨?_, by simp [parsed]⟩
      intro other member
      rcases List.mem_cons.mp member with rfl | later
      · exact ⟨ip, parsed⟩
      · exact restParsed other later

theorem addressesWithoutHostnames_eq_none : ∀ {addrs : List Address},
    addressesWithoutHostnames parseIP addrs = none → ∃ addr ∈ addrs, parseIP addr.hostname = none
  | [], broke => by cases broke
  | addr :: addrs, broke => by
      rw [addressesWithoutHostnames] at broke
      rcases parsed : parseIP addr.hostname with _ | ip <;> simp only [parsed] at broke
      · exact ⟨addr, List.mem_cons_self, parsed⟩
      · obtain ⟨other, member, otherParsed⟩ := addressesWithoutHostnames_eq_none (Option.map_eq_none_iff.mp broke)
        exact ⟨other, List.mem_cons_of_mem addr member, otherParsed⟩

theorem SnapshotWithHostnames.normalised_of_hostname (snapshot : SnapshotWithHostnames)
    (broke : addressesWithoutHostnames parseIP snapshot.addresses = none) :
    snapshot.normalised parseIP ipString = snapshot := by
  obtain ⟨addr, member, parsed⟩ := addressesWithoutHostnames_eq_none parseIP broke
  have notAll : (snapshot.addresses.all fun addr => (parseIP addr.hostname).isSome) = false := by
    rw [List.all_eq_false]
    exact ⟨addr, member, by simp [parsed]⟩
  simp only [SnapshotWithHostnames.normalised, notAll, Bool.false_eq_true, ↓reduceIte]

theorem SnapshotWithHostnames.normalised_of_ips (snapshot : SnapshotWithHostnames)
    (parsed : ∀ addr ∈ snapshot.addresses, ∃ ip, parseIP addr.hostname = some ip) :
    snapshot.normalised parseIP ipString =
      { snapshot with addresses := snapshot.addresses.map (Address.normalised parseIP ipString) } := by
  have all : (snapshot.addresses.all fun addr => (parseIP addr.hostname).isSome) = true := by
    rw [List.all_eq_true]
    intro addr member
    obtain ⟨ip, found⟩ := parsed addr member
    simp [found]
  rw [SnapshotWithHostnames.normalised, all, if_pos rfl]

theorem SnapshotWithHostnames.toBytes_eq (snapshot : SnapshotWithHostnames)
    (fits : (snapshot.encoding parseIP).length < 2 ^ 64) : snapshot.toBytes parseIP = .ok (snapshot.encoding parseIP) := by
  rw [SnapshotWithHostnames.encoding] at fits ⊢
  rw [SnapshotWithHostnames.toBytes]
  rcases legacy : addressesWithoutHostnames parseIP snapshot.addresses with _ | olds <;> simp only [legacy] at fits ⊢
  · exact encodeWith_of_writes (snapshot.encodeRLP_writes fits)
  · obtain ⟨-, rfl⟩ := addressesWithoutHostnames_eq_some parseIP legacy
    exact encodeToBytes_eq_encode _ _ (holds_snapshotWithoutHostnames _ _ _ _) fits

theorem ofValueWithoutHostname_legacy (addrs : List Address)
    (parsed : ∀ addr ∈ addrs, ∃ ip, parseIP addr.hostname = some ip) :
    (addrs.map fun addr => Value.list (addr.valuesWithoutHostname ((parseIP addr.hostname).getD []))).map
      (Address.ofValueWithoutHostname ipString) = addrs.map (Address.normalised parseIP ipString) := by
  rw [List.map_map]
  refine List.map_congr_left fun addr member => ?_
  obtain ⟨ip, found⟩ := parsed addr member
  simp [Address.ofValueWithoutHostname_values, Address.normalised, found]

/-- `BytesToAddress` reads back what `toBytes` wrote, normalised. -/
theorem bytesToAddress_toBytes (addr : Address) (raw : addr.RawRest)
    (fits : (addr.encoding parseIP).length < 2 ^ 64) :
    ∃ bytes, addr.toBytes parseIP = .ok bytes ∧ bytesToAddress ipString bytes = .ok (addr.normalised parseIP ipString) := by
  refine ⟨_, addr.toBytes_eq parseIP fits, ?_⟩
  rw [Address.encoding] at fits ⊢
  rw [Address.normalised]
  rcases parsed : parseIP addr.hostname with _ | ip <;> simp only [parsed] at fits ⊢
  · -- a hostname: the struct with its tail, which the new decoder reads
    obtain ⟨restItems, rest⟩ := raw
    rw [addr.structEncoding_eq restItems rest] at fits ⊢
    rw [bytesToAddress, (decodeAddress_reads addr restItems rest).decode (Item.fits_of_length _ fits)]
    dsimp only
    rw [Address.ofValue_value]
  · -- an IP literal: the legacy list, which only the legacy decoder reads
    have fit := Item.fits_of_length _ fits
    have oldReads := (addressWithoutHostname_decodes.item
      (holds_struct.mpr ⟨_, rfl, addr.holds_valuesWithoutHostname ip⟩)).decode fit
    rw [bytesToAddress, (decodeAddress_too_few addr ip).decode fit]
    dsimp only
    rw [Address.itemWithoutHostname, oldReads]
    dsimp only
    rw [Address.ofValueWithoutHostname_values]

/-- A legacy snapshot comes back with its addresses normalised: through the legacy decoder,
or through the new one when it has no address. -/
theorem bytesToSnapshot_legacy (addresses : List Address) (ids : List UInt16) (hash : Vector UInt8 32)
    (parsed : ∀ addr ∈ addresses, ∃ ip, parseIP addr.hostname = some ip)
    (fits : ((RType.struct snapshotWithoutHostnamesFields).item (.list [.list (addresses.map fun addr =>
      .list (addr.valuesWithoutHostname ((parseIP addr.hostname).getD []))), idsValue ids,
        hashValue hash])).encode.length < 2 ^ 64) :
    bytesToSnapshot ipString ((RType.struct snapshotWithoutHostnamesFields).item (.list [.list (addresses.map
      fun addr => .list (addr.valuesWithoutHostname ((parseIP addr.hostname).getD []))), idsValue ids,
        hashValue hash])).encode = .ok ⟨addresses.map (Address.normalised parseIP ipString), ids, hash⟩ := by
  have fit := Item.fits_of_length _ fits
  have shape : (RType.struct snapshotWithoutHostnamesFields).item (.list [.list (addresses.map fun addr =>
      .list (addr.valuesWithoutHostname ((parseIP addr.hostname).getD []))), idsValue ids, hashValue hash]) =
      .list [.list (addresses.map fun addr => addr.itemWithoutHostname ((parseIP addr.hostname).getD [])),
        (RType.slice (.uint .u16)).item (idsValue ids), (RType.array 32 (.uint .u8)).item (hashValue hash)] := by
    simp [RType.item, RType.itemFields, snapshotWithoutHostnamesFields, Address.itemWithoutHostname, Function.comp_def]
  rw [shape] at fit
  cases addresses with
  | nil =>
      -- no address: the legacy snapshot is the struct as well, which the new decoder reads
      have newReads : Stream.decode decodeSnapshot ((RType.struct snapshotWithoutHostnamesFields).item
          (.list [.list (([] : List Address).map fun addr =>
            .list (addr.valuesWithoutHostname ((parseIP addr.hostname).getD []))), idsValue ids,
              hashValue hash])).encode = .ok (⟨[], ids, hash⟩ : SnapshotWithHostnames).value := by
        rw [shape]
        exact (decodeSnapshot_reads ⟨[], ids, hash⟩ (fun _ => []) (by simp)).decode fit
      rw [bytesToSnapshot, newReads]
      dsimp only
      rw [SnapshotWithHostnames.ofValue_value, List.map_nil]
  | cons addr addrs =>
      -- the new decoder fails at the first address, and the legacy decoder reads it all
      have newFails : Stream.decode decodeSnapshot ((RType.struct snapshotWithoutHostnamesFields).item (.list
          [.list ((addr :: addrs).map fun addr => .list (addr.valuesWithoutHostname ((parseIP addr.hostname).getD []))),
            idsValue ids, hashValue hash])).encode = .error (.decode "too few elements" addressType) := by
        rw [shape, List.map_cons]
        rw [List.map_cons] at fit
        exact (decodeSnapshot_fails_legacy addr _ _ _ _).decode fit
      have oldReads := (snapshotWithoutHostnames_decodes.item (holds_snapshotWithoutHostnames (addr :: addrs)
        (fun addr => (parseIP addr.hostname).getD []) ids hash)).decode (Item.fits_of_length _ fits)
      rw [bytesToSnapshot, newFails]
      dsimp only
      rw [oldReads]
      dsimp only
      simp only [SnapshotWithHostnames.ofValueWithoutHostnames, idsValue, hashValue, List.map_map,
        Function.comp_def, uint16Of_toNat, List.map_id', arrayOf_toList]
      rw [← ofValueWithoutHostname_legacy parseIP ipString (addr :: addrs) parsed, List.map_map]
      rfl

/-- `bytesToSnapshot` reads back what `toBytes` wrote, normalised. -/
theorem bytesToSnapshot_toBytes (snapshot : SnapshotWithHostnames) (raw : ∀ addr ∈ snapshot.addresses, addr.RawRest)
    (fits : (snapshot.encoding parseIP).length < 2 ^ 64) :
    ∃ bytes, snapshot.toBytes parseIP = .ok bytes ∧
      bytesToSnapshot ipString bytes = .ok (snapshot.normalised parseIP ipString) := by
  refine ⟨_, snapshot.toBytes_eq parseIP fits, ?_⟩
  rw [SnapshotWithHostnames.encoding] at fits ⊢
  rcases legacy : addressesWithoutHostnames parseIP snapshot.addresses with _ | olds <;>
    simp only [legacy] at fits ⊢
  · -- some hostname is no IP literal: the struct, which the new decoder reads
    choose! restItems rests using raw
    rw [← snapshot.item_encode restItems rests] at fits ⊢
    rw [bytesToSnapshot, (decodeSnapshot_reads snapshot restItems rests).decode (Item.fits_of_length _ fits)]
    dsimp only
    rw [SnapshotWithHostnames.ofValue_value, snapshot.normalised_of_hostname parseIP ipString legacy]
  · obtain ⟨parsed, rfl⟩ := addressesWithoutHostnames_eq_some parseIP legacy
    rw [snapshot.normalised_of_ips parseIP ipString parsed]
    exact bytesToSnapshot_legacy parseIP ipString _ _ _ parsed fits

end Codecs

/-! ## The codec law -/

theorem membership_codecs_roundTrip (parseIP : List UInt8 → Option (List UInt8))
    (ipString : List UInt8 → List UInt8) :
    (∀ addr : Address, addr.RawRest → (addr.encoding parseIP).length < 2 ^ 64 →
      ∃ bytes, addr.toBytes parseIP = .ok bytes ∧
        bytesToAddress ipString bytes = .ok (addr.normalised parseIP ipString)) ∧
    (∀ snapshot : SnapshotWithHostnames, (∀ addr ∈ snapshot.addresses, addr.RawRest) →
      (snapshot.encoding parseIP).length < 2 ^ 64 →
      ∃ bytes, snapshot.toBytes parseIP = .ok bytes ∧
        bytesToSnapshot ipString bytes = .ok (snapshot.normalised parseIP ipString)) :=
  ⟨bytesToAddress_toBytes parseIP ipString, bytesToSnapshot_toBytes parseIP ipString⟩

/-- `127.0.0.1`, as text and as the 16 bytes `net.ParseIP` gives for it. -/
def loopbackText : List UInt8 := [0x31, 0x32, 0x37, 0x2E, 0x30, 0x2E, 0x30, 0x2E, 0x31]

def loopbackIP : List UInt8 := List.replicate 10 0 ++ [0xFF, 0xFF, 127, 0, 0, 1]

/-- A `ParseIP` and an `IP.String` that know the loopback address. -/
def parseLoopback (host : List UInt8) : Option (List UInt8) := if host = loopbackText then some loopbackIP else none

def loopbackString (ip : List UInt8) : List UInt8 := if ip = loopbackIP then loopbackText else []

/-- A member at `127.0.0.1`, and a member at the hostname `node1` whose tail carries a later
field: the string `0x0102` and the list `[5]`. -/
def loopbackMember : Address := ⟨1, Vector.replicate 64 7, [], 30303, 50400, loopbackText, []⟩

def hostnameMember : Address :=
  ⟨2, Vector.replicate 64 9, [], 30304, 50401, [0x6E, 0x6F, 0x64, 0x65, 0x31],
    [Item.encode (.str [1, 2]), Item.encode (.list [.str [5]])]⟩

theorem membership_codecs_roundTrip_on_mixed_members :
    (∃ bytes, loopbackMember.toBytes parseLoopback = .ok bytes ∧
      bytesToAddress loopbackString bytes = .ok (loopbackMember.normalised parseLoopback loopbackString)) ∧
    (∃ bytes, hostnameMember.toBytes parseLoopback = .ok bytes ∧
      bytesToAddress loopbackString bytes = .ok (hostnameMember.normalised parseLoopback loopbackString)) ∧
    (∃ bytes, (⟨[loopbackMember, hostnameMember], [4], Vector.replicate 32 1⟩ : SnapshotWithHostnames).toBytes
        parseLoopback = .ok bytes ∧
      bytesToSnapshot loopbackString bytes = .ok ((⟨[loopbackMember, hostnameMember], [4], Vector.replicate 32 1⟩ :
        SnapshotWithHostnames).normalised parseLoopback loopbackString)) := by
  have loopbackRaw : loopbackMember.RawRest := ⟨[], rfl⟩
  have hostnameRaw : hostnameMember.RawRest := ⟨[.str [1, 2], .list [.str [5]]], rfl⟩
  refine ⟨(membership_codecs_roundTrip parseLoopback loopbackString).1 _ loopbackRaw (by decide +kernel),
    (membership_codecs_roundTrip parseLoopback loopbackString).1 _ hostnameRaw (by decide +kernel),
    (membership_codecs_roundTrip parseLoopback loopbackString).2 _ ?_ (by decide +kernel)⟩
  intro addr listed
  simp only [List.mem_cons, List.not_mem_nil, or_false] at listed
  rcases listed with rfl | rfl
  · exact loopbackRaw
  · exact hostnameRaw

/-- A tail value that is no RLP value: `0xC1` opens a list of one byte at the end of the
address's list.  `toBytes` writes it, the new decoder's `Raw` rejects it and the legacy
decoder finds the list too long, so `BytesToAddress` reaches `log.Fatalf`. -/
theorem bytesToAddress_malformed_rest :
    (⟨1, Vector.replicate 64 0, [], 2, 3, [0x68], [[0xC1]]⟩ : Address).toBytes (fun _ => none) =
        .ok ([0xF8, 72, 0x01, 0xB8, 0x40] ++ List.replicate 64 0 ++ [0x80, 0x02, 0x03, 0x68, 0xC1]) ∧
      (bytesToAddress id ([0xF8, 72, 0x01, 0xB8, 0x40] ++ List.replicate 64 0 ++
        [0x80, 0x02, 0x03, 0x68, 0xC1])).isOk = false :=
  ⟨rfl, by decide +kernel⟩

end SimpleChain.Raft
