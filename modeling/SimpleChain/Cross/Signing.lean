import Mathlib
import SimpleChain.Lib.BigEndian

/-! # Signing cross transactions (`cross/core/cross_transaction_signing.go`)

`EIP155CtxSigner` stores a signature's recovery byte `v` in `V` as `35 + v + 2c`
for a chain id `c ≠ 0` and as `27 + v` for `c = 0`.  `ChainId` reads `c` back
through `types.DeriveChainId`, which maps 27 and 28 to 0 and any other `V` to
`(V - 35) / 2`, so every signed transaction carries its chain id.  `Sender`
undoes the offset by subtracting `2c + 8` before `types.RecoverPlain` subtracts
27: right for `c ≠ 0`, but for `c = 0` it leaves `19 + v`, which `RecoverPlain`
turns into the byte `248 + v` and rejects.  Signatures made for chain id 0 never
verify.

The curve arithmetic (`Ecrecover`) and Keccak are parameters; `Hash` is the
signing hash of the fields the signature does not cover, which `WithSignature`
keeps. -/
set_option autoImplicit false

namespace SimpleChain.Cross

open BigEndian

/-- The order `N` of secp256k1. -/
def secp256k1N : Nat := 0xfffffffffffffffffffffffffffffffebaaedce6af48a03bbfd25e8cd0364141

def secp256k1halfN : Nat := secp256k1N / 2

inductive SigError where
  | invalidSig
  | invalidChainId
  | invalidPublicKey
  | recover (message : String)
  | panic (message : String)
  deriving DecidableEq, Repr

/-- `ctxdata` as signing sees it: the signature values, as `*big.Int`s, and the hash `Hash`
computes over the other fields. -/
structure CtxData where
  sighash : List UInt8
  v : Int
  r : Int
  s : Int

/-- `DeriveChainId`: a `V` of at most 64 bits goes through `uint64` arithmetic. -/
def deriveChainId (v : Int) : Int :=
  if v.natAbs < 2 ^ 64 then
    let u := v.natAbs
    if u = 27 ∨ u = 28 then 0 else (((u + 2 ^ 64 - 35) % 2 ^ 64) / 2 : Nat)
  else (v - 35) / 2

/-- A chain id signed into `V` is read back. -/
theorem deriveChainId_signed {b : Nat} (recovery : b ≤ 1) {c : Int} (pos : 0 < c) :
    deriveChainId (35 + b + 2 * c) = c := by
  have abs : ((35 + b + 2 * c).natAbs : Int) = 35 + b + 2 * c := Int.natAbs_of_nonneg (by omega)
  unfold deriveChainId
  dsimp only
  split_ifs with fits legacy <;> omega

theorem deriveChainId_legacy {b : Nat} (recovery : b ≤ 1) : deriveChainId (27 + b) = 0 := by
  have abs : ((27 + b : Int)).natAbs = 27 + b := by omega
  unfold deriveChainId
  dsimp only
  split_ifs with fits legacy <;> omega

def validateSignatureValues (v : UInt8) (r s : Int) (homestead : Bool) : Bool :=
  if r < 1 ∨ s < 1 then false
  else if homestead ∧ s > secp256k1halfN then false
  else r < secp256k1N ∧ s < secp256k1N ∧ (v = 0 ∨ v = 1)

section Recover
variable (ecrecover : List UInt8 → List UInt8 → Except String (List UInt8))
  (keccak256 : List UInt8 → List UInt8)

/-- `types.RecoverPlain`: the recovery byte is `byte(Vb.Uint64() - 27)`. -/
def recoverPlain (sighash : List UInt8) (R S Vb : Int) (homestead : Bool) :
    Except SigError (List UInt8) :=
  -- Vb.BitLen() > 8
  if 2 ^ 8 ≤ Vb.natAbs then .error .invalidSig
  else
    let V : UInt8 := UInt8.ofNat ((Vb.natAbs % 2 ^ 64 + 2 ^ 64 - 27) % 2 ^ 64)
    if !validateSignatureValues V R S homestead then .error .invalidSig
    else
      let sig := beBytes 32 R.natAbs ++ beBytes 32 S.natAbs ++ [V]
      match ecrecover sighash sig with
      | .error e => .error (.recover e)
      | .ok pub =>
        if pub.head? ≠ some 4 then .error .invalidPublicKey
        else .ok ((keccak256 (pub.drop 1)).drop 12)

structure EIP155CtxSigner where
  chainId : Int
  chainIdMul : Int

def newEIP155CtxSigner (chainId : Int) : EIP155CtxSigner :=
  ⟨chainId, chainId * 2⟩

/-- `SignatureValues`: `sig[64] + 27` and `sig[64] + 35` are byte additions. -/
def EIP155CtxSigner.signatureValues (s : EIP155CtxSigner) (sig : List UInt8) :
    Except SigError (Int × Int × Int) :=
  if sig.length ≠ 65 then .error (.panic "wrong size for signature")
  else
    let R : Int := ofBE (sig.take 32)
    let S : Int := ofBE ((sig.drop 32).take 32)
    let V : Int :=
      if s.chainId ≠ 0 then ((sig.getD 64 0 + 35).toNat : Int) + s.chainIdMul
      else (sig.getD 64 0 + 27).toNat
    .ok (R, S, V)

def CtxData.withSignature (tx : CtxData) (signer : EIP155CtxSigner) (sig : List UInt8) :
    Except SigError CtxData := do
  let (r, s, v) ← signer.signatureValues sig
  return { tx with r := r, s := s, v := v }

def CtxData.chainId (tx : CtxData) : Int :=
  deriveChainId tx.v

def EIP155CtxSigner.sender (s : EIP155CtxSigner) (tx : CtxData) : Except SigError (List UInt8) :=
  if tx.chainId ≠ s.chainId then .error .invalidChainId
  else recoverPlain ecrecover keccak256 tx.sighash tx.r tx.s (tx.v - s.chainIdMul - 8) true

/-- What signing leaves in `V` and what `ChainId` reads back. -/
theorem withSignature_values (tx : CtxData) {c : Int} (nonneg : 0 ≤ c) {sig : List UInt8}
    (len : sig.length = 65) (recovery : sig.getD 64 0 ≤ 1) :
    ∃ signed, tx.withSignature (newEIP155CtxSigner c) sig = .ok signed ∧
      signed.sighash = tx.sighash ∧ signed.r = ofBE (sig.take 32) ∧
      signed.s = ofBE ((sig.drop 32).take 32) ∧
      signed.v = (if c ≠ 0 then 35 + (sig.getD 64 0).toNat + 2 * c else 27 + (sig.getD 64 0).toNat) ∧
      signed.chainId = c := by
  have small : (sig.getD 64 0).toNat ≤ 1 := UInt8.le_iff_toNat_le.mp recovery
  have add35 : (sig.getD 64 0 + 35).toNat = 35 + (sig.getD 64 0).toNat := by
    rw [UInt8.toNat_add, show (35 : UInt8).toNat = 35 from rfl, Nat.mod_eq_of_lt (by omega)]
    omega
  have add27 : (sig.getD 64 0 + 27).toNat = 27 + (sig.getD 64 0).toNat := by
    rw [UInt8.toNat_add, show (27 : UInt8).toNat = 27 from rfl, Nat.mod_eq_of_lt (by omega)]
    omega
  let v : Int := if c ≠ 0 then ((sig.getD 64 0 + 35).toNat : Int) + c * 2
    else (sig.getD 64 0 + 27).toNat
  refine ⟨{ tx with r := ofBE (sig.take 32), s := ofBE ((sig.drop 32).take 32), v := v },
    ?_, rfl, rfl, rfl, ?_, ?_⟩
  · simp [CtxData.withSignature, EIP155CtxSigner.signatureValues, newEIP155CtxSigner, len, v]
  · by_cases zero : c = 0
    · simp only [v, zero, ne_eq, not_true_eq_false, if_false, add27]
      push_cast
      rfl
    · simp only [v, zero, ne_eq, not_false_eq_true, if_true, add35]
      push_cast
      ring
  · show deriveChainId v = c
    by_cases zero : c = 0
    · simp only [v, zero, ne_eq, not_true_eq_false, if_false, add27]
      exact_mod_cast deriveChainId_legacy small
    · simp only [v, zero, ne_eq, not_false_eq_true, if_true, add35, mul_comm c 2]
      exact deriveChainId_signed small (by omega)

/-- For chain id 0, `Sender` subtracts 8 from `V = 27 + sig[64]`; `RecoverPlain` turns the
`19 + sig[64]` it gets into the recovery byte `248 + sig[64]` and rejects every signature. -/
theorem sender_chain_zero_rejects (tx : CtxData) {sig : List UInt8} (len : sig.length = 65)
    (recovery : sig.getD 64 0 ≤ 1) :
    ∃ signed, tx.withSignature (newEIP155CtxSigner 0) sig = .ok signed ∧ signed.chainId = 0 ∧
      (newEIP155CtxSigner 0).sender ecrecover keccak256 signed = .error .invalidSig := by
  obtain ⟨signed, eq, -, -, -, v, chain⟩ := withSignature_values tx le_rfl len recovery
  refine ⟨signed, eq, chain, ?_⟩
  have small : (sig.getD 64 0).toNat ≤ 1 := UInt8.le_iff_toNat_le.mp recovery
  have offset : signed.v - 0 * 2 - 8 = 19 + (sig.getD 64 0).toNat := by
    rw [v, if_neg (by simp)]
    ring
  have fits : ¬ 2 ^ 8 ≤ (19 + (sig.getD 64 0).toNat : Int).natAbs := by omega
  -- the byte `RecoverPlain` validates is `248` or `249`, never a recovery id
  have wrapped : UInt8.ofNat (((19 + (sig.getD 64 0).toNat : Int).natAbs % 2 ^ 64 + 2 ^ 64 - 27) %
      2 ^ 64) = 248 + sig.getD 64 0 := by
    rw [← UInt8.toNat_inj, UInt8.toNat_ofNat', UInt8.toNat_add]
    simp only [UInt8.reduceToNat]
    omega
  have invalid : validateSignatureValues (248 + sig.getD 64 0) signed.r signed.s true = false := by
    have notRecovery : ¬ (248 + sig.getD 64 0 = 0 ∨ 248 + sig.getD 64 0 = 1) := by
      simp only [← UInt8.toNat_inj, UInt8.toNat_add, UInt8.reduceToNat]
      omega
    unfold validateSignatureValues
    split_ifs
    · rfl
    · rfl
    · simp only [notRecovery, and_false, decide_false]
  simp only [EIP155CtxSigner.sender, newEIP155CtxSigner, chain, ne_eq, not_true_eq_false,
    if_false, offset, recoverPlain, fits, wrapped, invalid, Bool.not_false, if_true]

theorem sender_chain_zero_rejects_zero_signature :
    (List.replicate 65 (0 : UInt8)).length = 65 ∧ (List.replicate 65 (0 : UInt8)).getD 64 0 ≤ 1 ∧
      ∃ signed, CtxData.withSignature ⟨[], 0, 0, 0⟩ (newEIP155CtxSigner 0) (List.replicate 65 0) =
          .ok signed ∧ signed.chainId = 0 ∧
        (newEIP155CtxSigner 0).sender (fun _ _ => .error "") id signed = .error .invalidSig :=
  ⟨rfl, by decide, sender_chain_zero_rejects (fun _ _ => .error "") id ⟨[], 0, 0, 0⟩ rfl (by decide)⟩

end Recover

end SimpleChain.Cross
