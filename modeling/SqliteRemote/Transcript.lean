import SqliteRemote.Framing
import SqliteRemote.Login

/-! The bytes a client signs at login and the bytes its subject is the hash of. A Go string is any
bytes, so the parts are compared as bytes; the server ID of the model is the text among them. -/
namespace SqliteRemote.Protocol
open StoreContract Framing

def signedParts (serverID nonce instanceID : Bytes) (alg : SigAlg) (publicKey : Bytes) : List Bytes :=
  [textBytes transcriptLabel,serverID,nonce,instanceID,bigEndian alg,publicKey]

def signedBytes (serverID nonce instanceID : Bytes) (alg : SigAlg) (publicKey : Bytes) : Bytes :=
  (signedParts serverID nonce instanceID alg publicKey).flatMap withLength

theorem transcriptBytes (serverID : String) (nonce instanceID : Bytes) (alg : SigAlg) (publicKey : Bytes) :
    transcript serverID nonce instanceID alg publicKey =
      signedBytes (textBytes serverID) nonce instanceID alg publicKey := rfl

theorem textBytesInjective {text other : String} (same : textBytes text = textBytes other) : text = other := by
  have arrays : text.toUTF8.data = other.toUTF8.data := Array.toList_inj.mp same
  exact String.toByteArray_inj.mp (ByteArray.ext arrays)

theorem bigEndianInjective {m n : UInt32} (same : bigEndian m = bigEndian n) : m = n := by
  simp only [bigEndian,List.cons.injEq,and_true,← UInt8.toNat_inj,UInt32.toNat_toUInt8,UInt32.toNat_shiftRight] at same
  apply UInt32.toNat_inj.mp
  have short := m.toNat_lt
  have alsoShort := n.toNat_lt
  simp [Nat.shiftRight_eq_div_pow] at same
  omega

theorem lengthSized : Sized (fun n => bigEndian (UInt32.ofNat n)) 4 (2^32) where
  width := fun _ => rfl
  distinct := by
    intro m n short alsoShort same
    have numbers := congrArg UInt32.toNat (bigEndianInjective same)
    rwa [UInt32.toNat_ofNat_of_lt' short,UInt32.toNat_ofNat_of_lt' alsoShort] at numbers

theorem withLengthFrame : withLength = frame fun n => bigEndian (UInt32.ofNat n) := rfl

theorem partsShort {serverID nonce instanceID publicKey : Bytes} {alg : SigAlg} (server : serverID.length < 2^32)
    (challenge : nonce.length < 2^32) (client : instanceID.length < 2^32) (key : publicKey.length < 2^32) :
    ∀ part ∈ signedParts serverID nonce instanceID alg publicKey, part.length < 2^32 := by
  have label : (textBytes transcriptLabel).length = 21 := by decide +kernel
  have word : (bigEndian alg).length = 4 := rfl
  simp only [signedParts,List.forall_mem_cons,List.not_mem_nil,false_imp_iff,implies_true,and_true]
  exact ⟨by omega,server,challenge,client,by omega,key⟩

theorem signedInjective {serverID nonce instanceID publicKey serverID' nonce' instanceID' publicKey' : Bytes}
    {alg alg' : SigAlg} (server : serverID.length < 2^32) (challenge : nonce.length < 2^32)
    (client : instanceID.length < 2^32) (key : publicKey.length < 2^32) (server' : serverID'.length < 2^32)
    (challenge' : nonce'.length < 2^32) (client' : instanceID'.length < 2^32) (key' : publicKey'.length < 2^32)
    (same : signedBytes serverID nonce instanceID alg publicKey =
      signedBytes serverID' nonce' instanceID' alg' publicKey') :
    serverID = serverID' ∧ nonce = nonce' ∧ instanceID = instanceID' ∧ alg = alg' ∧ publicKey = publicKey' := by
  simp only [signedBytes,withLengthFrame] at same
  have count : (signedParts serverID nonce instanceID alg publicKey).length =
      (signedParts serverID' nonce' instanceID' alg' publicKey').length := rfl
  have parts := framesInjective lengthSized count (partsShort server challenge client key)
    (partsShort server' challenge' client' key') same
  simp only [signedParts,List.cons.injEq,true_and,and_true] at parts
  obtain ⟨servers,nonces,instances,words,keys⟩ := parts
  exact ⟨servers,nonces,instances,bigEndianInjective words,keys⟩

/- The nonce stands behind the server ID alone, so that its length is already told by what comes
before: nothing is asked of the parts behind it. -/
theorem signedNonces {serverID serverID' nonce nonce' instanceID instanceID' publicKey publicKey' : Bytes}
    {alg alg' : SigAlg} (server : serverID.length < 2^32) (challenge : nonce.length < 2^32)
    (server' : serverID'.length < 2^32) (challenge' : nonce'.length < 2^32)
    (same : signedBytes serverID nonce instanceID alg publicKey =
      signedBytes serverID' nonce' instanceID' alg' publicKey') : nonce = nonce' := by
  simp only [signedBytes,signedParts,List.flatMap_cons] at same
  have rest := List.append_cancel_left same
  obtain ⟨_,more⟩ := frameFirst lengthSized server server' rest
  exact (frameFirst lengthSized challenge challenge' more).1

theorem subjectInputs {alg alg' : SigAlg} {publicKey publicKey' : Bytes}
    (same : transcript subjectLabel [] [] alg publicKey = transcript subjectLabel [] [] alg' publicKey') :
    alg = alg' ∧ publicKey = publicKey' := by
  simp only [transcript,List.flatMap_cons,List.flatMap_nil,List.append_nil] at same
  have behind := List.append_cancel_left (List.append_cancel_left (List.append_cancel_left
    (List.append_cancel_left same)))
  obtain ⟨words,keys⟩ := List.append_inj behind rfl
  exact ⟨bigEndianInjective (List.append_cancel_left words),(List.append_inj keys rfl).2⟩

theorem transcriptUnambiguous :
    (∀ (serverID nonce instanceID publicKey serverID' nonce' instanceID' publicKey' : Bytes) (alg alg' : SigAlg),
      serverID.length < 2^32 → nonce.length < 2^32 → instanceID.length < 2^32 → publicKey.length < 2^32 →
      serverID'.length < 2^32 → nonce'.length < 2^32 → instanceID'.length < 2^32 → publicKey'.length < 2^32 →
      signedBytes serverID nonce instanceID alg publicKey = signedBytes serverID' nonce' instanceID' alg' publicKey' →
      serverID = serverID' ∧ nonce = nonce' ∧ instanceID = instanceID' ∧ alg = alg' ∧ publicKey = publicKey') ∧
    (∀ (serverID serverID' : String) (nonce instanceID publicKey nonce' instanceID' publicKey' : Bytes)
      (alg alg' : SigAlg), (textBytes serverID).length < 2^32 → nonce.length < 2^32 → instanceID.length < 2^32 →
      publicKey.length < 2^32 → (textBytes serverID').length < 2^32 → nonce'.length < 2^32 →
      instanceID'.length < 2^32 → publicKey'.length < 2^32 →
      transcript serverID nonce instanceID alg publicKey = transcript serverID' nonce' instanceID' alg' publicKey' →
      serverID = serverID' ∧ nonce = nonce' ∧ instanceID = instanceID' ∧ alg = alg' ∧ publicKey = publicKey') ∧
    (∀ (crypto : Crypto) (alg : SigAlg) (publicKey : Bytes),
      subjectOf crypto alg publicKey = crypto.sha256URL (transcript subjectLabel [] [] alg publicKey)) ∧
    (∀ (alg alg' : SigAlg) (publicKey publicKey' : Bytes),
      transcript subjectLabel [] [] alg publicKey = transcript subjectLabel [] [] alg' publicKey' →
      alg = alg' ∧ publicKey = publicKey') ∧
    (∀ (serverID nonce instanceID publicKey publicKey' : Bytes) (alg alg' : SigAlg), serverID.length < 2^32 →
      nonce.length = nonceBytes →
      transcript subjectLabel [] [] alg publicKey ≠ signedBytes serverID nonce instanceID alg' publicKey') := by
  refine ⟨?_,?_,fun _ _ _ => rfl,fun _ _ _ _ => subjectInputs,?_⟩
  · intro _ _ _ _ _ _ _ _ _ _ server challenge client key server' challenge' client' key' same
    exact signedInjective server challenge client key server' challenge' client' key' same
  · intro _ _ _ _ _ _ _ _ _ _ server challenge client key server' challenge' client' key' same
    rw [transcriptBytes,transcriptBytes] at same
    obtain ⟨servers,rest⟩ := signedInjective server challenge client key server' challenge' client' key' same
    exact ⟨textBytesInjective servers,rest⟩
  · intro serverID nonce _ _ _ _ _ server challenge same
    have label : (textBytes subjectLabel).length < 2^32 := by decide +kernel
    rw [transcriptBytes] at same
    rw [nonceBytes] at challenge
    have empty := signedNonces label (by decide) server (by omega) same
    rw [← empty] at challenge
    contradiction

theorem transcriptUnambiguousSigned :
    transcript "db" (List.replicate 32 7) [1] 1 [2,3] ≠ transcript "db" (List.replicate 32 7) [1,0] 1 [2,3] ∧
    transcript subjectLabel [] [] 1 [2,3] ≠ transcript "db" (List.replicate 32 7) [1] 1 [2,3] := by
  obtain ⟨_,distinct,_,_,apart⟩ := transcriptUnambiguous
  refine ⟨?_,apart _ _ _ _ _ _ _ (by decide +kernel) rfl⟩
  intro same
  have parts := distinct _ _ _ _ _ _ _ _ _ _ (by decide +kernel) (by decide +kernel) (by decide +kernel)
    (by decide +kernel) (by decide +kernel) (by decide +kernel) (by decide +kernel) (by decide +kernel) same
  exact absurd parts.2.2.1 (by decide)

end SqliteRemote.Protocol
