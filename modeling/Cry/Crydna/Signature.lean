import Cry.Crydna.Hex
import Mathlib.Data.Set.Function

/-!
# Signatures over file contents

An identity signs the hash of a domain tag and the hash of the content. The verifier gets the
public key and the signature as hexadecimal text, and builds the signed message again.

The Ed25519 operations come from a third-party crate and are a parameter. `Exact` says what the
code relies on: the crate signs and verifies messages of any length, but only 32-byte hashes are
ever signed, and the hypothesis is about those.

## Main results

* `verifyContentSignature_sign`: the verdict on a signature, for every signer, every public key and
  both contents;
* `sign_verify`: the verifier accepts under the signer's public key exactly the content that was
  signed, and returns an error under every other public key.
-/

namespace Cry

open Rust

/-- The Ed25519 operations. A `String` on the error side is the text of the crate's error. -/
structure SignaturePrimitives where
  /-- Decoded public keys. -/
  VerifyingKey : Type
  /-- `SigningKey::sign`. -/
  sign : U8Array 32 → Bytes → U8Array 64
  /-- `VerifyingKey::from_bytes`. -/
  fromBytes : U8Array 32 → Except String VerifyingKey
  /-- `VerifyingKey::verify`. -/
  verify : VerifyingKey → Bytes → U8Array 64 → Bool

/-- A public key decodes from its own bytes, and a signature of a hash is accepted exactly under the
public key of the key that made it, for the hash it was made for. -/
structure SignaturePrimitives.Exact (S : SignaturePrimitives) (K : KeyPrimitives) : Prop where
  fromBytes : ∀ key, ∃ vk, S.fromBytes (K.verifyingKey key) = .ok vk
  verify_sign : ∀ (key key' : U8Array 32) (vk : S.VerifyingKey) (msg msg' : U8Array 32),
    S.fromBytes (K.verifyingKey key') = .ok vk →
      (S.verify vk msg'.val (S.sign key msg.val) = true ↔
        K.verifyingKey key' = K.verifyingKey key ∧ msg' = msg)

/-- Signatures without secrecy: the public key and the message. -/
def transparentSignatures : SignaturePrimitives where
  VerifyingKey := U8Array 32
  sign key msg :=
    ⟨(transparentKeys.verifyingKey key).val ++ (msg ++ List.replicate 32 0).take 32, by simp⟩
  fromBytes bytes := .ok bytes
  verify key msg sig := sig.val = key.val ++ msg

theorem transparentSignatures_exact : transparentSignatures.Exact transparentKeys where
  fromBytes key := ⟨_, rfl⟩
  verify_sign key key' vk msg msg' hvk := by
    obtain rfl := Except.ok.inj hvk
    have htake : (msg.val ++ List.replicate 32 0).take 32 = msg.val := by
      rw [List.take_append_of_le_length (by simp), List.take_of_length_le (by simp)]
    simp only [transparentSignatures, decide_eq_true_eq, htake]
    constructor
    · intro h
      obtain ⟨hkey, hmsg⟩ := List.append_inj h (by simp)
      exact ⟨Subtype.ext hkey.symm, Subtype.ext hmsg.symm⟩
    · rintro ⟨hkey, rfl⟩
      rw [hkey]

namespace Crydna

variable (P : Primitives) (K : KeyPrimitives) (S : SignaturePrimitives)

/-! ## Signing -/

/-- The domain tag of file signatures. -/
def sigDomain : Bytes := utf8 "CryDNA-file-sig-v1:"

/-- The public key as lowercase hexadecimal text. -/
def Identity.publicKeyHex (id : Identity) : String :=
  bytesToHex (K.verifyingKey id.signingKey).val

/-- Sign file content. -/
def Identity.signContent (id : Identity) (content : Bytes) : U8Array 64 :=
  let contentHash := P.sha256 content
  let msgHash := P.sha256 (sigDomain ++ contentHash.val)
  S.sign id.signingKey msgHash.val

/-- The signature as lowercase hexadecimal text. -/
def signatureHex (sig : U8Array 64) : String := bytesToHex sig.val

/-! ## Verification -/

/-- Map the error of the hexadecimal decoder to `CryError::InvalidFormat` under a prefix. -/
def hexArgument (text : String) : Except (Failure String) Bytes → Except Stop Bytes
  | .ok bytes => .ok bytes
  | .error (.err e) => .error (.err (.invalidFormat (text ++ e)))
  | .error .panic => .error .panic

/-- `try_into` an array of `n` bytes, under a text for the error. -/
def tryInto (n : ℕ) (text : String) (bytes : Bytes) : Except Stop (U8Array n) :=
  if h : bytes.length = n then .ok ⟨bytes, h⟩ else .error (.err (.invalidFormat text))

/-- The error for a signature that is not accepted. -/
def signatureInvalid : Stop :=
  .err (.verificationFailed
    ("Signature is invalid — file may have been tampered with, " ++
      "or the wrong public key was supplied."))

/-- Verify a signature over file content under a public key, both as hexadecimal text. -/
def verifyContentSignature (publicKeyHex : String) (content : Bytes) (signatureHex : String) :
    Except Stop Unit := do
  let pubBytes ← hexArgument "Invalid public key hex: " (hexToBytes publicKeyHex)
  let pubArray ← tryInto 32 "Ed25519 public key must be exactly 32 bytes" pubBytes
  let verifyingKey ← invalidFormat "Invalid Ed25519 public key: " (S.fromBytes pubArray)
  let sigBytes ← hexArgument "Invalid signature hex: " (hexToBytes signatureHex)
  let sigArray ← tryInto 64 "Ed25519 signature must be exactly 64 bytes" sigBytes
  let contentHash := P.sha256 content
  let msgHash := P.sha256 (sigDomain ++ contentHash.val)
  if S.verify verifyingKey msgHash.val sigArray then .ok () else .error signatureInvalid

/-! ## Agreement -/

theorem tryInto_val {n : ℕ} (text : String) (a : U8Array n) : tryInto n text a.val = .ok a := by
  rw [tryInto, dif_pos a.length_val]

theorem tryInto_eq_ok_iff {n : ℕ} {text : String} {bytes : Bytes} {a : U8Array n} :
    tryInto n text bytes = .ok a ↔ bytes = a.val := by
  constructor
  · intro h
    unfold tryInto at h
    split at h
    · exact congrArg Subtype.val (Except.ok.inj h)
    · cases h
  · rintro rfl
    exact tryInto_val text a

theorem tryInto_ne_panic (n : ℕ) (text : String) (bytes : Bytes) :
    tryInto n text bytes ≠ .error .panic := by
  unfold tryInto
  split <;> nofun

theorem hexArgument_eq_ok_iff {text s : String} {bytes : Bytes} :
    hexArgument text (hexToBytes s) = .ok bytes ↔ Denotes s bytes := by
  rw [← hexToBytes_eq_ok_iff]
  cases hexToBytes s with
  | ok bytes' => rw [hexArgument, Except.ok.injEq, Except.ok.injEq]
  | error f => cases f <;> exact ⟨nofun, nofun⟩

theorem hexArgument_eq_panic_iff {text s : String} :
    hexArgument text (hexToBytes s) = .error .panic ↔ CutsCharacter s := by
  rw [← hexToBytes_eq_panic_iff]
  cases hexToBytes s with
  | ok bytes => exact ⟨nofun, nofun⟩
  | error f =>
    cases f with
    | err e => exact ⟨nofun, nofun⟩
    | panic => exact ⟨fun _ => rfl, fun _ => rfl⟩

theorem invalidFormat_ne_panic {α : Type} (text : String) (x : Except String α) :
    invalidFormat text x ≠ .error .panic := by
  cases x <;> nofun

theorem invalidFormat_eq_ok_iff {α : Type} {text : String} {x : Except String α} {a : α} :
    invalidFormat text x = .ok a ↔ x = .ok a := by
  constructor
  · exact invalidFormat_eq_ok
  · rintro rfl
    rfl

/-- A panic of two computations in sequence is one of the first, or of the second on its value. -/
theorem bind_eq_panic_iff {α β : Type} {x : Except Stop α} {f : α → Except Stop β} :
    x >>= f = .error .panic ↔ x = .error .panic ∨ ∃ a, x = .ok a ∧ f a = .error .panic := by
  cases x with
  | error e => simp [bind, Except.bind]
  | ok a => simp [bind, Except.bind]

/-- A value of two computations in sequence is one of the second on the value of the first. -/
theorem bind_eq_ok_iff {α β : Type} {x : Except Stop α} {f : α → Except Stop β} {b : β} :
    x >>= f = .ok b ↔ ∃ a, x = .ok a ∧ f a = .ok b := by
  cases x with
  | error e => simp [bind, Except.bind]
  | ok a => simp [bind, Except.bind]

/-- The verifier panics exactly when the decoder does on the public key, or on the signature after
the public key has been decoded. -/
theorem verifyContentSignature_eq_panic_iff {publicKeyHex signatureHex : String}
    {content : Bytes} :
    verifyContentSignature P S publicKeyHex content signatureHex = .error .panic ↔
      CutsCharacter publicKeyHex ∨
        ∃ (key : U8Array 32) (vk : S.VerifyingKey), Denotes publicKeyHex key.val ∧
          S.fromBytes key = .ok vk ∧ CutsCharacter signatureHex := by
  have hverdict : ∀ accepted : Bool,
      (if accepted then .ok () else .error signatureInvalid : Except Stop Unit) ≠
        .error .panic := by
    intro accepted
    cases accepted <;> nofun
  simp only [verifyContentSignature, bind_eq_panic_iff, hexArgument_eq_panic_iff,
    hexArgument_eq_ok_iff, tryInto_ne_panic, tryInto_eq_ok_iff, invalidFormat_ne_panic,
    invalidFormat_eq_ok_iff, hverdict, false_or, and_false, exists_false, or_false]
  constructor
  · rintro (hcuts | ⟨bytes, hkey, key, rfl, vk, hvk, hcuts⟩)
    · exact .inl hcuts
    · exact .inr ⟨key, vk, hkey, hvk, hcuts⟩
  · rintro (hcuts | ⟨key, vk, hkey, hvk, hcuts⟩)
    · exact .inl hcuts
    · exact .inr ⟨_, hkey, key, rfl, vk, hvk, hcuts⟩

/-- The signature of an accepted content was decoded to 64 bytes. -/
theorem denotes_of_verifyContentSignature {publicKeyHex signatureHex : String} {content : Bytes}
    (h : verifyContentSignature P S publicKeyHex content signatureHex = .ok ()) :
    ∃ sig : U8Array 64, Denotes signatureHex sig.val := by
  simp only [verifyContentSignature, bind_eq_ok_iff, hexArgument_eq_ok_iff,
    tryInto_eq_ok_iff] at h
  obtain ⟨_, -, _, -, _, -, bytes, hsig, sig, rfl, -⟩ := h
  exact ⟨sig, hsig⟩

variable {K S}

/-- On texts of a public key and a signature, the verifier asks whether the signature is one of the
hash it builds from the content. -/
theorem verifyContentSignature_hex (id : Identity) (content : Bytes) (sig : U8Array 64)
    {vk : S.VerifyingKey} (hvk : S.fromBytes (K.verifyingKey id.signingKey) = .ok vk) :
    verifyContentSignature P S (id.publicKeyHex K) content (signatureHex sig) =
      if S.verify vk (P.sha256 (sigDomain ++ (P.sha256 content).val)).val sig then .ok ()
      else .error signatureInvalid := by
  simp only [verifyContentSignature, Identity.publicKeyHex, signatureHex, hexToBytes_bytesToHex,
    hexArgument, bind, Except.bind, tryInto_val, hvk, invalidFormat]

variable {P}

/-- The signed hashes of two contents agree only when the contents do, unless the hash collides on
what it is applied to. -/
theorem signedHash_eq_iff {content content' : Bytes}
    (hsha : Set.InjOn P.sha256 {content, content', sigDomain ++ (P.sha256 content).val,
      sigDomain ++ (P.sha256 content').val}) :
    P.sha256 (sigDomain ++ (P.sha256 content').val) =
      P.sha256 (sigDomain ++ (P.sha256 content).val) ↔ content' = content := by
  constructor
  · intro h
    -- the outer hash, the domain tag, the inner hash
    have houter := hsha (by simp) (by simp) h
    have hinner := List.append_cancel_left houter
    exact hsha (by simp) (by simp) (Subtype.ext hinner)
  · rintro rfl
    rfl

/-- The verdict on a signature that an identity made over one content, for the public key of any
identity and any content. -/
theorem verifyContentSignature_sign (hexact : S.Exact K) {content content' : Bytes}
    (hsha : Set.InjOn P.sha256 {content, content', sigDomain ++ (P.sha256 content).val,
      sigDomain ++ (P.sha256 content').val}) (id id' : Identity) :
    verifyContentSignature P S (id'.publicKeyHex K) content'
        (signatureHex (id.signContent P S content)) =
      open Classical in
      if K.verifyingKey id'.signingKey = K.verifyingKey id.signingKey ∧ content' = content
      then .ok () else .error signatureInvalid := by
  obtain ⟨vk, hvk⟩ := hexact.fromBytes id'.signingKey
  have hverify := hexact.verify_sign id.signingKey id'.signingKey vk
    (P.sha256 (sigDomain ++ (P.sha256 content).val))
    (P.sha256 (sigDomain ++ (P.sha256 content').val)) hvk
  rw [signedHash_eq_iff hsha] at hverify
  rw [verifyContentSignature_hex P id' content' _ hvk, Identity.signContent]
  simp only [hverify]

/-- Signing and verification agree through their texts. Under the signer's public key exactly the
signed content is accepted, and under a different public key every content is refused with an
error. -/
theorem sign_verify (hexact : S.Exact K) {content content' : Bytes}
    (hsha : Set.InjOn P.sha256 {content, content', sigDomain ++ (P.sha256 content).val,
      sigDomain ++ (P.sha256 content').val}) (id : Identity) :
    (verifyContentSignature P S (id.publicKeyHex K) content'
        (signatureHex (id.signContent P S content)) = .ok () ↔ content' = content) ∧
      ∀ id' : Identity, K.verifyingKey id'.signingKey ≠ K.verifyingKey id.signingKey →
        ∃ e, verifyContentSignature P S (id'.publicKeyHex K) content'
          (signatureHex (id.signContent P S content)) = .error (.err e) := by
  constructor
  · rw [verifyContentSignature_sign hexact hsha]
    by_cases h : content' = content
    · simp [h]
    · simp [h]
  · intro id' hkey
    rw [verifyContentSignature_sign hexact hsha, if_neg fun h => hkey h.1]
    exact ⟨_, rfl⟩

/-- A signature over one byte is accepted, without secrecy. -/
theorem sign_verify_transparent :
    verifyContentSignature transparent transparentSignatures
        (Identity.publicKeyHex transparentKeys ⟨checksum 32 []⟩) [1]
        (signatureHex (Identity.signContent transparent transparentSignatures ⟨checksum 32 []⟩
          [1])) = .ok () := by
  have hsha : Set.InjOn transparent.sha256 {[1], [1],
      sigDomain ++ (transparent.sha256 [1]).val, sigDomain ++ (transparent.sha256 [1]).val} := by
    intro x hx y hy h
    simp only [Set.mem_insert_iff, Set.mem_singleton_iff, or_self, or_self_left] at hx hy
    obtain rfl | rfl := hx <;> obtain rfl | rfl := hy <;>
      first | rfl | exact absurd h (by decide +kernel)
  exact (sign_verify transparentSignatures_exact hsha _).1.mpr rfl

end Crydna

end Cry
