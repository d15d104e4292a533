import Cry.Error

/-!
# Cryptographic primitives

The primitives come from third-party crates and are a parameter of the model. Of an AEAD the
structure records the one fact the file format rests on: the ciphertext is 16 bytes longer than
the message. Everything else that a result needs is a hypothesis of that result.
-/

namespace Cry

open Rust

/-- An AEAD with 32-byte keys, 12-byte nonces and 16-byte tags. Both directions can fail. -/
structure Aead where
  /-- Key, nonce, message and associated data to ciphertext with tag. -/
  encrypt : U8Array 32 → U8Array 12 → Bytes → Bytes → Option Bytes
  /-- Key, nonce, ciphertext with tag and associated data to message. -/
  decrypt : U8Array 32 → U8Array 12 → Bytes → Bytes → Option Bytes
  /-- The ciphertext is the message with a 16-byte tag. -/
  encrypt_length : ∀ {key nonce msg aad ct},
    encrypt key nonce msg aad = some ct → ct.length = msg.length + 16

/-- The primitives the program uses. -/
structure Primitives where
  /-- Argon2id (version 0x13, 64 MiB, 3 iterations, 1 lane, 32 bytes out): passphrase and salt
  to key, or the text of an error. -/
  argon2id : Bytes → Bytes → Except String (U8Array 32)
  /-- HMAC-SHA256: key and message to tag. -/
  hmacSha256 : Bytes → Bytes → U8Array 32
  /-- `Mac::verify_slice` of HMAC-SHA256: key, message and tag. -/
  hmacVerify : Bytes → Bytes → Bytes → Bool
  /-- SHA-256. -/
  sha256 : Bytes → U8Array 32
  /-- AES-256-GCM. -/
  aes256Gcm : Aead
  /-- ChaCha20-Poly1305. -/
  chaCha20Poly1305 : Aead

/-- Derive a 32-byte key from a passphrase and a salt. -/
def deriveKey (P : Primitives) (passphrase salt : Bytes) : Except Stop (U8Array 32) :=
  match P.argon2id passphrase salt with
  | .ok key => .ok key
  | .error e => .error (.err (.kdf e))

theorem deriveKey_eq_ok_iff {P : Primitives} {passphrase salt : Bytes} {key : U8Array 32} :
    deriveKey P passphrase salt = .ok key ↔ P.argon2id passphrase salt = .ok key := by
  unfold deriveKey
  cases P.argon2id passphrase salt <;> simp

/-- Key derivation fails only with its own error. -/
theorem deriveKey_eq_error {P : Primitives} {passphrase salt : Bytes} {e : Stop}
    (h : deriveKey P passphrase salt = .error e) : ∃ msg, e = .err (.kdf msg) := by
  unfold deriveKey at h
  split at h
  · cases h
  · exact ⟨_, (Except.error.inj h).symm⟩

/-! ## A transparent instance -/

/-- One byte that depends on every byte of the input. -/
def digest (bs : Bytes) : UInt8 := bs.foldl (fun acc b => acc * 31 + b) 7

/-- The digest as a byte string of length `n`. -/
def checksum (n : ℕ) (bs : Bytes) : U8Array n := ⟨List.replicate n (digest bs), by simp⟩

/-- An AEAD without secrecy: the message followed by a checksum of key, nonce and associated
data. -/
def transparentAead : Aead where
  encrypt key nonce msg aad :=
    some (msg ++ (checksum 16 (key.val ++ nonce.val ++ aad)).val)
  decrypt key nonce ct aad :=
    if ct.drop (ct.length - 16) = (checksum 16 (key.val ++ nonce.val ++ aad)).val then
      some (ct.take (ct.length - 16))
    else none
  encrypt_length h := by
    obtain rfl := Option.some.inj h
    simp

/-- A tag without secrecy: the key, cut or padded to 32 bytes, shifted by the digest of the
message. -/
def transparentMac (key msg : Bytes) : U8Array 32 :=
  ⟨((key ++ List.replicate 32 0).take 32).map (· + digest msg), by simp⟩

/-- Checksums in place of the primitives, to evaluate the model. -/
def transparent : Primitives where
  argon2id passphrase salt := .ok (checksum 32 (passphrase ++ salt))
  hmacSha256 := transparentMac
  hmacVerify key msg tag := tag = (transparentMac key msg).val
  sha256 msg := checksum 32 msg
  aes256Gcm := transparentAead
  chaCha20Poly1305 := transparentAead

theorem transparent_verify (key msg : Bytes) :
    transparent.hmacVerify key msg (transparent.hmacSha256 key msg).val = true := by
  simp [transparent]

theorem transparentAead_decrypt {key : U8Array 32} {nonce : U8Array 12} {msg aad ct : Bytes}
    (h : transparentAead.encrypt key nonce msg aad = some ct) :
    transparentAead.decrypt key nonce ct aad = some msg := by
  obtain rfl := Option.some.inj h
  simp [transparentAead]

/-! ## Separation -/

/-- Keys derived with a salt of what is hashed separate what their inputs separate, and nothing
else: for all primitives whose hash does not collide on the two inputs and whose Argon2id does not
collide on the two salts, equal keys have the consequence that equal inputs have. -/
theorem separated_iff_of_salt {ι : Type} {n : ℕ} (salt : Primitives → ι → U8Array n) (x x' : ι)
    (p : Prop) :
    (∀ (P : Primitives) (passphrase : Bytes) (key : U8Array 32),
      (salt P x = salt P x' → x = x') →
      (∀ key, P.argon2id passphrase (salt P x).val = .ok key →
        P.argon2id passphrase (salt P x').val = .ok key → salt P x = salt P x') →
      P.argon2id passphrase (salt P x).val = .ok key →
      P.argon2id passphrase (salt P x').val = .ok key → p) ↔ (x = x' → p) := by
  constructor
  · rintro h rfl
    -- one input has one salt, and Argon2id does not fail in the transparent instance
    exact h transparent [] _ (fun _ => rfl) (fun _ _ _ => rfl) rfl rfl
  · intro h P passphrase key hhash hkdf hkey hkey'
    exact h (hhash (hkdf key hkey hkey'))

end Cry
