import Cry.Cipher.Grammar

/-!
# Round trip

Decryption recomputes the salt, the key, the header value and every nonce and associated data on
its own. A file that an encryption completed is nevertheless decrypted to what was encrypted: its
header is parsed back, and every sealed chunk opens under the same index.

## Main results

* `SealedFile.opens`: the frames of an encrypted file decrypt to its chunks;
* `parse_bytes`: a written header is parsed back;
* `roundTrip`: a completed encryption is undone by decryption, and encryption completes when the
  reported length rounds up to the right number of chunks and nothing fails.
-/

namespace Cry

open Rust Effects Framing

variable {P : Primitives}

section

variable (hverify : ∀ key msg, P.hmacVerify key msg (P.hmacSha256 key msg).val = true)
variable (hdecrypt : ∀ algo key nonce msg aad ct,
  (P.aead algo).encrypt key nonce msg aad = some ct →
    (P.aead algo).decrypt key nonce ct aad = some msg)
include hverify hdecrypt

omit hverify in
/-- A sealed chunk opens under the same index. -/
theorem Seals.opens {key : U8Array 32} {h : Header} {i : ℕ} {p c : Bytes}
    (hseal : Seals P key h i p c) (hp : p.length ≤ chunkSize) : Opens P key h i c p := by
  refine ⟨hseal.length_le hp, ?_⟩
  unfold Seals encryptChunk at hseal
  split at hseal
  · next hct =>
    obtain rfl := Except.ok.inj hseal
    rw [decryptChunk, hdecrypt _ _ _ _ _ _ hct]
  · cases hseal

omit hverify in
/-- The frames of an encrypted file decrypt to its chunks. -/
theorem SealedFile.opens (f : SealedFile P) :
    ForallFrom (Opens P f.key f.header) 0 f.cts f.chunks :=
  (f.seals.imp fun _ _ hp _ hseal => hseal.opens hdecrypt (f.chunking.length_le hp)).flip

omit hdecrypt in
/-- A written header is parsed back. -/
theorem parse_bytes (h : Header) (key : U8Array 32) :
    Header.parse P key (h.bytes P key) = some (.ok h) := by
  rw [Header.bytes, Header.parse_preHmacBytes, if_pos]
  exact hverify _ _

/-- Round trip of a file. What a completed encryption of `B` wrote is accepted by decryption under
the same passphrase, which writes exactly `B`, whatever length was reported beforehand and however
the readers split their content. And when the reported length rounds up to the number of chunks of
`B` and no step fails, the encryption completes. -/
theorem roundTrip {B : Bytes} {r : Reader} (hr : Delivers B r) (passphrase : Bytes)
    (algo : Algorithm) (salt : U8Array 16) (nonce : U8Array 12) (plainLen : UInt64) :
    (∀ fuel faults st',
      StreamProg.run (encryptPipeline P fuel passphrase algo salt nonce plainLen) ⟨r, { faults }⟩ =
        some (.ok (), st') →
      ∀ r' fuel', Delivers st'.sink.written r' → r'.size < fuel' →
        ∃ r'', StreamProg.run (decryptPipeline P fuel' passphrase) { reader := r' } =
          some (.ok (), ⟨r'', { written := B }⟩)) ∧
      ∀ fuel key, deriveKey P passphrase salt.val = .ok key →
        (∀ nonce msg aad, msg.length ≤ chunkSize →
          ∃ ct, (P.aead algo).encrypt key nonce msg aad = some ct) →
        plainLen.toNat ⌈/⌉ chunkSize = B.length ⌈/⌉ chunkSize → r.size < fuel →
        ∃ st', StreamProg.run (encryptPipeline P fuel passphrase algo salt nonce plainLen)
          { reader := r } = some (.ok (), st') := by
  constructor
  · intro fuel faults st' hrun r' fuel' hr' hfuel'
    obtain ⟨f, hkey, hheader, rfl, hw⟩ := encryptPipeline_eq_ok hr hrun
    -- what was written is a sealed file, and its frames open
    rw [hw, List.nil_append] at hr'
    exact decryptPipeline_ok _ _ (by rwa [hheader]) (parse_bytes hverify f.header f.key)
      (f.opens hdecrypt) hr' hfuel'
  · intro fuel key hkey hencrypt hlen hfuel
    exact encryptPipeline_ok hkey (fun nonce => hencrypt nonce) hlen hr hfuel rfl

end

/-- The AEADs of the transparent instance are inverted by their decryption. -/
theorem transparent_decrypt (algo : Algorithm) (key : U8Array 32) (nonce : U8Array 12)
    (msg aad ct : Bytes) (h : (transparent.aead algo).encrypt key nonce msg aad = some ct) :
    (transparent.aead algo).decrypt key nonce ct aad = some msg := by
  cases algo <;> exact transparentAead_decrypt h

/-- Three bytes, delivered in two parts with an interruption, are encrypted and recovered. -/
theorem roundTrip_transparent :
    ∃ st', StreamProg.run (encryptPipeline transparent 7 [] .chaCha20Poly1305 (checksum 16 [])
        (checksum 12 []) 3) { reader := [.data [1], .fail .interrupted, .data [2, 3]] } =
          some (.ok (), st') ∧
      ∃ r'', StreamProg.run (decryptPipeline transparent (st'.sink.written.length + 2) [])
        { reader := Reader.ofSlice st'.sink.written } =
          some (.ok (), ⟨r'', { written := [1, 2, 3] }⟩) := by
  have hlast : Delivers ([2, 3] ++ []) [.data [2, 3]] := .data (by simp) .nil
  have hparts : Delivers ([1] ++ ([2, 3] ++ [])) [.data [1], .fail .interrupted, .data [2, 3]] :=
    .data (by simp) (.fail rfl hlast)
  have hr : Delivers [1, 2, 3] [.data [1], .fail .interrupted, .data [2, 3]] := hparts
  obtain ⟨hdec, henc⟩ := roundTrip transparent_verify transparent_decrypt hr []
    .chaCha20Poly1305 (checksum 16 []) (checksum 12 []) 3
  obtain ⟨st', hrun⟩ := henc 7 (checksum 32 (checksum 16 []).val) rfl (fun _ _ _ _ => ⟨_, rfl⟩)
    (congrArg (· ⌈/⌉ chunkSize) (show (3 : UInt64).toNat = 3 by decide))
    (by simp [Reader.size])
  exact ⟨st', hrun, hdec 7 [] st' hrun _ _ (delivers_ofSlice _)
    (by simp)⟩

end Cry
