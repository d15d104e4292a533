import Cry.Cipher.Authenticity
import Cry.Header.Codec

/-!
# One layout of the header

The layout of the header is written out four times: by the serialiser, by the parser, in the
offset at which `decrypt_file` finds the salt before it has a key, and in the hash that binds the
chunks to the header. This file shows that the four agree on every header that is accepted, and
that the associated data of a chunk determine the header and the position.

## Main results

* `take_of_parse`: the serialised fields of an accepted header are its first 41 bytes;
* `layouts_agree`: the salt at its offset, the hash and the tag are all about these bytes, and
  equal associated data come from one header and one index.
-/

namespace Cry

open Rust Effects

variable (P : Primitives)

/-- The hash of the header is a hash of its serialised fields. -/
theorem headerAad_eq (h : Header) : headerAad P h = P.sha256 h.preHmacBytes := rfl

/-- The serialised fields of an accepted header are its first 41 bytes, and the tag that verifies
is the rest. -/
theorem take_of_parse {key : U8Array 32} {raw : U8Array headerLen} {h : Header}
    (hparse : Header.parse P key raw.val = some (.ok h)) :
    raw.val.take 41 = h.preHmacBytes ∧
      P.hmacVerify (Header.deriveHmacSubkey P key).val (raw.val.take 41) (raw.val.drop 41) =
        true := by
  obtain ⟨t, hraw, hverify⟩ := (Header.parse_eq_ok_iff P raw.property).mp hparse
  have htake : raw.val.take 41 = h.preHmacBytes := by
    rw [hraw, ← h.length_preHmacBytes, List.take_left]
  have hdrop : raw.val.drop 41 = t.val := by
    rw [hraw, ← h.length_preHmacBytes, List.drop_left]
  exact ⟨htake, by rw [htake, hdrop, hverify]⟩

/-- The salt found at its offset is decided by the first 41 bytes. -/
theorem rawSalt_eq_take (raw : U8Array headerLen) :
    rawSalt raw = ((raw.val.take 41).drop (4 + 1)).take saltLen := by
  rw [rawSalt, List.drop_take, List.take_take]
  rfl

/-- The salt of the serialised fields is found at its offset. -/
theorem drop_take_preHmacBytes (h : Header) :
    (h.preHmacBytes.drop (4 + 1)).take saltLen = h.salt.val := by
  have hfields := h.preHmacBytes_append []
  rw [List.append_nil] at hfields
  rw [hfields]
  simp [magic, saltLen]

/-- All readings of the header agree, and the associated data of a chunk bind its position. The salt
at offset 5 of a buffer that is accepted is the salt of the header; the header's hash is the hash of
the first 41 bytes, which are the serialised fields and the bytes whose tag was verified. Equal
associated data come from the same header and the same index, unless the hash collides on the two
headers. -/
theorem layouts_agree :
    (∀ (key : U8Array 32) (raw : U8Array headerLen) (h : Header),
      Header.parse P key raw.val = some (.ok h) →
      rawSalt raw = h.salt.val ∧
        headerAad P h = P.sha256 (raw.val.take 41) ∧ raw.val.take 41 = h.preHmacBytes ∧
        P.hmacVerify (Header.deriveHmacSubkey P key).val (raw.val.take 41) (raw.val.drop 41) =
          true) ∧
    ∀ (h h' : Header) (i j : UInt64),
      (P.sha256 h.preHmacBytes = P.sha256 h'.preHmacBytes →
        h.preHmacBytes = h'.preHmacBytes) →
      chunkAad (headerAad P h) i = chunkAad (headerAad P h') j → h = h' ∧ i = j := by
  constructor
  · intro key raw h hparse
    obtain ⟨htake, hverify⟩ := take_of_parse P hparse
    refine ⟨?_, ?_, htake, hverify⟩
    · rw [rawSalt_eq_take, htake, drop_take_preHmacBytes]
    · rw [headerAad_eq, htake]
  · intro h h' i j hsha haad
    obtain ⟨hhash, hindex⟩ := chunkAad_inj haad
    rw [headerAad_eq, headerAad_eq] at hhash
    exact ⟨Header.preHmacBytes_injective (hsha hhash), hindex⟩

/-- The readings of a written header, without secrecy. -/
theorem layouts_agree_transparent :
    rawSalt ⟨Header.bytes transparent ⟨.aes256Gcm, checksum 16 [1], checksum 12 [], 0⟩
      (checksum 32 []), Header.length_bytes _ _ _⟩ = (checksum 16 [1]).val :=
  ((layouts_agree transparent).1 (checksum 32 []) ⟨_, Header.length_bytes _ _ _⟩
    ⟨.aes256Gcm, checksum 16 [1], checksum 12 [], 0⟩
    ((Header.parse_eq_ok_iff_eq_bytes transparent (by simp [transparent])
      (Header.length_bytes _ _ _)).mpr rfl)).1

end Cry
