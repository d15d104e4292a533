import Cry.Cipher.Grammar

/-!
# Authenticity of the plaintext

An attacker hands the decryptor any bytes at all, cut from and spliced between the files of a
finite set of honest encryptions. The primitives are ideal for that set: a tag verifies only when
it is the tag of one of its headers, and a ciphertext opens only under the key, nonce and
associated data under which one of its chunks was sealed.

Every chunk that opens then is the chunk of the same index of the file whose header was verified:
its associated data carries the header's hash and the index. So what the loop writes is a prefix
of that file's chunks, and the committed number of chunks makes an accepted prefix the whole. A
writer that fails may cut the last chunk it is given short.

## Main results

* `Ideal.header_eq`: a header that is parsed is an honest one, under its own key;
* `Ideal.chunk_eq`: a frame that opens is the honest chunk of its index;
* `decryptPipeline_authentic`: what is written before the pipeline stops consists of leading
  chunks of the honest plaintext, of all of them when it accepts, and of a part of the next chunk
  when the writer fails.
-/

namespace Cry

open Rust Effects Framing

variable {P : Primitives}

/-- The primitives are ideal for a list of honest encryptions. -/
structure Ideal (honest : List (SealedFile P)) : Prop where
  /-- A tag verifies only for the sub-key and the serialised header of an honest file, and only
  when it is the tag written there. -/
  verify : ∀ key msg tag, P.hmacVerify key msg tag = true →
    ∃ f ∈ honest, key = (Header.deriveHmacSubkey P f.key).val ∧ msg = f.header.preHmacBytes ∧
      tag = (Header.computeHmac P f.header.preHmacBytes f.key).val
  /-- A ciphertext opens only as the chunk that was sealed into it, under the same key, nonce and
  associated data. -/
  decrypt : ∀ algo key nonce ct aad p, (P.aead algo).decrypt key nonce ct aad = some p →
    ∃ f ∈ honest, ∃ i : ℕ, algo = f.header.algo ∧ key = f.key ∧
      nonce = chunkNonce f.header.nonce (UInt64.ofNat i) ∧
      aad = chunkAad (headerAad P f.header) (UInt64.ofNat i) ∧
      f.cts[i]? = some ct ∧ f.chunks[i]? = some p
  /-- Sub-keys of different keys differ. -/
  subkey_injective : Function.Injective (Header.deriveHmacSubkey P)
  /-- The hash does not collide on honest headers. -/
  sha256_injOn : ∀ f ∈ honest, ∀ g ∈ honest,
    P.sha256 f.header.preHmacBytes = P.sha256 g.header.preHmacBytes →
      f.header.preHmacBytes = g.header.preHmacBytes

/-- The associated data of a chunk determine the header value and the index. -/
theorem chunkAad_inj {a b : U8Array 32} {i j : UInt64} (h : chunkAad a i = chunkAad b j) :
    a = b ∧ i = j := by
  obtain ⟨ha, hi⟩ := List.append_inj h (by simp)
  exact ⟨Subtype.ext ha, BigEndian.ofU64_injective hi⟩

/-- Two files that carry the same serialised header at their front have the same header. -/
theorem header_eq_of_start {h h' : Header} {F : Bytes} (hp : h.preHmacBytes <+: F)
    (hp' : h'.preHmacBytes <+: F) : h = h' := by
  obtain ⟨t, rfl⟩ := hp
  obtain ⟨t', heq⟩ := hp'
  exact (Header.preHmacBytes_append_inj heq.symm).1

/-- A chunk of a file has an index below the maximum of the counter. -/
theorem SealedFile.length_lt (f : SealedFile P) : f.chunks.length < 2 ^ 64 := by
  rw [← f.count]
  exact f.header.chunkCount.toNat_lt

namespace Ideal

variable {honest : List (SealedFile P)}

/-- A header that is parsed is the header of an honest file, under the key of that file. -/
theorem header_eq (ideal : Ideal honest) {key : U8Array 32} {raw : U8Array headerLen}
    {header : Header} (hparse : Header.parse P key raw.val = some (.ok header)) :
    ∃ f ∈ honest, key = f.key ∧ header = f.header ∧ f.header.preHmacBytes <+: raw.val := by
  obtain ⟨tag, hraw, hverify⟩ := (Header.parse_eq_ok_iff P raw.property).mp hparse
  obtain ⟨f, hf, hkey, hmsg, -⟩ := ideal.verify _ _ _ hverify
  obtain rfl := Header.preHmacBytes_injective hmsg
  exact ⟨f, hf, ideal.subkey_injective (Subtype.ext hkey), rfl, hraw ▸ List.prefix_append _ _⟩

/-- Honest files with pairwise different headers are determined by their headers. -/
theorem eq_of_header_eq (hdistinct : (honest.map SealedFile.header).Nodup) {f g : SealedFile P}
    (hf : f ∈ honest) (hg : g ∈ honest) (h : f.header = g.header) : f = g :=
  List.inj_on_of_nodup_map hdistinct hf hg h

/-- A frame that opens as frame `i` of an honest file is chunk `i` of that file. -/
theorem chunk_eq (ideal : Ideal honest) (hdistinct : (honest.map SealedFile.header).Nodup)
    {f : SealedFile P} (hf : f ∈ honest) {i : ℕ} (hi : i < 2 ^ 64) {c p : Bytes}
    (hopen : Opens P f.key f.header i c p) : f.chunks[i]? = some p := by
  obtain ⟨-, hdec⟩ := hopen
  unfold decryptChunk at hdec
  split at hdec
  · next hp =>
    obtain rfl := Except.ok.inj hdec
    -- only an honest call can open: file `g`, chunk `j`
    obtain ⟨g, hg, j, -, -, -, haad, -, hchunk⟩ := ideal.decrypt _ _ _ _ _ _ hp
    obtain ⟨hhash, hindex⟩ := chunkAad_inj haad
    have hheader : f.header = g.header :=
      Header.preHmacBytes_injective (ideal.sha256_injOn f hf g hg hhash)
    obtain rfl := eq_of_header_eq hdistinct hf hg hheader
    -- the associated data fixes the file by its header hash, and the position by the index
    have hj : j < 2 ^ 64 := by
      obtain ⟨hlt, -⟩ := List.getElem?_eq_some_iff.mp hchunk
      exact hlt.trans f.length_lt
    have hij := congrArg UInt64.toNat hindex
    rw [UInt64.toNat_ofNat_of_lt' hi, UInt64.toNat_ofNat_of_lt' hj] at hij
    rwa [hij]
  · cases hdec

/-- Frames that open in order from index `i` of an honest file are its chunks from there on. -/
theorem chunks_prefix (ideal : Ideal honest) (hdistinct : (honest.map SealedFile.header).Nodup)
    {f : SealedFile P} (hf : f ∈ honest) {i : ℕ} {cs ps : List Bytes}
    (hall : ForallFrom (Opens P f.key f.header) i cs ps) (hi : i ≤ f.chunks.length) :
    ps <+: f.chunks.drop i := by
  have hlen := f.length_lt
  induction hall with
  | nil => exact List.nil_prefix
  | @cons i c p cs ps hopen hall ih =>
    have hchunk := ideal.chunk_eq hdistinct hf (by omega) hopen
    obtain ⟨hlt, hget⟩ := List.getElem?_eq_some_iff.mp hchunk
    rw [List.drop_eq_getElem_cons hlt, hget, List.prefix_cons_inj]
    exact ih hlt

end Ideal

/-- Plaintext authenticity. Under primitives that are ideal for a list of honest encryptions with
pairwise different headers, and whatever bytes, errors and interruptions the reader gives and
wherever the writer fails, the decryption pipeline accepts only after writing the whole plaintext of
the one honest file whose header the bytes carry; and whenever it stops, it has written nothing or
leading chunks of that plaintext, followed by a part of the next chunk only when the writer failed
and ended the run. -/
theorem decryptPipeline_authentic {honest : List (SealedFile P)} (ideal : Ideal honest)
    (hdistinct : (honest.map SealedFile.header).Nodup) {fuel : ℕ} {passphrase : Bytes}
    {r : Reader} {faults : List (Option WriteFault)} {x : Except Stop Unit} {st' : StreamState}
    (hrun : StreamProg.run (decryptPipeline P fuel passphrase) ⟨r, { faults }⟩ = some (x, st')) :
    (x = .ok () →
      ∃ f ∈ honest, (∀ g ∈ honest, g.header.preHmacBytes <+: r.content ↔ g = f) ∧
        st'.sink.written = f.plaintext) ∧
      (st'.sink.written = [] ∨
        ∃ f ∈ honest, (∀ g ∈ honest, g.header.preHmacBytes <+: r.content ↔ g = f) ∧
          ∃ k part, st'.sink.written = (f.chunks.take k).flatten ++ part ∧
            (part = [] ∨ st'.sink.failed = true ∧ (∃ e, x = .error (.err (.io e))) ∧
              ∃ p, f.chunks[k]? = some p ∧ part <+: p)) := by
  obtain ⟨e, rfl, hsink⟩ |
      ⟨raw, key, header, cs, ps, part, hraw, -, hparse, hall, htorn, hw, hcount, -, -⟩ :=
    decryptPipeline_eq_some hrun
  · exact ⟨by simp, .inl (by rw [hsink])⟩
  · -- the header was verified, so it is the one of an honest file
    obtain ⟨f, hf, rfl, rfl, hheader⟩ := ideal.header_eq hparse
    have hcarry := hheader.trans hraw
    have hunique : ∀ g ∈ honest, g.header.preHmacBytes <+: r.content ↔ g = f := by
      refine fun g hg => ⟨fun hgc => ?_, fun heq => heq ▸ hcarry⟩
      exact Ideal.eq_of_header_eq hdistinct hg hf (header_eq_of_start hgc hcarry)
    have hfirst : ps <+: f.chunks := ideal.chunks_prefix hdistinct hf hall (Nat.zero_le _)
    rw [List.nil_append] at hw
    refine ⟨fun hok => ⟨f, hf, hunique, ?_⟩, .inr ⟨f, hf, hunique, ps.length, part, ?_, ?_⟩⟩
    · -- the committed number of chunks rules out a proper prefix
      have hlen : ps.length = f.chunks.length := by
        rw [← hall.length_eq, hcount hok, f.count]
      subst hok
      rw [hw, htorn.eq_nil_of_ok, List.append_nil, hfirst.eq_of_length hlen, SealedFile.plaintext]
    · rw [hw, ← List.prefix_iff_eq_take.mp hfirst]
    · -- the frame whose plaintext was cut short is an honest one too
      refine htorn.imp id fun ⟨hfailed, he, c, p, hopen, hpart⟩ => ⟨hfailed, he, p, ?_, hpart⟩
      have hlt : cs.length < 2 ^ 64 :=
        hall.length_eq ▸ hfirst.length_le.trans_lt f.length_lt
      rw [← hall.length_eq]
      exact ideal.chunk_eq hdistinct hf hlt hopen

/-! ## Two files under one key -/

namespace TwoFiles

/-- The key of both files. -/
def key : U8Array 32 := checksum 32 (checksum 16 []).val

/-- Headers that differ in the nonce. -/
def header (b : UInt8) : Header where
  algo := .aes256Gcm
  salt := checksum 16 []
  nonce := checksum 12 [b]
  chunkCount := 1

/-- The one ciphertext of a file that holds the byte `b` twice. -/
def ct (b : UInt8) : Bytes :=
  [b, b] ++ (checksum 16 (key.val ++ (chunkNonce (header b).nonce 0).val ++
    chunkAad (headerAad transparent (header b)) 0)).val

/-- The key, message and tag of a header. -/
def tagEntry (b : UInt8) : Bytes × Bytes × Bytes :=
  ((Header.deriveHmacSubkey transparent key).val, (header b).preHmacBytes,
    (Header.computeHmac transparent (header b).preHmacBytes key).val)

/-- The key, nonce, ciphertext and associated data of a chunk. -/
def ctEntry (b : UInt8) : U8Array 32 × U8Array 12 × Bytes × Bytes :=
  (key, chunkNonce (header b).nonce 0, ct b, chunkAad (headerAad transparent (header b)) 0)

/-- The transparent primitives, where only what the two files contain verifies and opens. -/
def primitives : Primitives where
  argon2id := transparent.argon2id
  hmacSha256 := transparent.hmacSha256
  hmacVerify key msg tag := (key, msg, tag) ∈ [tagEntry 0, tagEntry 1]
  sha256 := transparent.sha256
  aes256Gcm :=
    { transparentAead with
      decrypt key nonce ct aad :=
        if (key, nonce, ct, aad) = ctEntry 0 then some [0, 0]
        else if (key, nonce, ct, aad) = ctEntry 1 then some [1, 1] else none }
  chaCha20Poly1305 := { transparentAead with decrypt _ _ _ _ := none }

/-- The file that holds the byte `b` twice. -/
def file (b : UInt8) : SealedFile primitives where
  key := key
  header := header b
  chunks := [[b, b]]
  cts := [ct b]
  chunking := .last (by simp) (by simp [chunkSize])
  seals := .cons rfl .nil
  count := rfl

theorem ideal : Ideal [file 0, file 1] where
  verify key msg tag h := by
    obtain h | h : (key, msg, tag) = tagEntry 0 ∨ (key, msg, tag) = tagEntry 1 := by
      simpa [primitives] using h
    · exact ⟨file 0, by simp, by cases h; exact ⟨rfl, rfl, rfl⟩⟩
    · exact ⟨file 1, by simp, by cases h; exact ⟨rfl, rfl, rfl⟩⟩
  decrypt algo key nonce ct aad p h := by
    cases algo with
    | chaCha20Poly1305 => cases h
    | aes256Gcm =>
      by_cases h₀ : (key, nonce, ct, aad) = ctEntry 0
      · have hp : some [0, 0] = some p := by
          rw [← h]
          exact (if_pos h₀).symm
        obtain rfl := Option.some.inj hp
        cases h₀
        exact ⟨file 0, by simp, 0, rfl, rfl, rfl, rfl, rfl, rfl⟩
      · by_cases h₁ : (key, nonce, ct, aad) = ctEntry 1
        · have hp : some [1, 1] = some p := by
            rw [← h]
            exact ((if_neg h₀).trans (if_pos h₁)).symm
          obtain rfl := Option.some.inj hp
          cases h₁
          exact ⟨file 1, by simp, 0, rfl, rfl, rfl, rfl, rfl, rfl⟩
        · have hp : none = some p := by
            rw [← h]
            exact ((if_neg h₀).trans (if_neg h₁)).symm
          cases hp
  subkey_injective a b h := by
    have hval := congrArg Subtype.val h
    simp only [Header.deriveHmacSubkey, primitives, transparent, transparentMac] at hval
    rw [List.take_left' a.length_val, List.take_left' b.length_val] at hval
    exact Subtype.ext (List.map_injective_iff.mpr
      (fun _ _ hadd => (UInt8.add_left_inj _).mp hadd) hval)
  sha256_injOn f hf g hg h := by
    have hne : digest (header 0).preHmacBytes ≠ digest (header 1).preHmacBytes := by
      decide +kernel
    have hdigest : digest f.header.preHmacBytes = digest g.header.preHmacBytes :=
      (List.replicate_inj.mp (congrArg Subtype.val h)).2.resolve_left (by simp)
    simp only [List.mem_cons, List.not_mem_nil, or_false] at hf hg
    obtain rfl | rfl := hf <;> obtain rfl | rfl := hg
    · rfl
    · exact absurd hdigest hne
    · exact absurd hdigest.symm hne
    · rfl

/-- The two files have different headers. -/
theorem nodup_header : ([file 0, file 1].map SealedFile.header).Nodup := by
  simp only [List.map_cons, List.map_nil, List.nodup_cons, List.mem_singleton]
  decide +kernel

/-- The header of the first file is parsed back. -/
theorem parse_header : Header.parse primitives key ((header 0).bytes primitives key) =
    some (.ok (header 0)) := by
  have hverify : primitives.hmacVerify (Header.deriveHmacSubkey primitives key).val
      (header 0).preHmacBytes (Header.computeHmac primitives (header 0).preHmacBytes key).val =
        true := by
    simp only [primitives, Header.computeHmac, Header.deriveHmacSubkey, tagEntry, List.mem_cons,
      true_or, decide_true]
  rw [Header.bytes, Header.parse_preHmacBytes, if_pos hverify]

/-- The frame of the first file opens. -/
theorem opens_file : ForallFrom (Opens primitives key (header 0)) 0 [ct 0] [[0, 0]] := by
  have hdec : (primitives.aead .aes256Gcm).decrypt key (chunkNonce (header 0).nonce 0) (ct 0)
      (chunkAad (headerAad transparent (header 0)) 0) = some [0, 0] := by
    simp only [Primitives.aead, primitives, ctEntry, if_true]
  refine .cons ⟨by simp [ct, maxChunkWireLen, chunkSize], ?_⟩ .nil
  change decryptChunk primitives (ct 0) key (chunkNonce (header 0).nonce 0) .aes256Gcm
    (chunkAad (headerAad transparent (header 0)) 0) = .ok [0, 0]
  rw [decryptChunk, hdec]

/-- The first file is accepted, and what is written is its plaintext: no chunk of the second file
can take its place. -/
theorem accepted : ∃ x st',
    StreamProg.run (decryptPipeline primitives ((file 0).bytes.length + 2) [])
      ⟨Reader.ofSlice (file 0).bytes, { faults := [] }⟩ = some (x, st') ∧ x = .ok () ∧
      ∃ f ∈ [file 0, file 1],
        (∀ g ∈ [file 0, file 1],
          g.header.preHmacBytes <+: (Reader.ofSlice (file 0).bytes).content ↔ g = f) ∧
        st'.sink.written = f.plaintext := by
  -- the pipeline accepts the bytes of the first file
  obtain ⟨r', hrun⟩ := decryptPipeline_ok (f := file 0) [] ((file 0).bytes.length + 2) rfl
    parse_header opens_file (delivers_ofSlice _) (by simp)
  exact ⟨_, _, hrun, rfl, (decryptPipeline_authentic ideal nodup_header hrun).1 rfl⟩

/-- A writer that fails in the middle of the first chunk leaves one byte of it, which is not a
sequence of whole chunks of either file. -/
theorem torn_chunk : Ideal [file 0, file 1] ∧
    ([file 0, file 1].map SealedFile.header).Nodup ∧
    ∃ x st', StreamProg.run (decryptPipeline primitives ((file 0).bytes.length + 2) [])
        ⟨Reader.ofSlice (file 0).bytes, { faults := [some ⟨.other 28, 1⟩] }⟩ = some (x, st') ∧
      ¬ ∃ f ∈ [file 0, file 1], ∃ k, st'.sink.written = (f.chunks.take k).flatten := by
  have hleft : (StreamProg.run (decryptPipeline primitives ((file 0).bytes.length + 2) [])
      ⟨Reader.ofSlice (file 0).bytes, { faults := [some ⟨.other 28, 1⟩] }⟩).map
        (fun y => y.2.sink.written) = some [0] := by
    decide +kernel
  obtain ⟨⟨x, st'⟩, hrun, hw⟩ := Option.map_eq_some_iff.mp hleft
  refine ⟨ideal, nodup_header, x, st', hrun, ?_⟩
  rintro ⟨f, hf, k, hk⟩
  -- whole chunks of these files have an even length
  have hw : st'.sink.written = [0] := hw
  rw [hw] at hk
  have hlen := congrArg List.length hk
  simp only [List.mem_cons, List.not_mem_nil, or_false] at hf
  obtain rfl | rfl := hf <;> cases k <;> simp [file] at hlen

end TwoFiles

end Cry
