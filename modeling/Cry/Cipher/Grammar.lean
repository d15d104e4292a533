import Cry.Cipher.Frames

/-!
# The file format

What a completed encryption wrote and what the decryption pipeline accepts, as descriptions of
whole byte strings.

`SealedFile` is an encrypted file together with the facts that make it one, and every completed
encryption writes the bytes of one. `Grammar` is the documented file format: a header that
verifies, then exactly as many frames as it commits to, each within the cap and decrypting under
its own nonce and associated data, and nothing else.

## Main results

* `encryptPipeline_eq_ok`: a completed encryption wrote a sealed file of its input;
* `accepts_iff`: the decryptor accepts a grammatical file followed by fewer than four
  bytes, whatever they are, and nothing else;
* `accepts_iff_grammar_iff`: it accepts exactly the documented format on every input that is not a
  grammatical file with one to three bytes appended;
* `truncation_detected`: every strict prefix of an encrypted file is rejected.
-/

namespace Cry

open Rust Effects Framing

variable (P : Primitives)

/-! ## Encrypted files -/

/-- An encrypted file: the chunks of a plaintext, sealed in order under the header that commits
to their number. -/
structure SealedFile where
  key : U8Array 32
  header : Header
  /-- The plaintext chunks. -/
  chunks : List Bytes
  /-- Their ciphertexts. -/
  cts : List Bytes
  chunking : Chunking chunks
  seals : ForallFrom (Seals P key header) 0 chunks cts
  count : header.chunkCount.toNat = chunks.length

namespace SealedFile

variable {P}

/-- The whole plaintext. -/
def plaintext (f : SealedFile P) : Bytes := f.chunks.flatten

/-- The bytes of the file. -/
def bytes (f : SealedFile P) : Bytes := f.header.bytes P f.key ++ frames f.cts

theorem length_cts (f : SealedFile P) : f.cts.length = f.header.chunkCount.toNat := by
  rw [f.count, f.seals.length_eq]

/-- Every ciphertext of an encrypted file is within the cap. -/
theorem length_le (f : SealedFile P) {c : Bytes} (hc : c ∈ f.cts) : c.length ≤ maxChunkWireLen := by
  obtain ⟨j, p, hp, hseal⟩ := f.seals.flip.exists_mem_right hc
  exact hseal.length_le (f.chunking.length_le hp)

end SealedFile

/-- The committed number of chunks is the reported length over the chunk size, rounded up. -/
theorem toNat_committedChunks (plainLen : UInt64) :
    (committedChunks plainLen).toNat = plainLen.toNat ⌈/⌉ chunkSize := by
  have hsize : (UInt64.ofNat chunkSize).toNat = chunkSize :=
    UInt64.toNat_ofNat_of_lt' (by decide)
  have hpos := chunkSize_pos
  have hlt := plainLen.toNat_lt
  have hdiv := Nat.div_add_mod plainLen.toNat chunkSize
  have hmod := Nat.mod_lt plainLen.toNat hpos
  have hquot : plainLen.toNat / chunkSize < 2 ^ 63 := by
    rw [Nat.div_lt_iff_lt_mul hpos, chunkSize]
    omega
  have hrem : plainLen % UInt64.ofNat chunkSize > 0 ↔ plainLen.toNat % chunkSize ≠ 0 := by
    rw [gt_iff_lt, UInt64.lt_iff_toNat_lt, UInt64.toNat_mod, hsize, UInt64.toNat_zero,
      Nat.pos_iff_ne_zero]
  simp only [Nat.ceilDiv_eq_add_pred_div, committedChunks, hrem]
  -- rounding up adds one exactly when there is a remainder, and one more does not overflow
  by_cases hzero : plainLen.toNat % chunkSize = 0
  · rw [if_neg (not_not.mpr hzero), UInt64.toNat_div, hsize]
    symm
    rw [Nat.div_eq_iff hpos]
    rw [hzero, Nat.mul_comm] at hdiv
    omega
  · rw [if_pos hzero, UInt64.toNat_add, UInt64.toNat_div, hsize, UInt64.toNat_one,
      Nat.mod_eq_of_lt (by omega)]
    symm
    rw [Nat.div_eq_iff hpos, Nat.add_mul, Nat.mul_comm]
    omega

variable {P} {E : IoError → Prop}

/-- The comparison of counts accepts exactly equal counts. -/
theorem checkCount_eq_ok_iff {expected got : UInt64} {u : Unit} :
    checkCount expected got = .ok u ↔ got = expected := by
  by_cases h : got = expected <;> simp [checkCount, h]

/-- A completed encryption body wrote the header and the frames of a chunking of its input. -/
theorem encryptBody_eq_ok {fuel : ℕ} {h : Header} {key : U8Array 32} {j : UInt64} {B : Bytes}
    {r : Reader} {sink : Sink} {st' : StreamState} (hr : Offers E B r)
    (hrun : StreamProg.run (encryptBody P fuel h key) ⟨r, sink⟩ = some (.ok j, st')) :
    ∃ ps cs, B = ps.flatten ∧ Chunking ps ∧ ForallFrom (Seals P key h) 0 ps cs ∧
      st'.sink.written = sink.written ++ (h.bytes P key ++ frames cs) ∧ j.toNat = ps.length := by
  rw [encryptBody, Prog.bind_eq, StreamProg.run_bind, Prog.andThen_eq_ok] at hrun
  obtain ⟨_, ⟨r₁, sink₁⟩, hwrite, hchunks⟩ := hrun
  obtain ⟨hreader, hw⟩ := Header.run_write_eq_ok P hwrite
  simp only at hreader hw
  subst hreader
  obtain ⟨ps, cs, hB, hps, hall, hw', hlt, rfl⟩ :=
    encryptLoop_eq_ok (i := 0) (by norm_num) hr hchunks
  refine ⟨ps, cs, hB, hps, hall, by rw [hw', hw, List.append_assoc], ?_⟩
  -- the counter has not wrapped, so it is the number of frames
  rw [Nat.zero_add] at hlt ⊢
  exact UInt64.toNat_ofNat_of_lt' hlt

/-- A completed encryption wrote a sealed file of its input, under the header of the given salt
and nonce that commits to the reported length. -/
theorem encryptPipeline_eq_ok {fuel : ℕ} {passphrase B : Bytes} {algo : Algorithm}
    {salt : U8Array 16} {nonce : U8Array 12} {plainLen : UInt64} {r : Reader} {sink : Sink}
    {u : Unit} {st' : StreamState} (hr : Offers E B r)
    (hrun : StreamProg.run (encryptPipeline P fuel passphrase algo salt nonce plainLen) ⟨r, sink⟩ =
      some (.ok u, st')) :
    ∃ f : SealedFile P, deriveKey P passphrase salt.val = .ok f.key ∧
      f.header = { algo, salt, nonce, chunkCount := committedChunks plainLen } ∧
      f.plaintext = B ∧ st'.sink.written = sink.written ++ f.bytes := by
  simp only [encryptPipeline, Prog.bind_eq, StreamProg.run_bind, StreamProg.run_ofExcept,
    Prog.andThen_eq_ok] at hrun
  obtain ⟨key, st₁, hkey, j, st₂, hbody, hcheck⟩ := hrun
  simp only [Option.some.injEq, Prod.mk.injEq] at hkey hcheck
  obtain ⟨hkey, rfl⟩ := hkey
  obtain ⟨hcheck, rfl⟩ := hcheck
  obtain ⟨ps, cs, rfl, hps, hall, hw, hj⟩ := encryptBody_eq_ok hr hbody
  -- the counts agree, so the header commits to the frames that follow it
  obtain rfl := checkCount_eq_ok_iff.mp hcheck
  exact ⟨⟨key, _, ps, cs, hps, hall, hj⟩, hkey, rfl, rfl, hw⟩

/-- When the key is derived, every chunk can be encrypted, the reported length rounds up to the
number of chunks that are read, and no write fails, the encryption completes. -/
theorem encryptPipeline_ok {fuel : ℕ} {passphrase B : Bytes} {algo : Algorithm}
    {salt : U8Array 16} {nonce : U8Array 12} {plainLen : UInt64} {r : Reader} {sink : Sink}
    {key : U8Array 32} (hkey : deriveKey P passphrase salt.val = .ok key)
    (hencrypt : ∀ nonce msg aad, msg.length ≤ chunkSize →
      ∃ ct, (P.aead algo).encrypt key nonce msg aad = some ct)
    (hlen : plainLen.toNat ⌈/⌉ chunkSize = B.length ⌈/⌉ chunkSize) (hr : Delivers B r)
    (hfuel : r.size < fuel) (hsink : sink.faults = []) :
    ∃ st', StreamProg.run (encryptPipeline P fuel passphrase algo salt nonce plainLen) ⟨r, sink⟩ =
      some (.ok (), st') := by
  have hcommit := toNat_committedChunks plainLen
  have hlt := (committedChunks plainLen).toNat_lt
  let header : Header := { algo, salt, nonce, chunkCount := committedChunks plainLen }
  have hseals : ∀ j p, p.length ≤ chunkSize → ∃ c, Seals P key header j p c := by
    intro j p hp
    obtain ⟨ct, hct⟩ := hencrypt (chunkNonce nonce (UInt64.ofNat j)) p
      (chunkAad (headerAad P header) (UInt64.ofNat j)) hp
    exact ⟨ct, by rw [Seals, encryptChunk, hct]⟩
  have hsink' : { sink with written := sink.written ++ header.bytes P key }.faults = [] := hsink
  obtain ⟨j, st', hloop⟩ := encryptLoop_ok (i := 0) hseals hr hfuel hsink' (by omega)
  have hbody : StreamProg.run (encryptBody P fuel header key) ⟨r, sink⟩ = some (.ok j, st') := by
    rw [encryptBody, Prog.bind_eq, StreamProg.run_bind, Header.run_write_ok _ _ _ _ _ hsink]
    exact hloop
  -- the body has counted what was read, which is what the header committed to
  obtain ⟨ps, cs, rfl, hps, -, -, hj⟩ := encryptBody_eq_ok hr hbody
  have hcount : j = committedChunks plainLen := by
    rw [← UInt64.toNat_inj, hj, hcommit, hlen, hps.length_eq]
  refine ⟨st', ?_⟩
  rw [encryptPipeline, hkey]
  simp only [Prog.ofExcept_ok, Prog.bind_eq, Prog.pure_bind, StreamProg.run_bind]
  rw [hbody, Prog.andThen_ok, StreamProg.run_ofExcept, checkCount_eq_ok_iff.mpr hcount]

/-! ## The decryption pipeline -/

/-- A run of the decryption body: the header is rejected, or the chunk loop ran, wrote what the
frames read so far decrypt to, with a part of the next plaintext when the writer failed, and an
accepting run counted as many frames as committed. -/
theorem decryptBody_eq_some {fuel : ℕ} {key : U8Array 32} {raw : U8Array headerLen}
    {x : Except Stop Unit} {st st' : StreamState}
    (hrun : StreamProg.run (decryptBody P fuel key raw) st = some (x, st')) :
    (∃ e, x = .error (.err e) ∧ st'.sink = st.sink) ∨
      ∃ header cs ps part, Header.parse P key raw.val = some (.ok header) ∧
        ForallFrom (Opens P key header) 0 cs ps ∧
        Torn P key header cs.length x st'.sink part ∧
        st'.sink.written = st.sink.written ++ (ps.flatten ++ part) ∧
        (x = .ok () → cs.length = header.chunkCount.toNat) ∧
        (x = .error .panic → cs.length = 2 ^ 64) ∧
        ∀ B, Supplies B st.reader → ∃ t, B = frames cs ++ t ∧ (x = .ok () → t.length < 4) := by
  obtain ⟨res, hparse, hnopanic⟩ := Header.parse_returns P key raw.property
  rw [decryptBody, hparse] at hrun
  rcases res with e | header
  · obtain ⟨rfl, rfl⟩ := by simpa using hrun
    cases e with
    | err e => exact .inl ⟨e, rfl, rfl⟩
    | panic => exact absurd rfl hnopanic
  · simp only [Prog.ofResult_some, Prog.ofExcept_ok, Prog.bind_eq, Prog.pure_bind,
      StreamProg.run_bind, StreamProg.run_ofExcept, Prog.andThen_eq_some] at hrun
    refine .inr ⟨header, ?_⟩
    -- the loop has ended and the counts are compared, or it has failed
    obtain ⟨j, st₁, hloop, hcheck⟩ | ⟨e, hloop, rfl⟩ := hrun
    · obtain ⟨cs, ps, hall, hw, hlt, rfl, hB⟩ :=
        decryptLoop_eq_ok (i := 0) (by norm_num) hloop
      simp only [Option.some.injEq, Prod.mk.injEq] at hcheck
      obtain ⟨rfl, rfl⟩ := hcheck
      refine ⟨cs, ps, [], hparse, hall, .inl rfl, by rwa [List.append_nil], ?_, ?_,
        fun B hd => ?_⟩
      · intro heq
        rw [← checkCount_eq_ok_iff.mp heq, UInt64.toNat_ofNat_of_lt' hlt, Nat.zero_add]
      · intro hpanic
        unfold checkCount at hpanic
        split at hpanic <;> cases hpanic
      · obtain ⟨t, hBt, ht⟩ := hB B hd
        exact ⟨t, hBt, fun _ => ht⟩
    · obtain ⟨cs, ps, part, hall, htorn, hw, -, hpanic, hB⟩ :=
        decryptLoop_eq_some (i := 0) (by norm_num) hloop
      rw [Nat.zero_add] at htorn
      refine ⟨cs, ps, part, hparse, hall, htorn.of_error, hw, by simp, ?_, fun B hd => ?_⟩
      · rintro heq
        rw [← hpanic (congrArg Except.error (Except.error.inj heq)), Nat.zero_add]
      · obtain ⟨t, hBt, -⟩ := hB B hd
        exact ⟨t, hBt, by simp⟩

/-- The decryption body accepts the committed number of frames that open, also with fewer than
four bytes after them. -/
theorem decryptBody_ok {fuel : ℕ} {key : U8Array 32} (raw : U8Array headerLen) {header : Header}
    {cs ps : List Bytes} {t : Bytes} {r : Reader} (sink : Sink)
    (hparse : Header.parse P key raw.val = some (.ok header))
    (hall : ForallFrom (Opens P key header) 0 cs ps)
    (hcount : cs.length = header.chunkCount.toNat) (ht : t.length < 4)
    (hr : Delivers (frames cs ++ t) r) (hfuel : r.size < fuel) (hsink : sink.faults = []) :
    ∃ r', StreamProg.run (decryptBody P fuel key raw) ⟨r, sink⟩ =
      some (.ok (), ⟨r', { sink with written := sink.written ++ ps.flatten }⟩) := by
  have hlt := header.chunkCount.toNat_lt
  obtain ⟨r', hloop⟩ := decryptLoop_ok hall (by omega) ht hr hfuel hsink
  -- the loop counts in 64 bits, as the header commits
  have hgot : UInt64.ofNat (0 + cs.length) = header.chunkCount := by
    rw [Nat.zero_add, hcount, UInt64.ofNat_toNat]
  have hcheck : checkCount header.chunkCount (UInt64.ofNat (0 + cs.length)) = .ok () :=
    checkCount_eq_ok_iff.mpr hgot
  refine ⟨r', ?_⟩
  rw [decryptBody, hparse]
  change StreamProg.run ((decryptChunks P fuel key header.nonce header.algo
    (headerAad P header)).bind fun j => Prog.ofExcept (checkCount header.chunkCount j)) _ = _
  rw [StreamProg.run_bind, decryptChunks]
  change Prog.andThen (StreamProg.run (decryptLoop P key header.nonce header.algo
    (headerAad P header) fuel (UInt64.ofNat 0)) ⟨r, sink⟩) _ = _
  rw [hloop, Prog.andThen_ok, hcheck, StreamProg.run_ofExcept]

/-- With fuel above the reader's size, the decryption body ends. -/
theorem decryptBody_isSome {fuel : ℕ} (key : U8Array 32) (raw : U8Array headerLen)
    {st : StreamState} (hfuel : st.reader.size < fuel) :
    ∃ x, StreamProg.run (decryptBody P fuel key raw) st = some x := by
  obtain ⟨res, hparse, -⟩ := Header.parse_returns P key raw.property
  rw [decryptBody, hparse]
  rcases res with e | header
  · exact ⟨_, rfl⟩
  · obtain ⟨⟨x, st'⟩, hloop⟩ := decryptLoop_isSome P key header 0 hfuel
    simp only [Prog.ofResult_some, Prog.ofExcept_ok, Prog.bind_eq, Prog.pure_bind,
      StreamProg.run_bind, decryptChunks, hloop]
    cases x with
    | error e => exact ⟨_, rfl⟩
    | ok j => exact ⟨_, by simp only [Prog.andThen_ok, StreamProg.run_ofExcept]; rfl⟩

/-! ## The documented format -/

variable (P) in
/-- The documented file format: a header accepted under the key, then exactly the committed number
of frames, each within the cap and decrypting under its own nonce and associated data. -/
def Grammar (key : U8Array 32) (F plain : Bytes) : Prop :=
  ∃ (raw : U8Array headerLen) (header : Header) (cs ps : List Bytes),
    F = raw.val ++ frames cs ∧ Header.parse P key raw.val = some (.ok header) ∧
      cs.length = header.chunkCount.toNat ∧ ForallFrom (Opens P key header) 0 cs ps ∧
      plain = ps.flatten

variable (P) in
/-- The decryption pipeline, run on a reader and a sink that accepts every write, returns `Ok`
after writing `plain`. -/
def Accepts (fuel : ℕ) (key : U8Array 32) (r : Reader) (plain : Bytes) : Prop :=
  ∃ st', StreamProg.run (decryptWithKey P fuel key) { reader := r } = some (.ok (), st') ∧
    st'.sink.written = plain

/-- The frames of a list of openings fit their length words. -/
theorem length_lt_of_opens {key : U8Array 32} {header : Header} {i : ℕ} {cs ps : List Bytes}
    (hall : ForallFrom (Opens P key header) i cs ps) {c : Bytes} (hc : c ∈ cs) :
    c.length < 2 ^ 32 := by
  obtain ⟨_, _, -, hopen⟩ := hall.exists_mem_right hc
  exact hopen.length_lt

/-- The header of a grammatical file commits to where the file ends: of two grammatical files one
of which extends the other, both are the same. -/
theorem Grammar.append_unique {key : U8Array 32} {F G t plain plain' : Bytes}
    (hF : Grammar P key F plain) (hG : Grammar P key G plain') (h : F = G ++ t) : t = [] := by
  obtain ⟨raw, header, cs, ps, rfl, hparse, hcount, hall, -⟩ := hF
  obtain ⟨raw', header', cs', ps', rfl, hparse', hcount', hall', -⟩ := hG
  rw [List.append_assoc] at h
  obtain ⟨hraw, hrest⟩ := List.append_inj h (by simp)
  rw [hraw, hparse', Option.some.injEq, Except.ok.injEq] at hparse
  subst hparse
  rw [← List.append_nil (frames cs)] at hrest
  exact (frames_append_inj (fun _ => length_lt_of_opens hall) (fun _ => length_lt_of_opens hall')
    (hcount.trans hcount'.symm) hrest).2.symm

/-- With fuel above the reader's size, the decryption pipeline under a given key ends. -/
theorem decryptWithKey_isSome {fuel : ℕ} {key : U8Array 32} {st : StreamState}
    (hfuel : st.reader.size < fuel) :
    ∃ x st', StreamProg.run (decryptWithKey P fuel key) st = some (x, st') := by
  obtain ⟨⟨x, st₁⟩, hraw⟩ : ∃ x, StreamProg.run (readRawHeader fuel) st = some x :=
    run_readExactOr_isSome _ _ hfuel
  obtain ⟨-, ⟨raw, rfl, hsize, -⟩ | ⟨e, rfl⟩⟩ := run_readExactOr_frame hraw
  · have hlt : st₁.reader.size < fuel := by omega
    obtain ⟨⟨y, st'⟩, hbody⟩ := decryptBody_isSome (P := P) key raw hlt
    exact ⟨y, st', by simp [decryptWithKey, hraw, hbody]⟩
  · rw [decryptWithKey, Prog.bind_eq, StreamProg.run_bind, hraw]
    exact ⟨_, _, rfl⟩

/-- The decryptor accepts a grammatical file followed by fewer than four bytes, whatever they are,
and nothing else. -/
theorem accepts_iff {fuel : ℕ} {key : U8Array 32} {F plain : Bytes} {r : Reader}
    (hr : Delivers F r) (hfuel : r.size < fuel) :
    Accepts P fuel key r plain ↔ ∃ G t, F = G ++ t ∧ t.length < 4 ∧ Grammar P key G plain := by
  constructor
  · rintro ⟨st', hrun, hw⟩
    rw [decryptWithKey, Prog.bind_eq, StreamProg.run_bind, Prog.andThen_eq_ok] at hrun
    obtain ⟨raw, st₁, hraw, hbody⟩ := hrun
    obtain ⟨hsink, ⟨_, B, rfl, hx, hd, -⟩ | ⟨e, hx⟩⟩ := run_readExactOr_eq_some hr hraw
    · obtain rfl := Except.ok.inj hx
      -- an accepting run has read the header and then frames, up to fewer than four bytes
      obtain ⟨e, hx, -⟩ | ⟨header, cs, ps, part, hparse, hall, htorn, hw', hcount, -, hB⟩ :=
        decryptBody_eq_some hbody
      · cases hx
      · obtain rfl := htorn.eq_nil_of_ok
        obtain ⟨t, rfl, ht⟩ := hB B hd.supplies
        refine ⟨raw.val ++ frames cs, t, by rw [List.append_assoc], ht rfl, raw, header, cs, ps,
          rfl, hparse, hcount rfl, hall, ?_⟩
        rw [← hw, hw', hsink, List.nil_append, List.append_nil]
    · cases hx
  · rintro ⟨_, t, rfl, ht, raw, header, cs, ps, rfl, hparse, hcount, hall, rfl⟩
    rw [List.append_assoc] at hr
    -- conversely the run reads the header, the frames and stops in the rest
    obtain ⟨r₁, hd, hs, hraw⟩ : ∃ r₁, Delivers (frames cs ++ t) r₁ ∧ r₁.size + headerLen ≤ r.size ∧
        StreamProg.run (readRawHeader fuel) { reader := r } = some (.ok raw, ⟨r₁, {}⟩) :=
      run_readExactOr_ok _ _ {} hr hfuel
    have hlt : r₁.size < fuel := by omega
    obtain ⟨r₂, hbody⟩ := decryptBody_ok raw {} hparse hall hcount ht hd hlt rfl
    exact ⟨_, by rw [decryptWithKey, Prog.bind_eq, StreamProg.run_bind, hraw, Prog.andThen_ok,
      hbody], rfl⟩

/-- The decryption pipeline ends on every input, and it accepts exactly the documented format
unless the input is a grammatical file with one to three bytes appended: these bytes are taken for
the end of the stream. -/
theorem accepts_iff_grammar_iff {fuel : ℕ} {key : U8Array 32} {F : Bytes} {r : Reader}
    (hr : Delivers F r) (hfuel : r.size < fuel) :
    (∃ x st', StreamProg.run (decryptWithKey P fuel key) { reader := r } = some (x, st')) ∧
      ((∀ plain, Accepts P fuel key r plain ↔ Grammar P key F plain) ↔
        ¬ ∃ G t plain, F = G ++ t ∧ 0 < t.length ∧ t.length < 4 ∧ Grammar P key G plain) := by
  refine ⟨decryptWithKey_isSome hfuel, ?_, ?_⟩
  · rintro hiff ⟨G, t, plain, hF, hpos, ht, hG⟩
    have hgram := (hiff plain).mp ((accepts_iff hr hfuel).mpr ⟨G, t, hF, ht, hG⟩)
    -- a file and a proper extension of it are not both grammatical
    rw [hgram.append_unique hG hF] at hpos
    exact Nat.lt_irrefl 0 hpos
  · intro hnone plain
    rw [accepts_iff hr hfuel]
    constructor
    · rintro ⟨G, t, hF, ht, hG⟩
      rcases t.length.eq_zero_or_pos with hzero | hpos
      · rw [List.length_eq_zero_iff.mp hzero, List.append_nil] at hF
        rwa [hF]
      · exact absurd ⟨G, t, plain, hF, hpos, ht, hG⟩ hnone
    · exact fun hG => ⟨F, [], by simp, by simp, hG⟩

/-- The header of an empty file, for evaluating the model. -/
def emptyHeader : Header where
  algo := .aes256Gcm
  salt := checksum 16 []
  nonce := checksum 12 []
  chunkCount := 0

/-- An encrypted empty file is grammatical. -/
theorem grammar_emptyHeader :
    Grammar transparent (checksum 32 []) (emptyHeader.bytes transparent (checksum 32 [])) [] := by
  refine ⟨⟨emptyHeader.bytes transparent (checksum 32 []), by simp⟩, emptyHeader, [], [], by simp,
    ?_, rfl, .nil, rfl⟩
  have hparse := Header.parse_preHmacBytes transparent (checksum 32 []) emptyHeader
    (Header.computeHmac transparent emptyHeader.preHmacBytes (checksum 32 []))
  rwa [if_pos (by simp [transparent, Header.computeHmac])] at hparse

/-- An encrypted empty file is decided by the theorem. -/
theorem accepts_iff_grammar_iff_emptyHeader :
    (∃ x st', StreamProg.run (decryptWithKey transparent 75 (checksum 32 []))
      { reader := Reader.ofSlice (emptyHeader.bytes transparent (checksum 32 [])) } =
        some (x, st')) ∧
      ((∀ plain, Accepts transparent 75 (checksum 32 [])
          (Reader.ofSlice (emptyHeader.bytes transparent (checksum 32 []))) plain ↔
            Grammar transparent (checksum 32 [])
              (emptyHeader.bytes transparent (checksum 32 [])) plain) ↔
        ¬ ∃ G t plain, emptyHeader.bytes transparent (checksum 32 []) = G ++ t ∧ 0 < t.length ∧
          t.length < 4 ∧ Grammar transparent (checksum 32 []) G plain) :=
  accepts_iff_grammar_iff (delivers_ofSlice _)
    (by simp [headerLen, saltLen, nonceLen, hmacLen])

/-- An encrypted empty file with one byte appended is accepted, although it is not
grammatical. -/
theorem trailing_byte_accepted :
    Accepts transparent 76 (checksum 32 [])
        (Reader.ofSlice (emptyHeader.bytes transparent (checksum 32 []) ++ [0])) [] ∧
      ¬ Grammar transparent (checksum 32 [])
        (emptyHeader.bytes transparent (checksum 32 []) ++ [0]) [] := by
  constructor
  · rw [accepts_iff (delivers_ofSlice _)
      (by simp [headerLen, saltLen, nonceLen, hmacLen])]
    exact ⟨_, [0], rfl, by simp, grammar_emptyHeader⟩
  · intro hgram
    exact List.cons_ne_nil _ _ (hgram.append_unique grammar_emptyHeader rfl)

/-! ## Truncation -/

/-- With fuel above the reader's size, the decryption pipeline ends. -/
theorem decryptPipeline_isSome {fuel : ℕ} (passphrase : Bytes) {st : StreamState}
    (hfuel : st.reader.size < fuel) :
    ∃ x st', StreamProg.run (decryptPipeline P fuel passphrase) st = some (x, st') := by
  obtain ⟨⟨x, st₁⟩, hraw⟩ : ∃ x, StreamProg.run (readRawHeader fuel) st = some x :=
    run_readExactOr_isSome _ _ hfuel
  rw [decryptPipeline, Prog.bind_eq, StreamProg.run_bind, hraw]
  obtain ⟨-, ⟨raw, rfl, hsize, -⟩ | ⟨e, rfl⟩⟩ := run_readExactOr_frame hraw
  · simp only [Prog.andThen_ok, Prog.bind_eq, StreamProg.run_bind, StreamProg.run_ofExcept]
    cases deriveKey P passphrase (rawSalt raw) with
    | error e => exact ⟨_, _, rfl⟩
    | ok key =>
      have hlt : st₁.reader.size < fuel := by omega
      obtain ⟨⟨y, st'⟩, hbody⟩ := decryptBody_isSome (P := P) key raw hlt
      exact ⟨y, st', by simp [hbody]⟩
  · exact ⟨_, _, rfl⟩

/-- A run of the decryption pipeline: it fails before the chunk loop, without having written
anything, or the loop ran under the derived key and the parsed header, and wrote whole plaintexts
and, when the writer failed, a part of the next one. -/
theorem decryptPipeline_eq_some {fuel : ℕ} {passphrase : Bytes} {x : Except Stop Unit}
    {st st' : StreamState}
    (hrun : StreamProg.run (decryptPipeline P fuel passphrase) st = some (x, st')) :
    (∃ e, x = .error (.err e) ∧ st'.sink = st.sink) ∨
      ∃ (raw : U8Array headerLen) (key : U8Array 32) (header : Header) (cs ps : List Bytes)
          (part : Bytes),
        raw.val <+: st.reader.content ∧ deriveKey P passphrase (rawSalt raw) = .ok key ∧
        Header.parse P key raw.val = some (.ok header) ∧
        ForallFrom (Opens P key header) 0 cs ps ∧
        Torn P key header cs.length x st'.sink part ∧
        st'.sink.written = st.sink.written ++ (ps.flatten ++ part) ∧
        (x = .ok () → cs.length = header.chunkCount.toNat) ∧
        (x = .error .panic → cs.length = 2 ^ 64) ∧
        ∀ F, Supplies F st.reader → ∃ t, F = raw.val ++ (frames cs ++ t) ∧
          (x = .ok () → t.length < 4) := by
  rw [decryptPipeline, Prog.bind_eq, StreamProg.run_bind, Prog.andThen_eq_some] at hrun
  obtain ⟨raw, st₁, hraw, hrest⟩ | ⟨e, hraw, rfl⟩ := hrun
  · have hfirst : st₁.sink = st.sink ∧ raw.val <+: st.reader.content := by
      obtain ⟨hsink, ⟨_, hx, -, hcontent⟩ | ⟨_, hx⟩⟩ := run_readExactOr_frame hraw
      · obtain rfl := Except.ok.inj hx
        exact ⟨hsink, hcontent ▸ List.prefix_append _ _⟩
      · cases hx
    obtain ⟨hsink, hfirst⟩ := hfirst
    -- the key comes from the salt, which is read off before the header is parsed
    cases hkey : deriveKey P passphrase (rawSalt raw) with
    | error e =>
      obtain ⟨msg, rfl⟩ := deriveKey_eq_error hkey
      rw [hkey] at hrest
      obtain ⟨rfl, rfl⟩ := by simpa using hrest
      exact .inl ⟨_, rfl, hsink⟩
    | ok key =>
      rw [hkey, Prog.ofExcept_ok, Prog.bind_eq, Prog.pure_bind] at hrest
      obtain ⟨e, rfl, hsink'⟩ |
          ⟨header, cs, ps, part, hparse, hall, htorn, hw, hcount, hpanic, hB⟩ :=
        decryptBody_eq_some hrest
      · exact .inl ⟨e, rfl, hsink'.trans hsink⟩
      · refine .inr ⟨raw, key, header, cs, ps, part, hfirst, hkey, hparse, hall, htorn,
          by rw [hw, hsink], hcount, hpanic, fun F hF => ?_⟩
        obtain ⟨-, ⟨_, B, rfl, hx, hd, -⟩ | ⟨e, hx⟩⟩ := run_readExactOr_eq_some hF hraw
        · obtain rfl := Except.ok.inj hx
          obtain ⟨t, rfl, ht⟩ := hB B hd
          exact ⟨t, rfl, ht⟩
        · cases hx
  · obtain ⟨hsink, ⟨_, hx, -⟩ | ⟨_, hx⟩⟩ := run_readExactOr_frame hraw
    · cases hx
    · obtain rfl := Except.error.inj hx
      exact .inl ⟨_, rfl, hsink⟩

/-- The salt of a serialised header is found at its offset. -/
theorem rawSalt_bytes (h : Header) (key : U8Array 32) :
    rawSalt ⟨h.bytes P key, by simp⟩ = h.salt.val := by
  change ((h.bytes P key).drop (4 + 1)).take saltLen = h.salt.val
  rw [Header.bytes, Header.preHmacBytes_append]
  simp [magic, saltLen]

/-- An encrypted file whose header is parsed back and whose frames open is accepted and decrypted
under the passphrase its key was derived from. -/
theorem decryptPipeline_ok {f : SealedFile P} (passphrase : Bytes) (fuel : ℕ) {r : Reader}
    (hkey : deriveKey P passphrase f.header.salt.val = .ok f.key)
    (hparse : Header.parse P f.key (f.header.bytes P f.key) = some (.ok f.header))
    (hopens : ForallFrom (Opens P f.key f.header) 0 f.cts f.chunks) (hr : Delivers f.bytes r)
    (hfuel : r.size < fuel) :
    ∃ r', StreamProg.run (decryptPipeline P fuel passphrase) { reader := r } =
      some (.ok (), ⟨r', { written := f.plaintext }⟩) := by
  let raw : U8Array headerLen := ⟨f.header.bytes P f.key, by simp⟩
  have hbody : Delivers (raw.val ++ (frames f.cts ++ [])) r := by
    rwa [List.append_nil]
  obtain ⟨r₁, hd, hs, hraw⟩ : ∃ r₁, Delivers (frames f.cts ++ []) r₁ ∧
      r₁.size + headerLen ≤ r.size ∧
      StreamProg.run (readRawHeader fuel) { reader := r } = some (.ok raw, ⟨r₁, {}⟩) :=
    run_readExactOr_ok _ _ {} hbody hfuel
  have hlt : r₁.size < fuel := by omega
  obtain ⟨r₂, hrun⟩ := decryptBody_ok raw {} hparse hopens f.length_cts (by simp) hd hlt rfl
  refine ⟨r₂, ?_⟩
  rw [decryptPipeline, Prog.bind_eq, StreamProg.run_bind, hraw, Prog.andThen_ok,
    rawSalt_bytes f.header f.key, hkey, Prog.ofExcept_ok, Prog.bind_eq, Prog.pure_bind]
  exact hrun

/-- A raw header that is parsed and starts an encrypted file carries the header of that file. -/
theorem SealedFile.header_of_parse {f : SealedFile P} {key : U8Array 32} {raw : U8Array headerLen}
    {header : Header} {t u : Bytes} (hparse : Header.parse P key raw.val = some (.ok header))
    (h : raw.val ++ t = f.bytes ++ u) : header = f.header ∧ t = frames f.cts ++ u := by
  rw [SealedFile.bytes, List.append_assoc] at h
  obtain ⟨hraw, hrest⟩ := List.append_inj h (by simp)
  obtain ⟨tag, htag, -⟩ := (Header.parse_eq_ok_iff P raw.property).mp hparse
  rw [htag, Header.bytes] at hraw
  exact ⟨(Header.preHmacBytes_append_inj hraw).1, hrest⟩

/-- Every strict prefix of a file that a completed encryption wrote is rejected with an error,
under every passphrase and whatever the schedules of reader and sink. This rests on the length of
a ciphertext, `Aead.encrypt_length`: a frame the encryption wrote is within the cap, so its length
word is not cut to 32 bits and the frames of the prefix are those of the file. -/
theorem truncation_detected {fuel fuel' : ℕ} {passphrase passphrase' B F' : Bytes}
    {algo : Algorithm} {salt : U8Array 16} {nonce : U8Array 12} {plainLen : UInt64}
    {r r' : Reader} {faults : List (Option WriteFault)} {sink' : Sink} {st' : StreamState}
    (hr : Delivers B r)
    (hrun : StreamProg.run (encryptPipeline P fuel passphrase algo salt nonce plainLen)
      ⟨r, { faults }⟩ = some (.ok (), st'))
    (hfirst : F' <+: st'.sink.written) (hne : F' ≠ st'.sink.written)
    (hr' : Delivers F' r') (hfuel : r'.size < fuel') :
    ∃ e st'', StreamProg.run (decryptPipeline P fuel' passphrase') ⟨r', sink'⟩ =
      some (.error (.err e), st'') := by
  obtain ⟨f, -, -, -, hw⟩ := encryptPipeline_eq_ok hr hrun
  obtain ⟨u, hu⟩ := hfirst
  rw [hw, List.nil_append] at hu hne
  have hstart : (⟨r', sink'⟩ : StreamState).reader.size < fuel' := hfuel
  obtain ⟨x, st'', hdec⟩ := decryptPipeline_isSome (P := P) passphrase' hstart
  refine (decryptPipeline_eq_some hdec).elim (fun ⟨e, hx, _⟩ => ⟨e, st'', by rw [hdec, hx]⟩) ?_
  rintro ⟨raw, key, header, cs, ps, part, -, -, hparse, hall, -, -, hcount, hpanic, hF⟩
  -- whatever the passphrase, the header and the frames that were read start the file
  obtain ⟨t, rfl, -⟩ := hF F' hr'.supplies
  rw [List.append_assoc, ← List.append_nil f.bytes] at hu
  obtain ⟨rfl, hrest⟩ := SealedFile.header_of_parse hparse hu
  rw [List.append_nil, List.append_assoc] at hrest
  -- as many frames as the header commits to would leave nothing of the file over
  have hfew : cs.length < f.cts.length := by
    by_contra hle
    have hnil := frames_append_eq (fun _ => length_lt_of_opens hall)
      (fun _ hc => (f.length_le hc).trans_lt maxChunkWireLen_lt) (by omega) hrest
    rw [(List.append_eq_nil_iff.mp hnil).2, List.append_nil, List.append_nil] at hu
    exact hne hu
  have hcts := f.length_cts
  have hlt := f.header.chunkCount.toNat_lt
  -- too few frames for `Ok`, and for the overflow of the counter
  match x with
  | .ok () =>
    have := hcount rfl
    omega
  | .error .panic =>
    have := hpanic rfl
    omega
  | .error (.err e) => exact ⟨e, st'', hdec⟩

/-- Truncating an encrypted file of three bytes by one byte is detected. -/
theorem truncation_detected_example :
    ∃ st', StreamProg.run (encryptPipeline transparent 5 [] .aes256Gcm (checksum 16 [])
        (checksum 12 []) 3) ⟨Reader.ofSlice [1, 2, 3], {}⟩ = some (.ok (), st') ∧
      ∃ e st'', StreamProg.run (decryptPipeline transparent (st'.sink.written.length + 2) [])
        ⟨Reader.ofSlice st'.sink.written.dropLast, {}⟩ = some (.error (.err e), st'') := by
  have hlen : (3 : UInt64).toNat ⌈/⌉ chunkSize = ([1, 2, 3] : Bytes).length ⌈/⌉ chunkSize :=
    congrArg (· ⌈/⌉ chunkSize) (show (3 : UInt64).toNat = 3 by decide)
  obtain ⟨st', hrun⟩ : ∃ st', StreamProg.run (encryptPipeline transparent 5 [] .aes256Gcm
      (checksum 16 []) (checksum 12 []) 3) ⟨Reader.ofSlice [1, 2, 3], {}⟩ = some (.ok (), st') :=
    encryptPipeline_ok rfl (fun _ _ _ _ => ⟨_, rfl⟩) hlen (delivers_ofSlice [1, 2, 3])
      (by simp) rfl
  have hne : st'.sink.written.dropLast ≠ st'.sink.written := by
    obtain ⟨f, -, -, -, hw⟩ := encryptPipeline_eq_ok (delivers_ofSlice [1, 2, 3]) hrun
    have hlen := congrArg List.length hw
    have hheader := f.header.length_bytes transparent f.key
    intro heq
    have hdrop := congrArg List.length heq
    simp only [List.nil_append, SealedFile.bytes, List.length_append, List.length_dropLast,
      hheader, headerLen] at hlen hdrop
    omega
  exact ⟨st', hrun, truncation_detected (delivers_ofSlice [1, 2, 3]) hrun
    (List.dropLast_prefix _) hne (delivers_ofSlice _)
    (by rw [Reader.size_ofSlice, List.length_dropLast]; omega)⟩

end Cry
