import Cry.Cipher.Reference
import Cry.Cipher.Grammar

/-!
# What the pipelines compute

Each pipeline has one outcome, its result and the bytes it writes, for each content of its input,
whatever parts the reader hands the content over in. Here the outcomes are described on whole byte
strings: the encrypted body chunk by chunk up to the first one that cannot be sealed, the decrypted
body frame by frame up to the first defect, with the error that the defect causes.

## Main results

* `SealsBody.run`, `exists_sealsBody`: the encryption loop has the described outcome;
* `ReadsBody.run`, `exists_readsBody`: so has the decryption loop;
* `decryptPipeline_iff_decodes`: the decryption pipeline ends with a result and written bytes
  exactly when the described outcome is this one.
-/

namespace Cry

open Rust Effects Framing

variable (P : Primitives)

/-! ## Encryption -/

/-- Sealing the chunks from index `i` on ends with the result after writing the bytes. -/
inductive SealsBody (key : U8Array 32) (h : Header) :
    ℕ → List Bytes → Except Stop UInt64 → Bytes → Prop
  /-- All chunks are sealed. -/
  | done {i : ℕ} : SealsBody key h i [] (.ok (UInt64.ofNat i)) []
  /-- A chunk cannot be sealed. -/
  | refused {i : ℕ} {p : Bytes} {ps : List Bytes} : (∀ c, ¬Seals P key h i p c) →
      SealsBody key h i (p :: ps) (.error (.err .encryptionFailed)) []
  /-- The counter overflows after the frame has been written. -/
  | overflow {i : ℕ} {p c : Bytes} {ps : List Bytes} : Seals P key h i p c → i + 1 = 2 ^ 64 →
      SealsBody key h i (p :: ps) (.error .panic) (frame c)
  /-- A chunk is sealed and written. -/
  | chunk {i : ℕ} {p c W : Bytes} {ps : List Bytes} {x : Except Stop UInt64} :
      Seals P key h i p c → i + 1 < 2 ^ 64 → SealsBody key h (i + 1) ps x W →
      SealsBody key h i (p :: ps) x (frame c ++ W)

/-! ## Decryption -/

/-- Decrypting a body whose first frame has index `i` ends with the result after writing the
bytes. -/
inductive ReadsBody (key : U8Array 32) (h : Header) :
    ℕ → Bytes → Except Stop UInt64 → Bytes → Prop
  /-- Fewer than four bytes are taken for the end of the stream. -/
  | done {i : ℕ} {t : Bytes} : t.length < 4 → ReadsBody key h i t (.ok (UInt64.ofNat i)) []
  /-- A length is above the cap. -/
  | suspicious {i : ℕ} {len : U8Array 4} {t : Bytes} :
      maxChunkWireLen < (BigEndian.toU32 len).toNat →
      ReadsBody key h i (len.val ++ t)
        (.error (.err (.suspiciousChunkLen (UInt64.ofNat i) (BigEndian.toU32 len).toNat))) []
  /-- The stream ends within a ciphertext. -/
  | cut {i : ℕ} {len : U8Array 4} {t : Bytes} :
      (BigEndian.toU32 len).toNat ≤ maxChunkWireLen → t.length < (BigEndian.toU32 len).toNat →
      ReadsBody key h i (len.val ++ t) (.error (.err (.io .unexpectedEof))) []
  /-- A frame does not open. -/
  | forged {i : ℕ} {c t : Bytes} : c.length ≤ maxChunkWireLen → (∀ p, ¬Opens P key h i c p) →
      ReadsBody key h i (frame c ++ t) (.error (.err .decryptionFailed)) []
  /-- The counter overflows after the plaintext has been written. -/
  | overflow {i : ℕ} {c p t : Bytes} : Opens P key h i c p → i + 1 = 2 ^ 64 →
      ReadsBody key h i (frame c ++ t) (.error .panic) p
  /-- A frame opens and its plaintext is written. -/
  | frame {i : ℕ} {c p t W : Bytes} {x : Except Stop UInt64} : Opens P key h i c p →
      i + 1 < 2 ^ 64 → ReadsBody key h (i + 1) t x W → ReadsBody key h i (frame c ++ t) x (p ++ W)

/-- Reading the header of a file gives the key, the header and the body, or fails. -/
inductive ReadsHeader (passphrase : Bytes) :
    Bytes → Except Stop (U8Array 32 × Header × Bytes) → Prop
  | short {F : Bytes} : F.length < headerLen → ReadsHeader passphrase F
      (.error (.err (.invalidFormat "File too short to contain a valid header")))
  | kdf {raw : U8Array headerLen} {t : Bytes} {e : Stop} :
      deriveKey P passphrase (rawSalt raw) = .error e →
      ReadsHeader passphrase (raw.val ++ t) (.error e)
  | refused {raw : U8Array headerLen} {key : U8Array 32} {t : Bytes} {e : Stop} :
      deriveKey P passphrase (rawSalt raw) = .ok key →
      Header.parse P key raw.val = some (.error e) →
      ReadsHeader passphrase (raw.val ++ t) (.error e)
  | accepted {raw : U8Array headerLen} {key : U8Array 32} {header : Header} {t : Bytes} :
      deriveKey P passphrase (rawSalt raw) = .ok key →
      Header.parse P key raw.val = some (.ok header) →
      ReadsHeader passphrase (raw.val ++ t) (.ok (key, header, t))

/-- Decrypting a file under a passphrase ends with the result after writing the bytes. -/
inductive Decodes (passphrase : Bytes) : Bytes → Except Stop Unit → Bytes → Prop
  /-- The header is refused, and nothing is written. -/
  | refused {F : Bytes} {e : Stop} : ReadsHeader P passphrase F (.error e) →
      Decodes passphrase F (.error e) []
  /-- The body is decrypted, and its frames are counted. -/
  | body {F t W : Bytes} {key : U8Array 32} {header : Header} {x : Except Stop UInt64} :
      ReadsHeader P passphrase F (.ok (key, header, t)) → ReadsBody P key header 0 t x W →
      Decodes passphrase F (x.bind (checkCount header.chunkCount)) W

variable {P} {key : U8Array 32} {h : Header}

/-! ## The encryption loop -/

/-- A chunk that cannot be sealed is an encryption failure. -/
theorem encryptChunk_of_not_seals {i : ℕ} {p : Bytes} (hp : ∀ c, ¬Seals P key h i p c) :
    encryptChunk P p key (chunkNonce h.nonce (UInt64.ofNat i)) h.algo
      (chunkAad (headerAad P h) (UInt64.ofNat i)) = .error (.err .encryptionFailed) := by
  cases hc : encryptChunk P p key (chunkNonce h.nonce (UInt64.ofNat i)) h.algo
      (chunkAad (headerAad P h) (UInt64.ofNat i)) with
  | ok c => exact absurd hc (hp c)
  | error e =>
    unfold encryptChunk at hc
    split at hc
    · cases hc
    · rw [← hc]

/-- A first chunk is short and the only one, or full. -/
theorem Chunking.cons_cases {p : Bytes} {ps : List Bytes} (hps : Chunking (p :: ps)) :
    (ps = [] ∧ p ≠ [] ∧ p.length < chunkSize) ∨ p.length = chunkSize ∧ Chunking ps := by
  cases hps with
  | last hne hlt => exact .inl ⟨rfl, hne, hlt⟩
  | full heq hps => exact .inr ⟨heq, hps⟩

/-- The first chunk is what a read of chunk size takes, and it is not empty. -/
theorem Chunking.take_flatten {p : Bytes} {ps : List Bytes} (hps : Chunking (p :: ps)) :
    (p :: ps).flatten.take chunkSize = p ∧ (p :: ps).flatten.drop chunkSize = ps.flatten ∧
      (p :: ps).flatten ≠ [] := by
  have hpos := chunkSize_pos
  rw [List.flatten_cons]
  obtain ⟨rfl, hne, hlt⟩ | ⟨heq, -⟩ := hps.cons_cases
  · rw [List.flatten_nil, List.append_nil, List.take_of_length_le hlt.le,
      List.drop_of_length_le hlt.le]
    exact ⟨rfl, rfl, hne⟩
  · refine ⟨List.take_left' heq, List.drop_left' heq, fun hnil => ?_⟩
    have hlen := congrArg List.length (List.append_eq_nil_iff.mp hnil).1
    rw [heq, List.length_nil] at hlen
    omega

/-- There are no more chunks than bytes. -/
theorem Chunking.length_le_flatten {ps : List Bytes} (hps : Chunking ps) :
    ps.length ≤ ps.flatten.length := by
  have hpos := chunkSize_pos
  induction hps with
  | nil => exact le_rfl
  | last hne hlt => simpa [Nat.one_le_iff_ne_zero] using hne
  | full heq _ ih =>
    rw [List.flatten_cons, List.length_append, List.length_cons]
    omega

/-- A round of the encryption loop that does not count its chunk: it cannot be sealed, or it is
sealed and written and the counter is at its maximum. -/
theorem run_encryptLoop_stop {fuel i : ℕ} {B : Bytes} {r : Reader} {sink : Sink} (hne : B ≠ [])
    (hi : i < 2 ^ 64) (hr : Delivers B r) (hfuel : r.size < fuel + 1) (hsink : sink.faults = []) :
    ((∀ c, ¬Seals P key h i (B.take chunkSize) c) → ∃ r', StreamProg.run
      (encryptLoop P key h.nonce h.algo (headerAad P h) (fuel + 1) (UInt64.ofNat i)) ⟨r, sink⟩ =
        some (.error (.err .encryptionFailed), ⟨r', sink⟩)) ∧
    ∀ c, Seals P key h i (B.take chunkSize) c → i + 1 = 2 ^ 64 → ∃ r', StreamProg.run
      (encryptLoop P key h.nonce h.algo (headerAad P h) (fuel + 1) (UInt64.ofNat i)) ⟨r, sink⟩ =
        some (.error .panic, ⟨r', { sink with written := sink.written ++ frame c }⟩) := by
  have hpos := chunkSize_pos
  have hB := List.length_pos_iff.mpr hne
  have htake : (B.take chunkSize).length = min chunkSize B.length := List.length_take
  obtain ⟨r', -, -, hread⟩ := run_readChunk_ok chunkSize sink hr hfuel
  constructor
  · intro hp
    refine ⟨r', ?_⟩
    simp only [encryptLoop, Prog.bind_eq, StreamProg.run_bind, hread, Prog.andThen_ok]
    rw [if_neg (by omega), encryptChunk_of_not_seals hp]
    rfl
  · intro c hc hmax
    have hnext : nextIndex (UInt64.ofNat i) = .error .panic := by
      rw [nextIndex_ofNat hi, if_neg (by omega)]
    refine ⟨r', ?_⟩
    simp only [encryptLoop, Prog.bind_eq, StreamProg.run_bind, hread, Prog.andThen_ok]
    rw [if_neg (by omega), hc]
    simp only [StreamProg.run_bind, hnext, run_writeAll, Sink.writeAll, hsink, ofIo_ok,
      Prog.ofExcept_ok, Prog.pure_bind, Prog.andThen_ok, List.append_assoc]
    rfl

/-- The encryption loop, on a reader that delivers the chunks in whatever parts, has the described
outcome. -/
theorem SealsBody.run {i : ℕ} {ps : List Bytes} {x : Except Stop UInt64} {W : Bytes}
    (hbody : SealsBody P key h i ps x W) (hps : Chunking ps) (hi : i < 2 ^ 64) (fuel : ℕ)
    {r : Reader} (sink : Sink) (hr : Delivers ps.flatten r) (hfuel : r.size < fuel)
    (hsink : sink.faults = []) :
    ∃ r', StreamProg.run
      (encryptLoop P key h.nonce h.algo (headerAad P h) fuel (UInt64.ofNat i)) ⟨r, sink⟩ =
        some (x, ⟨r', { sink with written := sink.written ++ W }⟩) := by
  obtain ⟨fuel, rfl⟩ : ∃ n, fuel = n + 1 := ⟨fuel - 1, by omega⟩
  -- induction on the outcome, with one round of the loop per chunk
  induction hbody generalizing r sink fuel with
  | done =>
    rw [List.append_nil]
    exact run_encryptLoop_nil _ sink hr hfuel
  | refused hp =>
    obtain ⟨htake, -, hne⟩ := hps.take_flatten
    rw [← htake] at hp
    rw [List.append_nil]
    exact (run_encryptLoop_stop hne hi hr hfuel hsink).1 hp
  | overflow hc hmax =>
    obtain ⟨htake, -, hne⟩ := hps.take_flatten
    rw [← htake] at hc
    exact (run_encryptLoop_stop hne hi hr hfuel hsink).2 _ hc hmax
  | @chunk i p c W ps x hc hlt hrest ih =>
    obtain ⟨htake, hdrop, hne⟩ := hps.take_flatten
    rw [← htake] at hc
    obtain ⟨r₁, hd, hs, hround⟩ := run_encryptLoop_succ hne hc hlt hr hfuel hsink
    rw [hdrop] at hd
    have hsink' : { sink with written := sink.written ++ frame c }.faults = [] := hsink
    obtain ⟨rfl, -, hshort⟩ | ⟨hfull, hps'⟩ := hps.cons_cases
    · -- a short chunk is the last one
      cases hrest
      rw [if_pos (by simpa using hshort)] at hround
      exact ⟨r₁, by rw [hround, List.append_nil]⟩
    · rw [if_neg (by rw [List.flatten_cons, List.length_append]; omega)] at hround
      obtain ⟨fuel, rfl⟩ : ∃ n, fuel = n + 1 := ⟨fuel - 1, by omega⟩
      obtain ⟨r', hrun⟩ := ih hps' hlt _ hd hsink' fuel (by omega)
      exact ⟨r', by rw [hround, hrun, List.append_assoc]⟩

/-- The chunks from index `i` on have an outcome. -/
theorem exists_sealsBody (P : Primitives) (key : U8Array 32) (h : Header) {i : ℕ} (hi : i < 2 ^ 64)
    (ps : List Bytes) : ∃ x W, SealsBody P key h i ps x W := by
  induction ps generalizing i with
  | nil => exact ⟨_, _, .done⟩
  | cons p ps ih =>
    by_cases hp : ∃ c, Seals P key h i p c
    · obtain ⟨c, hc⟩ := hp
      rcases Nat.lt_or_ge (i + 1) (2 ^ 64) with hlt | hge
      · obtain ⟨x, W, hrest⟩ := ih hlt
        exact ⟨x, _, .chunk hc hlt hrest⟩
      · exact ⟨_, _, .overflow hc (by omega)⟩
    · exact ⟨_, _, .refused (not_exists.mp hp)⟩

/-- The frames are 20 bytes longer than their chunks at most. -/
theorem SealsBody.length_le {i : ℕ} {ps : List Bytes} {x : Except Stop UInt64} {W : Bytes}
    (hbody : SealsBody P key h i ps x W) : W.length ≤ ps.flatten.length + 20 * ps.length := by
  have hframe : ∀ {i : ℕ} {p c : Bytes}, Seals P key h i p c →
      (frame c).length = p.length + 20 := by
    intro i p c hc
    rw [frame, List.length_append, BigEndian.length_ofU32, hc.length_eq]
    omega
  induction hbody with
  | done => simp
  | refused => simp
  | overflow hc hi =>
    rw [hframe hc, List.flatten_cons, List.length_append, List.length_cons]
    omega
  | chunk hc hi hrest ih =>
    rw [List.length_append, hframe hc, List.flatten_cons, List.length_append, List.length_cons]
    omega

/-- With an index below its maximum for every chunk, the counter does not overflow. -/
theorem SealsBody.ne_panic {i : ℕ} {ps : List Bytes} {x : Except Stop UInt64} {W : Bytes}
    (hbody : SealsBody P key h i ps x W) (hcount : i + ps.length < 2 ^ 64) :
    x ≠ .error .panic := by
  induction hbody with
  | done =>
    intro h
    cases h
  | refused =>
    intro h
    cases h
  | overflow hc hi =>
    rw [List.length_cons] at hcount
    omega
  | chunk hc hi hrest ih =>
    rw [List.length_cons] at hcount
    exact ih (by omega)

/-- Chunks that are all sealed make up the body of an encrypted file. -/
theorem SealsBody.of_ok {i : ℕ} {ps : List Bytes} {x : Except Stop UInt64} {W : Bytes} {n : UInt64}
    (hbody : SealsBody P key h i ps x W) (hx : x = .ok n) :
    n = UInt64.ofNat (i + ps.length) ∧ ∃ cs, ForallFrom (Seals P key h) i ps cs ∧
      W = frames cs := by
  induction hbody with
  | done => exact ⟨(Except.ok.inj hx).symm, [], .nil, rfl⟩
  | refused => cases hx
  | overflow => cases hx
  | chunk hc hi hrest ih =>
    obtain ⟨rfl, cs, hall, rfl⟩ := ih hx
    refine ⟨?_, _, .cons hc hall, (frames_cons _ _).symm⟩
    rw [List.length_cons, Nat.add_right_comm, Nat.add_assoc]

/-! ## The decryption loop -/

/-- A frame within the cap that does not open is a decryption failure. -/
theorem decryptChunk_of_not_opens {i : ℕ} {c : Bytes} (hcap : c.length ≤ maxChunkWireLen)
    (hc : ∀ p, ¬Opens P key h i c p) :
    decryptChunk P c key (chunkNonce h.nonce (UInt64.ofNat i)) h.algo
      (chunkAad (headerAad P h) (UInt64.ofNat i)) = .error (.err .decryptionFailed) := by
  cases hp : decryptChunk P c key (chunkNonce h.nonce (UInt64.ofNat i)) h.algo
      (chunkAad (headerAad P h) (UInt64.ofNat i)) with
  | ok p => exact absurd ⟨hcap, hp⟩ (hc p)
  | error e =>
    unfold decryptChunk at hp
    split at hp
    · cases hp
    · rw [← hp]

/-- With too few bytes left, a mapped `read_exact` reports the end of the stream. -/
theorem run_readExactOr_short {fuel : ℕ} (len : ℕ) (onError : IoError → Stop) {B : Bytes}
    {r : Reader} (sink : Sink) (hr : Delivers B r) (hfuel : r.size < fuel)
    (hshort : B.length < len) :
    ∃ r', StreamProg.run (readExactOr fuel len onError) ⟨r, sink⟩ =
      some (.error (onError .unexpectedEof), ⟨r', sink⟩) := by
  obtain ⟨r', hrun⟩ := run_readExact_short (ε := Stop) len sink hr hfuel hshort
  exact ⟨r', by simp [readExactOr, hrun]⟩

/-- A length word is read, and the frame is refused: its length is above the cap, or the stream is
shorter. -/
theorem run_readFrame_refused {fuel : ℕ} {i : UInt64} {len : U8Array 4} {t : Bytes} {r : Reader}
    (sink : Sink) (hr : Delivers (len.val ++ t) r) (hfuel : r.size < fuel) :
    (maxChunkWireLen < (BigEndian.toU32 len).toNat → ∃ r',
      StreamProg.run (readFrame fuel i) ⟨r, sink⟩ =
        some (.error (.err (.suspiciousChunkLen i (BigEndian.toU32 len).toNat)), ⟨r', sink⟩)) ∧
    ((BigEndian.toU32 len).toNat ≤ maxChunkWireLen → t.length < (BigEndian.toU32 len).toNat →
      ∃ r', StreamProg.run (readFrame fuel i) ⟨r, sink⟩ =
        some (.error (.err (.io .unexpectedEof)), ⟨r', sink⟩)) := by
  obtain ⟨r₁, hd, hs, hlen⟩ := run_readExact_ok (ε := Stop) sink hr hfuel
  constructor
  · intro hcap
    refine ⟨r₁, ?_⟩
    rw [readFrame, StreamProg.run_bind, hlen]
    simp only [Prog.andThen_ok, if_pos hcap, StreamProg.run_throw]
  · intro hcap hshort
    obtain ⟨r₂, hct⟩ := run_readExactOr_short _ (fun e => .err (.io e)) sink hd
      (show r₁.size < fuel by omega) hshort
    refine ⟨r₂, ?_⟩
    rw [readFrame, StreamProg.run_bind, hlen]
    simp only [Prog.andThen_ok, if_neg (not_lt.mpr hcap), StreamProg.run_bind, hct,
      Prog.andThen_error]

/-- The decryption loop, on a reader that delivers the body in whatever parts, has the described
outcome. -/
theorem ReadsBody.run {i : ℕ} {F : Bytes} {x : Except Stop UInt64} {W : Bytes}
    (hbody : ReadsBody P key h i F x W) (hi : i < 2 ^ 64) (fuel : ℕ) {r : Reader} (sink : Sink)
    (hr : Delivers F r) (hfuel : r.size < fuel) (hsink : sink.faults = []) :
    ∃ r', StreamProg.run
      (decryptLoop P key h.nonce h.algo (headerAad P h) fuel (UInt64.ofNat i)) ⟨r, sink⟩ =
        some (x, ⟨r', { sink with written := sink.written ++ W }⟩) := by
  obtain ⟨fuel, rfl⟩ : ∃ n, fuel = n + 1 := ⟨fuel - 1, by omega⟩
  -- induction on the outcome, with one round of the loop per frame
  induction hbody generalizing r sink fuel with
  | @done i t ht =>
    obtain ⟨r', hread⟩ := run_readFrame_short (i := UInt64.ofNat i) sink ht hr hfuel
    exact ⟨r', by simp [decryptLoop_succ, hread]⟩
  | @suspicious i len t hcap =>
    obtain ⟨r', hread⟩ := (run_readFrame_refused (i := UInt64.ofNat i) sink hr hfuel).1 hcap
    exact ⟨r', by simp [decryptLoop_succ, hread]⟩
  | @cut i len t hcap hshort =>
    obtain ⟨r', hread⟩ := (run_readFrame_refused (i := UInt64.ofNat i) sink hr hfuel).2 hcap hshort
    exact ⟨r', by simp [decryptLoop_succ, hread]⟩
  | @forged i c t hcap hc =>
    obtain ⟨r', -, -, hread⟩ := run_readFrame_ok (i := UInt64.ofNat i) sink hcap hr hfuel
    exact ⟨r', by simp [decryptLoop_succ, hread, decryptChunk_of_not_opens hcap hc]⟩
  | @overflow i c p t hopen hmax =>
    obtain ⟨r', -, -, hread⟩ := run_readFrame_ok (i := UInt64.ofNat i) sink hopen.1 hr hfuel
    have hnext : nextIndex (UInt64.ofNat i) = .error .panic := by
      rw [nextIndex_ofNat hi, if_neg (by omega)]
    refine ⟨r', ?_⟩
    rw [decryptLoop_succ, StreamProg.run_bind, hread]
    simp only [Prog.andThen_ok, hopen.2, Prog.ofExcept_ok, Prog.pure_bind, StreamProg.run_bind,
      run_writeAll, Sink.writeAll_of_faults_nil _ _ hsink, ofIo_ok, hnext, Prog.ofExcept_error,
      Prog.throw_bind, StreamProg.run_throw]
  | @frame i c p t W x hopen hlt hrest ih =>
    obtain ⟨r₁, hd, hs, hread⟩ := run_readFrame_ok (i := UInt64.ofNat i) sink hopen.1 hr hfuel
    have hnext : nextIndex (UInt64.ofNat i) = .ok (UInt64.ofNat (i + 1)) := by
      rw [nextIndex_ofNat hi, if_pos hlt]
    have hsink' : { sink with written := sink.written ++ p }.faults = [] := hsink
    obtain ⟨fuel, rfl⟩ : ∃ n, fuel = n + 1 := ⟨fuel - 1, by omega⟩
    obtain ⟨r', hrun⟩ := ih hlt _ hd hsink' fuel (by omega)
    refine ⟨r', ?_⟩
    rw [decryptLoop_succ, StreamProg.run_bind, hread]
    simp only [Prog.andThen_ok, hopen.2, Prog.ofExcept_ok, Prog.pure_bind, StreamProg.run_bind,
      run_writeAll, Sink.writeAll_of_faults_nil _ _ hsink, ofIo_ok, hnext, hrun,
      List.append_assoc]

/-- Four bytes or more start with a length word, and what follows holds a frame of that length or is
shorter. -/
theorem exists_frame {F : Bytes} (hF : 4 ≤ F.length) :
    (∃ (len : U8Array 4) (t : Bytes), F = len.val ++ t ∧ t.length < (BigEndian.toU32 len).toNat) ∨
      ∃ (len : U8Array 4) (c t : Bytes), F = len.val ++ (c ++ t) ∧ F = frame c ++ t ∧
        c.length = (BigEndian.toU32 len).toNat := by
  obtain ⟨len, rest, rfl, -⟩ := U8Array.exists_append 4 F hF
  rcases Nat.lt_or_ge rest.length (BigEndian.toU32 len).toNat with hshort | hlong
  · exact .inl ⟨len, rest, rfl, hshort⟩
  · obtain ⟨ct, t, rfl, -⟩ := U8Array.exists_append _ rest hlong
    exact .inr ⟨len, ct.val, t, rfl, by rw [frame_val, List.append_assoc], ct.length_val⟩

/-- A body has an outcome. -/
theorem exists_readsBody (P : Primitives) (key : U8Array 32) (h : Header) {i : ℕ} (hi : i < 2 ^ 64)
    (F : Bytes) : ∃ x W, ReadsBody P key h i F x W := by
  -- induction on the length: a frame that opens leaves a shorter body
  induction hn : F.length using Nat.strong_induction_on generalizing i F with
  | _ n ih =>
    subst hn
    rcases Nat.lt_or_ge F.length 4 with hshort | hlong
    · exact ⟨_, _, .done hshort⟩
    obtain ⟨len, t, rfl, hcut⟩ | ⟨len, c, t, hword, hframe, hlen⟩ := exists_frame hlong
    · rcases Nat.lt_or_ge maxChunkWireLen (BigEndian.toU32 len).toNat with hcap | hcap
      · exact ⟨_, _, .suspicious hcap⟩
      · exact ⟨_, _, .cut hcap hcut⟩
    · rcases Nat.lt_or_ge maxChunkWireLen (BigEndian.toU32 len).toNat with hcap | hcap
      · rw [hword]
        exact ⟨_, _, .suspicious hcap⟩
      rw [hframe]
      by_cases hopen : ∃ p, Opens P key h i c p
      · obtain ⟨p, hp⟩ := hopen
        rcases Nat.lt_or_ge (i + 1) (2 ^ 64) with hlt | hge
        · have hless : t.length < F.length := by
            rw [hframe, frame, List.length_append, List.length_append, BigEndian.length_ofU32]
            omega
          obtain ⟨x, W, hrest⟩ := ih _ hless hlt t rfl
          exact ⟨x, _, .frame hp hlt hrest⟩
        · exact ⟨_, _, .overflow hp (by omega)⟩
      · exact ⟨_, _, .forged (by omega) (not_exists.mp hopen)⟩

/-- A body that is shorter than the counter goes does not overflow it. -/
theorem ReadsBody.ne_panic {i : ℕ} {F : Bytes} {x : Except Stop UInt64} {W : Bytes}
    (hbody : ReadsBody P key h i F x W) (hcount : i + F.length < 2 ^ 64) : x ≠ .error .panic := by
  induction hbody with
  | overflow hopen hmax =>
    rw [Framing.frame, List.length_append, List.length_append, BigEndian.length_ofU32] at hcount
    omega
  | frame hopen hlt hrest ih =>
    rw [Framing.frame, List.length_append, List.length_append, BigEndian.length_ofU32] at hcount
    exact ih (by omega)
  | _ =>
    intro h
    cases h

/-! ## The decryption pipeline -/

/-- Reading a header has an outcome. -/
theorem exists_readsHeader (P : Primitives) (passphrase F : Bytes) :
    ∃ res, ReadsHeader P passphrase F res := by
  rcases Nat.lt_or_ge F.length headerLen with hshort | hlong
  · exact ⟨_, .short hshort⟩
  obtain ⟨raw, t, rfl, -⟩ := U8Array.exists_append headerLen F hlong
  cases hkey : deriveKey P passphrase (rawSalt raw) with
  | error e => exact ⟨_, .kdf hkey⟩
  | ok key =>
    obtain ⟨res, hparse, -⟩ := Header.parse_returns P key raw.property
    cases res with
    | error e => exact ⟨_, .refused hkey hparse⟩
    | ok header => exact ⟨_, .accepted hkey hparse⟩

/-- What follows an accepted header is shorter than the file. -/
theorem ReadsHeader.length_lt {passphrase F t : Bytes} {key : U8Array 32} {header : Header}
    (h : ReadsHeader P passphrase F (.ok (key, header, t))) : t.length < F.length := by
  cases h with
  | @accepted raw _ _ _ hkey hparse =>
    rw [List.length_append, raw.length_val, headerLen]
    omega

/-- Decrypting a file has an outcome. -/
theorem exists_decodes (P : Primitives) (passphrase F : Bytes) :
    ∃ x W, Decodes P passphrase F x W := by
  obtain ⟨e | ⟨key, header, t⟩, hheader⟩ := exists_readsHeader P passphrase F
  · exact ⟨_, _, .refused hheader⟩
  · obtain ⟨x, W, hbody⟩ := exists_readsBody P key header (i := 0) (by norm_num) t
    exact ⟨_, _, .body hheader hbody⟩

/-- The decryption pipeline, on a reader that delivers the file in whatever parts, has the described
outcome. -/
theorem Decodes.run {passphrase F W : Bytes} {x : Except Stop Unit} (h : Decodes P passphrase F x W)
    {fuel : ℕ} {r : Reader} (hr : Delivers F r) (hfuel : r.size < fuel) :
    ∃ r', StreamProg.run (decryptPipeline P fuel passphrase) { reader := r } =
      some (x, ⟨r', { written := W }⟩) := by
  rw [decryptPipeline, Prog.bind_eq, StreamProg.run_bind]
  have hraw : ∀ {raw : U8Array headerLen} {t : Bytes}, Delivers (raw.val ++ t) r → ∃ r₁,
      Delivers t r₁ ∧ r₁.size < fuel ∧
        StreamProg.run (readRawHeader fuel) { reader := r } = some (.ok raw, ⟨r₁, {}⟩) := by
    intro raw t hr
    obtain ⟨r₁, hd, hs, hrun⟩ := run_readExactOr_ok fuel (fun _ =>
      .err (.invalidFormat "File too short to contain a valid header")) {} hr hfuel
    exact ⟨r₁, hd, by omega, hrun⟩
  -- the header is read off the front, and the rest of the pipeline is about the body
  cases h with
  | refused hheader =>
    cases hheader with
    | short hshort =>
      obtain ⟨r', hrun⟩ := run_readExactOr_short headerLen (fun _ =>
        .err (.invalidFormat "File too short to contain a valid header")) {} hr hfuel hshort
      exact ⟨r', by rw [readRawHeader, hrun]; rfl⟩
    | kdf hkey =>
      obtain ⟨r₁, -, -, hrun⟩ := hraw hr
      exact ⟨r₁, by simp [hrun, hkey]⟩
    | refused hkey hparse =>
      obtain ⟨r₁, -, -, hrun⟩ := hraw hr
      exact ⟨r₁, by simp [hrun, hkey, decryptBody, hparse]⟩
  | @body t _ key header x hheader hbody =>
    cases hheader with
    | accepted hkey hparse =>
      obtain ⟨r₁, hd, hs, hrun⟩ := hraw hr
      obtain ⟨r', hloop⟩ := hbody.run (by norm_num) fuel {} hd hs rfl
      have hloop' : StreamProg.run (decryptChunks P fuel key header.nonce header.algo
          (headerAad P header)) ⟨r₁, {}⟩ = some (x, ⟨r', { written := W }⟩) := hloop
      refine ⟨r', ?_⟩
      simp only [hrun, Prog.andThen_ok, hkey, Prog.ofExcept_ok, Prog.bind_eq, StreamProg.run_pure,
        decryptBody, hparse, Prog.ofResult_some, StreamProg.run_bind, hloop']
      cases x with
      | error e => rfl
      | ok n => rw [Prog.andThen_ok, StreamProg.run_ofExcept]; rfl

/-- A file has one outcome. -/
theorem Decodes.unique {passphrase F W W' : Bytes} {x x' : Except Stop Unit}
    (h : Decodes P passphrase F x W) (h' : Decodes P passphrase F x' W') : x = x' ∧ W = W' := by
  have hfuel := Nat.lt_succ_self (Reader.ofSlice F).size
  obtain ⟨r, hrun⟩ := h.run (delivers_ofSlice F) hfuel
  obtain ⟨r', hrun'⟩ := h'.run (delivers_ofSlice F) hfuel
  rw [hrun, Option.some.injEq, Prod.mk.injEq, StreamState.mk.injEq, Sink.mk.injEq] at hrun'
  exact ⟨hrun'.1, hrun'.2.2.1⟩

/-- A run of the decryption pipeline has the described outcome. -/
theorem Decodes.of_run {fuel : ℕ} {passphrase F W : Bytes} {r r' : Reader} {x : Except Stop Unit}
    (hr : Delivers F r) (hfuel : r.size < fuel)
    (hrun : StreamProg.run (decryptPipeline P fuel passphrase) { reader := r } =
      some (x, ⟨r', { written := W }⟩)) : Decodes P passphrase F x W := by
  -- there is an outcome, and the run has it
  obtain ⟨y, V, hdecodes⟩ := exists_decodes P passphrase F
  obtain ⟨r'', hrun'⟩ := hdecodes.run hr hfuel
  rw [hrun, Option.some.injEq, Prod.mk.injEq, StreamState.mk.injEq, Sink.mk.injEq] at hrun'
  obtain ⟨rfl, -, rfl, -⟩ := hrun'
  exact hdecodes

/-- The decryption pipeline computes the described outcome and no other: whatever parts and
interruptions the reader delivers a file in, the pipeline ends with a result after writing some
bytes exactly when reading the header, then the frames up to their first defect, then the comparison
of counts give this result and these bytes. -/
theorem decryptPipeline_iff_decodes {fuel : ℕ} {passphrase F W : Bytes} {r : Reader}
    {x : Except Stop Unit} (hr : Delivers F r) (hfuel : r.size < fuel) :
    (∃ r', StreamProg.run (decryptPipeline P fuel passphrase) { reader := r } =
      some (x, ⟨r', { written := W }⟩)) ↔ Decodes P passphrase F x W :=
  ⟨fun ⟨_, hrun⟩ => Decodes.of_run hr hfuel hrun, fun h => h.run hr hfuel⟩

/-- An encrypted empty file with one byte appended has the outcome of the empty file. -/
theorem decryptPipeline_iff_decodes_emptyHeader :
    (∃ r', StreamProg.run (decryptPipeline transparent 76 [])
        { reader := Reader.ofSlice
            (emptyHeader.bytes transparent (checksum 32 emptyHeader.salt.val) ++ [0]) } =
          some (.ok (), ⟨r', { written := [] }⟩)) ↔
      Decodes transparent []
        (emptyHeader.bytes transparent (checksum 32 emptyHeader.salt.val) ++ [0]) (.ok ()) [] :=
  decryptPipeline_iff_decodes (delivers_ofSlice _)
    (by simp [headerLen, saltLen, nonceLen, hmacLen])

end Cry
