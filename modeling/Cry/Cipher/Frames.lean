import Cry.Cipher.Chunks
import Mathlib.Algebra.Order.Floor.Div

/-!
# What the chunk loops compute

The encryption loop cuts its input into chunks and writes one frame for each; the decryption loop
reads frames and writes what they decrypt to. Both facts are stated for any schedule of the
reader, and the second also for a reader that offers no particular content.

## Main results

* `encryptLoop_eq_ok`, `encryptLoop_ok`: the encryption loop ends well only with the frames of a
  chunking of its input, and does end well when no operation fails;
* `decryptLoop_eq_some`: whatever ends the decryption loop, what it has written is what the frames
  read so far decrypt to, and a part of what the next one decrypts to when the writer failed;
* `decryptLoop_ok`: the decryption loop accepts every sequence of frames that decrypt, also with
  fewer than four bytes after it;
* `decryptLoop_isSome`: the decryption loop ends.
-/

namespace Cry

open Rust Effects Framing

variable (P : Primitives)

/-! ## Numbered chunks -/

/-- Chunk `i` of the file with header `h`, encrypted under `key`, is `c`. -/
def Seals (key : U8Array 32) (h : Header) (i : ℕ) (p c : Bytes) : Prop :=
  encryptChunk P p key (chunkNonce h.nonce (UInt64.ofNat i)) h.algo
    (chunkAad (headerAad P h) (UInt64.ofNat i)) = .ok c

/-- Frame `i` of the file with header `h` is within the cap and decrypts under `key` to `p`. -/
def Opens (key : U8Array 32) (h : Header) (i : ℕ) (c p : Bytes) : Prop :=
  c.length ≤ maxChunkWireLen ∧
    decryptChunk P c key (chunkNonce h.nonce (UInt64.ofNat i)) h.algo
      (chunkAad (headerAad P h) (UInt64.ofNat i)) = .ok p

/-- What a failed `write_all` has left of the plaintext of frame `i`: nothing unless the writer has
failed and ended the run, and then at most the beginning of what the frame decrypts to. -/
def Torn {α : Type} (key : U8Array 32) (h : Header) (i : ℕ) (x : Except Stop α) (sink : Sink)
    (part : Bytes) : Prop :=
  part = [] ∨ sink.failed = true ∧ (∃ e, x = .error (.err (.io e))) ∧
    ∃ c p, Opens P key h i c p ∧ part <+: p

/-- A cut of a byte string into chunks: full ones, then at most one shorter, non-empty one. -/
inductive Chunking : List Bytes → Prop
  | nil : Chunking []
  | last {p : Bytes} : p ≠ [] → p.length < chunkSize → Chunking [p]
  | full {p : Bytes} {ps : List Bytes} : p.length = chunkSize → Chunking ps → Chunking (p :: ps)

theorem maxChunkWireLen_lt : maxChunkWireLen < 2 ^ 32 := by decide

theorem chunkSize_pos : 0 < chunkSize := by decide

/-- Every chunk of a chunking is at most a full chunk. -/
theorem Chunking.length_le {ps : List Bytes} (h : Chunking ps) {p : Bytes} (hp : p ∈ ps) :
    p.length ≤ chunkSize := by
  induction h with
  | nil => simp at hp
  | last hne hlt =>
    obtain rfl := List.mem_singleton.mp hp
    exact hlt.le
  | full heq _ ih =>
    rcases List.mem_cons.mp hp with rfl | hp
    · exact heq.le
    · exact ih hp

/-- Taking one chunk off a non-empty length lowers its number of chunks by one. -/
theorem ceilDiv_chunkSize {n : ℕ} (hn : 0 < n) :
    n ⌈/⌉ chunkSize = (n - chunkSize) ⌈/⌉ chunkSize + 1 := by
  have hpos := chunkSize_pos
  have hshift : n + chunkSize - 1 = n - 1 + chunkSize := by omega
  rw [Nat.ceilDiv_eq_add_pred_div, Nat.ceilDiv_eq_add_pred_div, hshift,
    Nat.add_div_right _ hpos]
  congr 1
  by_cases hlt : n < chunkSize
  · rw [Nat.div_eq_of_lt (by omega), Nat.div_eq_of_lt (by omega)]
  · rw [show n - chunkSize + chunkSize - 1 = n - 1 by omega]

/-- The number of chunks of a chunking is the length over the chunk size, rounded up. -/
theorem Chunking.length_eq {ps : List Bytes} (h : Chunking ps) :
    ps.length = ps.flatten.length ⌈/⌉ chunkSize := by
  have hpos := chunkSize_pos
  have hzero : 0 ⌈/⌉ chunkSize = 0 := zero_ceilDiv _
  -- induction on the chunking: a short last chunk counts as one, a full chunk adds one
  induction h with
  | nil => exact hzero.symm
  | @last p hne hlt =>
    have hp : 0 < [p].flatten.length := by simpa using List.length_pos_iff.mpr hne
    rw [ceilDiv_chunkSize hp, Nat.sub_eq_zero_of_le (by simpa using hlt.le), hzero,
      List.length_singleton]
  | @full p ps heq _ ih =>
    have hlen : (p :: ps).flatten.length = chunkSize + ps.flatten.length := by
      rw [List.flatten_cons, List.length_append, heq]
    rw [ceilDiv_chunkSize (by omega), hlen, Nat.add_sub_cancel_left, List.length_cons, ih]

/-- Counting one more chunk succeeds unless the counter is at its maximum. -/
theorem nextIndex_ofNat {i : ℕ} (hi : i < 2 ^ 64) :
    nextIndex (UInt64.ofNat i) =
      if i + 1 < 2 ^ 64 then .ok (UInt64.ofNat (i + 1)) else .error .panic := by
  rw [nextIndex, UInt64.toNat_ofNat_of_lt' hi, UInt64.ofNat_add]
  rfl

variable {P} {key : U8Array 32} {h : Header} {E : IoError → Prop}

/-- A frame that opens under some index fits its length word. -/
theorem Opens.length_lt {i : ℕ} {c p : Bytes} (hc : Opens P key h i c p) : c.length < 2 ^ 32 :=
  hc.1.trans_lt maxChunkWireLen_lt

/-- A sealed chunk is 16 bytes longer. -/
theorem Seals.length_eq {i : ℕ} {p c : Bytes} (hc : Seals P key h i p c) :
    c.length = p.length + 16 := by
  unfold Seals encryptChunk at hc
  split at hc
  · next hct =>
    obtain rfl := Except.ok.inj hc
    exact (P.aead h.algo).encrypt_length hct
  · cases hc

/-- A sealed chunk of at most chunk size is within the cap on frames. -/
theorem Seals.length_le {i : ℕ} {p c : Bytes} (hc : Seals P key h i p c)
    (hp : p.length ≤ chunkSize) : c.length ≤ maxChunkWireLen := by
  rw [hc.length_eq, maxChunkWireLen]
  omega

/-! ## The encryption loop -/

/-- From a reader that offers `B`, `read_chunk` takes the next bytes of `B`, or fails. -/
theorem run_readChunk_eq_some {fuel len : ℕ} {B : Bytes} {r : Reader} {sink : Sink}
    {x : Except Stop Bytes} {st' : StreamState} (hr : Offers E B r)
    (hrun : StreamProg.run (readChunk fuel len) ⟨r, sink⟩ = some (x, st')) :
    st'.sink = sink ∧
      ((x = .ok (B.take len) ∧ Offers E (B.drop len) st'.reader) ∨
        ∃ e, x = .error (.err (.io e))) := by
  rw [readChunk, Prog.bind_eq, StreamProg.run_bind, Prog.andThen_eq_some] at hrun
  obtain ⟨y, st₁, hfill, hrest⟩ | ⟨e, hfill, rfl⟩ := hrun
  · -- `fill` reports an I/O error of the reader as a value, and `read_chunk` raises it
    obtain ⟨hsink, ⟨hy, hd, -⟩ | ⟨e, -, -, hy⟩⟩ := run_fill_eq_some hr (Nat.zero_le len) hfill
    · obtain rfl := Except.ok.inj hy
      obtain ⟨rfl, rfl⟩ := by simpa using hrest
      exact ⟨hsink, .inl ⟨by simp, by simpa using hd⟩⟩
    · obtain rfl := Except.ok.inj hy
      obtain ⟨rfl, rfl⟩ := by simpa using hrest
      exact ⟨hsink, .inr ⟨e, rfl⟩⟩
  · obtain ⟨⟨y, hy⟩, -⟩ := run_fill_frame hfill
    cases hy

/-- With enough fuel, `read_chunk` takes the next bytes. -/
theorem run_readChunk_ok {fuel : ℕ} (len : ℕ) {B : Bytes} {r : Reader} (sink : Sink)
    (hr : Delivers B r) (hfuel : r.size < fuel) :
    ∃ r', Delivers (B.drop len) r' ∧ r'.size + (B.take len).length ≤ r.size ∧
      StreamProg.run (readChunk fuel len) ⟨r, sink⟩ = some (.ok (B.take len), ⟨r', sink⟩) := by
  obtain ⟨r', hd, hs, hrun⟩ := run_fill (ε := Stop) len sink hr hfuel
  exact ⟨r', hd, hs, by simp [readChunk, hrun]⟩

/-- One round of the encryption loop that ends well: the input is at its end, or its next chunk
is sealed, framed and counted, and the loop ends or goes on. -/
theorem encryptLoop_succ_eq_ok {fuel i : ℕ} {j : UInt64} {B : Bytes} {r : Reader} {sink : Sink}
    {st' : StreamState} (hi : i < 2 ^ 64) (hr : Offers E B r)
    (hrun : StreamProg.run
      (encryptLoop P key h.nonce h.algo (headerAad P h) (fuel + 1) (UInt64.ofNat i)) ⟨r, sink⟩ =
        some (.ok j, st')) :
    (B = [] ∧ st'.sink.written = sink.written ∧ j = UInt64.ofNat i) ∨
      ∃ c st₁, B ≠ [] ∧ Seals P key h i (B.take chunkSize) c ∧ i + 1 < 2 ^ 64 ∧
        Offers E (B.drop chunkSize) st₁.reader ∧ st₁.sink.written = sink.written ++ frame c ∧
          ((B.length < chunkSize ∧ st' = st₁ ∧ j = UInt64.ofNat (i + 1)) ∨
            chunkSize ≤ B.length ∧ StreamProg.run (encryptLoop P key h.nonce h.algo
              (headerAad P h) fuel (UInt64.ofNat (i + 1))) st₁ = some (.ok j, st')) := by
  have hpos := chunkSize_pos
  simp only [encryptLoop, Prog.bind_eq, StreamProg.run_bind, Prog.andThen_eq_ok] at hrun
  obtain ⟨buf, st₁, hread, hrest⟩ := hrun
  obtain ⟨hsink, ⟨hbuf, hd⟩ | ⟨e, hbuf⟩⟩ := run_readChunk_eq_some hr hread
  swap
  · cases hbuf
  obtain rfl := Except.ok.inj hbuf
  -- an empty read is the end of the input
  by_cases hzero : (B.take chunkSize).length = 0
  · rw [if_pos hzero] at hrest
    obtain ⟨rfl, rfl⟩ := by simpa using hrest
    have hnil : B = [] := by
      rw [List.length_take] at hzero
      exact List.length_eq_zero_iff.mp (by omega)
    exact .inl ⟨hnil, by rw [hsink], rfl⟩
  · rw [if_neg hzero] at hrest
    simp only [StreamProg.run_bind, StreamProg.run_ofExcept, Prog.andThen_eq_ok] at hrest
    -- the five steps of the round: seal, write the length, write the ciphertext, count, go on
    obtain ⟨c, st₂, hct, _, st₃, hw₁, _, st₄, hw₂, i', st₅, hnext, hlast⟩ := hrest
    obtain ⟨hseal, rfl⟩ := by simpa using hct
    obtain ⟨hr₁, hs₁⟩ := run_writeAll_eq_ok hw₁
    obtain ⟨hr₂, hs₂⟩ := run_writeAll_eq_ok hw₂
    rw [nextIndex_ofNat hi] at hnext
    by_cases hlt : i + 1 < 2 ^ 64
    · rw [if_pos hlt] at hnext
      simp only [Option.some.injEq, Prod.mk.injEq, Except.ok.injEq] at hnext
      obtain ⟨rfl, rfl⟩ := hnext
      refine .inr ⟨c, st₄, ?_, hseal, hlt, by rwa [hr₂, hr₁], ?_, ?_⟩
      · rintro rfl
        simp at hzero
      · rw [hs₂, hs₁, hsink, frame, List.append_assoc]
      · -- a short chunk was the last one
        by_cases hshort : (B.take chunkSize).length < chunkSize
        · rw [if_pos hshort, Prog.pure_eq, StreamProg.run_pure] at hlast
          simp only [Option.some.injEq, Prod.mk.injEq, Except.ok.injEq] at hlast
          rw [List.length_take] at hshort
          exact .inl ⟨by omega, hlast.2.symm, hlast.1.symm⟩
        · rw [if_neg hshort] at hlast
          rw [List.length_take] at hshort
          exact .inr ⟨by omega, hlast⟩
    · -- the counter would overflow, and the round does not end well
      rw [if_neg hlt] at hnext
      simp at hnext

/-- The encryption loop ends well only after writing the frames of a chunking of its input. -/
theorem encryptLoop_eq_ok {fuel i : ℕ} {j : UInt64} {B : Bytes} {r : Reader} {sink : Sink}
    {st' : StreamState} (hi : i < 2 ^ 64) (hr : Offers E B r)
    (hrun : StreamProg.run
      (encryptLoop P key h.nonce h.algo (headerAad P h) fuel (UInt64.ofNat i)) ⟨r, sink⟩ =
        some (.ok j, st')) :
    ∃ ps cs, B = ps.flatten ∧ Chunking ps ∧ ForallFrom (Seals P key h) i ps cs ∧
      st'.sink.written = sink.written ++ frames cs ∧ i + ps.length < 2 ^ 64 ∧
      j = UInt64.ofNat (i + ps.length) := by
  -- induction on the fuel: each round takes one chunk off the front of `B`
  induction fuel generalizing i B r sink with
  | zero => simp [encryptLoop] at hrun
  | succ fuel ih =>
    obtain ⟨rfl, hw, rfl⟩ | ⟨c, st₁, hne, hseal, hlt, hd, hw, ⟨hshort, rfl, rfl⟩ | ⟨hfull, hrec⟩⟩ :=
      encryptLoop_succ_eq_ok hi hr hrun
    · exact ⟨[], [], rfl, .nil, .nil, by simp [hw], by simpa using hi, rfl⟩
    · rw [List.take_of_length_le hshort.le] at hseal
      exact ⟨[B], [c], by simp, .last hne hshort, .cons hseal .nil, by simp [hw], hlt, rfl⟩
    · obtain ⟨ps, cs, hB, hps, hall, hw', hlt', rfl⟩ := ih hlt hd hrec
      refine ⟨B.take chunkSize :: ps, c :: cs, ?_, .full ?_ hps, .cons hseal hall, ?_, ?_, ?_⟩
      · rw [List.flatten_cons, ← hB, List.take_append_drop]
      · rw [List.length_take]
        omega
      · rw [hw', hw, frames_cons, List.append_assoc]
      · rw [List.length_cons]
        omega
      · rw [List.length_cons, Nat.add_comm ps.length, ← Nat.add_assoc]

/-- At the end of its input the encryption loop ends. -/
theorem run_encryptLoop_nil {baseNonce : U8Array 12} {algo : Algorithm} {aad : U8Array 32}
    {fuel : ℕ} (i : UInt64) {r : Reader} (sink : Sink) (hr : Delivers [] r)
    (hfuel : r.size < fuel + 1) :
    ∃ r', StreamProg.run (encryptLoop P key baseNonce algo aad (fuel + 1) i) ⟨r, sink⟩ =
      some (.ok i, ⟨r', sink⟩) := by
  obtain ⟨r', -, -, hread⟩ := run_readChunk_ok chunkSize sink hr hfuel
  exact ⟨r', by simp [encryptLoop, hread]⟩

/-- One round of the encryption loop in which nothing fails: the next chunk is encrypted, framed
and counted, and the loop ends after a short chunk and goes on after a full one. -/
theorem run_encryptLoop_succ {baseNonce : U8Array 12} {algo : Algorithm} {aad : U8Array 32}
    {fuel i : ℕ} {B c : Bytes} {r : Reader} {sink : Sink} (hne : B ≠ [])
    (hc : encryptChunk P (B.take chunkSize) key (chunkNonce baseNonce (UInt64.ofNat i)) algo
      (chunkAad aad (UInt64.ofNat i)) = .ok c)
    (hi : i + 1 < 2 ^ 64) (hr : Delivers B r) (hfuel : r.size < fuel + 1)
    (hsink : sink.faults = []) :
    ∃ r', Delivers (B.drop chunkSize) r' ∧ r'.size < r.size ∧
      StreamProg.run (encryptLoop P key baseNonce algo aad (fuel + 1) (UInt64.ofNat i)) ⟨r, sink⟩ =
        if B.length < chunkSize then
          some (.ok (UInt64.ofNat (i + 1)),
            ⟨r', { sink with written := sink.written ++ frame c }⟩)
        else
          StreamProg.run (encryptLoop P key baseNonce algo aad fuel (UInt64.ofNat (i + 1)))
            ⟨r', { sink with written := sink.written ++ frame c }⟩ := by
  have hpos := chunkSize_pos
  have hB : 0 < B.length := List.length_pos_iff.mpr hne
  have htake : (B.take chunkSize).length = min chunkSize B.length := List.length_take
  obtain ⟨r', hd, hs, hread⟩ := run_readChunk_ok chunkSize sink hr hfuel
  refine ⟨r', hd, by omega, ?_⟩
  have hnext : nextIndex (UInt64.ofNat i) = .ok (UInt64.ofNat (i + 1)) := by
    rw [nextIndex_ofNat (by omega), if_pos hi]
  simp only [encryptLoop, Prog.bind_eq, StreamProg.run_bind, hread, Prog.andThen_ok]
  rw [if_neg (by omega)]
  simp only [StreamProg.run_bind, hc, hnext, run_writeAll, Sink.writeAll, hsink, ofIo_ok,
    Prog.ofExcept_ok, Prog.pure_bind, Prog.andThen_ok, List.append_assoc]
  -- the chunk is short exactly when nothing more than it was left
  by_cases hshort : B.length < chunkSize
  · rw [if_pos hshort, if_pos (by omega)]
    rfl
  · rw [if_neg hshort, if_neg (by omega)]
    rfl

/-- When every chunk can be sealed, no write fails and the counter does not overflow, the
encryption loop ends well. -/
theorem encryptLoop_ok {fuel i : ℕ} {B : Bytes} {r : Reader} {sink : Sink}
    (hseals : ∀ j p, p.length ≤ chunkSize → ∃ c, Seals P key h j p c) (hr : Delivers B r)
    (hfuel : r.size < fuel) (hsink : sink.faults = [])
    (hcount : i + B.length ⌈/⌉ chunkSize < 2 ^ 64) :
    ∃ j st', StreamProg.run
      (encryptLoop P key h.nonce h.algo (headerAad P h) fuel (UInt64.ofNat i)) ⟨r, sink⟩ =
        some (.ok j, st') := by
  induction fuel generalizing i B r sink with
  | zero => omega
  | succ fuel ih =>
    rcases eq_or_ne B [] with rfl | hne
    · obtain ⟨r', hrun⟩ := run_encryptLoop_nil (UInt64.ofNat i) sink hr hfuel
      exact ⟨_, _, hrun⟩
    · have hB : 0 < B.length := List.length_pos_iff.mpr hne
      -- what is left after this round still fits the counter
      rw [ceilDiv_chunkSize hB, ← List.length_drop] at hcount
      obtain ⟨c, hc⟩ := hseals i (B.take chunkSize) (List.length_take_le _ _)
      obtain ⟨r', hd, hs, hrun⟩ := run_encryptLoop_succ hne hc (by omega) hr hfuel hsink
      rw [hrun]
      by_cases hshort : B.length < chunkSize
      · rw [if_pos hshort]
        exact ⟨_, _, rfl⟩
      · rw [if_neg hshort]
        exact ih hd (by omega) hsink (by omega)

/-! ## The decryption loop -/

/-- The part of one round of the decryption loop that reads a frame: `none` at an end of file in
the length, else the ciphertext. -/
def readFrame (fuel : ℕ) (chunkIndex : UInt64) : StreamProg Stop (Option Bytes) :=
  (readExact fuel 4).bind fun
    | .error .unexpectedEof => .pure none
    | .error e => .throw (.err (.io e))
    | .ok lenBuf =>
      let ctLen := (BigEndian.toU32 lenBuf).toNat
      if maxChunkWireLen < ctLen then .throw (.err (.suspiciousChunkLen chunkIndex ctLen))
      else (readExactOr fuel ctLen fun e => .err (.io e)).bind fun ct => .pure (some ct.val)

/-- A round of the decryption loop reads a frame, and unless the stream has ended decrypts it,
writes the plaintext and counts. -/
theorem decryptLoop_succ (baseNonce : U8Array 12) (algo : Algorithm) (aad : U8Array 32) (fuel : ℕ)
    (i : UInt64) :
    decryptLoop P key baseNonce algo aad (fuel + 1) i =
      (readFrame (fuel + 1) i).bind fun
        | none => .pure i
        | some ct =>
          (Prog.ofExcept (decryptChunk P ct key (chunkNonce baseNonce i) algo
            (chunkAad aad i))).bind fun plain =>
          (writeAll plain).bind fun _ =>
          (Prog.ofExcept (nextIndex i)).bind fun j =>
          decryptLoop P key baseNonce algo aad fuel j := by
  rw [decryptLoop, readFrame, Prog.bind_assoc, Prog.bind_eq]
  congr 1
  funext res
  -- the two sides differ only in where the branches on the length are taken
  rcases res with e | lenBuf
  · cases e <;> rfl
  · by_cases hcap : maxChunkWireLen < (BigEndian.toU32 lenBuf).toNat
    · simp only [if_pos hcap, Prog.throw_bind]
    · simp only [if_neg hcap, Prog.bind_eq, Prog.bind_assoc, Prog.pure_bind]

/-- The length word and the ciphertext make up the frame. -/
theorem frame_val {lenBuf : U8Array 4} (ct : U8Array (BigEndian.toU32 lenBuf).toNat) :
    frame ct.val = lenBuf.val ++ ct.val := by
  rw [frame, ct.length_val, UInt32.ofNat_toNat, BigEndian.ofU32_toU32]

/-- Reading a frame never touches the sink. It finds an end of file, fails, or gives a ciphertext
within the cap; from a reader that supplies `B`, the first only on fewer than four bytes, and the
last only when its frame is at the front of `B`. -/
theorem run_readFrame_eq_some {fuel : ℕ} {i : UInt64} {x : Except Stop (Option Bytes)}
    {st st' : StreamState} (hrun : StreamProg.run (readFrame fuel i) st = some (x, st')) :
    st'.sink = st.sink ∧
      ((x = .ok none ∧ ∀ B, Supplies B st.reader → B.length < 4) ∨
        (∃ e, x = .error (.err e)) ∨
        ∃ c, x = .ok (some c) ∧ c.length ≤ maxChunkWireLen ∧
          st'.reader.size < st.reader.size ∧
            ∀ B, Supplies B st.reader → ∃ B', B = frame c ++ B' ∧ Supplies B' st'.reader) := by
  rw [readFrame, StreamProg.run_bind, Prog.andThen_eq_some] at hrun
  obtain ⟨y, st₁, hlen, hrest⟩ | ⟨e, hlen, rfl⟩ := hrun
  · obtain ⟨_, hy, hsink, hsize⟩ := run_readExact_frame hlen
    obtain rfl := Except.ok.inj hy
    rcases y with e | lenBuf
    · -- an end of file in the length is the end of the stream, any other error is raised
      by_cases he : e = .unexpectedEof
      · subst he
        obtain ⟨rfl, rfl⟩ := by simpa using hrest
        refine ⟨hsink, .inl ⟨rfl, fun B hB => ?_⟩⟩
        obtain ⟨-, ⟨_, _, _, hx, _⟩ | ⟨hshort, -⟩ | ⟨e, he, -, hx⟩⟩ :=
          run_readExact_eq_some hB hlen
        · cases hx
        · exact hshort
        · cases hx
          exact absurd rfl he
      · have hthrow : x = .error (.err (.io e)) ∧ st' = st₁ := by
          cases e with
          | unexpectedEof => exact absurd rfl he
          | _ =>
            simp only [StreamProg.run_throw, Option.some.injEq, Prod.mk.injEq] at hrest
            exact ⟨hrest.1.symm, hrest.2.symm⟩
        obtain ⟨rfl, rfl⟩ := hthrow
        exact ⟨hsink, .inr (.inl ⟨_, rfl⟩)⟩
    · obtain ⟨hsize₁, -⟩ := hsize lenBuf rfl
      -- the length is checked before the ciphertext is read
      by_cases hcap : maxChunkWireLen < (BigEndian.toU32 lenBuf).toNat
      · simp only [if_pos hcap, StreamProg.run_throw, Option.some.injEq,
          Prod.mk.injEq] at hrest
        obtain ⟨rfl, rfl⟩ := hrest
        exact ⟨hsink, .inr (.inl ⟨_, rfl⟩)⟩
      · simp only [if_neg hcap, StreamProg.run_bind, Prog.andThen_eq_some] at hrest
        obtain ⟨ct, st₂, hct, hrest⟩ | ⟨e, hct, rfl⟩ := hrest
        · obtain ⟨hsink₂, ⟨_, hx, hsize₂, -⟩ | ⟨e, hx⟩⟩ := run_readExactOr_frame hct
          · obtain rfl := Except.ok.inj hx
            obtain ⟨rfl, rfl⟩ := by simpa using hrest
            refine ⟨hsink₂.trans hsink, .inr (.inr ⟨ct.val, rfl, ?_, by omega, fun B hB => ?_⟩)⟩
            · rw [ct.length_val]
              omega
            · -- the length word and the ciphertext are taken off `B` one after the other
              obtain ⟨-, ⟨a, B₁, rfl, ha, hd₁, -⟩ | ⟨-, ha⟩ | ⟨e, -, -, ha⟩⟩ :=
                run_readExact_eq_some hB hlen
              · obtain rfl := Except.ok.inj (Except.ok.inj ha)
                obtain ⟨-, ⟨c, B₂, rfl, hc, hd₂, -⟩ | ⟨e, hc⟩⟩ := run_readExactOr_eq_some hd₁ hct
                · obtain rfl := Except.ok.inj hc
                  exact ⟨B₂, by rw [frame_val, List.append_assoc], hd₂⟩
                · cases hc
              · cases Except.ok.inj ha
              · cases Except.ok.inj ha
          · cases hx
        · obtain ⟨hsink₂, ⟨_, hx, -⟩ | ⟨e', hx⟩⟩ := run_readExactOr_frame hct
          · cases hx
          · obtain rfl := Except.error.inj hx
            exact ⟨hsink₂.trans hsink, .inr (.inl ⟨_, rfl⟩)⟩
  · obtain ⟨_, hy, -⟩ := run_readExact_frame hlen
    cases hy

/-- With fuel above the reader's size, reading a frame ends. -/
theorem run_readFrame_isSome {fuel : ℕ} {i : UInt64} {st : StreamState}
    (hfuel : st.reader.size < fuel) :
    ∃ x, StreamProg.run (readFrame fuel i) st = some x := by
  obtain ⟨⟨x, st₁⟩, hlen⟩ := run_readExact_isSome (ε := Stop) 4 hfuel
  obtain ⟨y, rfl, -, hsize⟩ := run_readExact_frame hlen
  rw [readFrame, StreamProg.run_bind, hlen]
  rcases y with e | lenBuf
  · cases e <;> exact ⟨_, rfl⟩
  · obtain ⟨hsize₁, -⟩ := hsize lenBuf rfl
    by_cases hcap : maxChunkWireLen < (BigEndian.toU32 lenBuf).toNat
    · simp only [Prog.andThen_ok, if_pos hcap]
      exact ⟨_, rfl⟩
    · -- the length word has made the reader smaller
      have hlt : st₁.reader.size < fuel := by omega
      obtain ⟨⟨z, st₂⟩, hct⟩ := run_readExactOr_isSome (BigEndian.toU32 lenBuf).toNat
        (fun e => .err (.io e)) hlt
      simp only [Prog.andThen_ok, if_neg hcap, StreamProg.run_bind, hct]
      cases z with
      | error e => exact ⟨_, rfl⟩
      | ok ct => exact ⟨_, rfl⟩

/-- A frame within the cap at the front of the stream is read. -/
theorem run_readFrame_ok {fuel : ℕ} {i : UInt64} {c B : Bytes} {r : Reader} (sink : Sink)
    (hc : c.length ≤ maxChunkWireLen) (hr : Delivers (frame c ++ B) r) (hfuel : r.size < fuel) :
    ∃ r', Delivers B r' ∧ r'.size < r.size ∧
      StreamProg.run (readFrame fuel i) ⟨r, sink⟩ = some (.ok (some c), ⟨r', sink⟩) := by
  let lenBuf : U8Array 4 := ⟨BigEndian.ofU32 (UInt32.ofNat c.length), by simp⟩
  have hlen : (BigEndian.toU32 lenBuf).toNat = c.length := by
    rw [BigEndian.toU32_ofU32, toNat_frameLen (hc.trans_lt maxChunkWireLen_lt)]
  -- the ciphertext has the length that its length word says
  let ct : U8Array (BigEndian.toU32 lenBuf).toNat := ⟨c, hlen.symm⟩
  have hr' : Delivers (lenBuf.val ++ (ct.val ++ B)) r := by
    rwa [frame, List.append_assoc] at hr
  obtain ⟨r₁, hd₁, hs₁, hrun₁⟩ := run_readExact_ok (ε := Stop) sink hr' hfuel
  obtain ⟨r₂, hd₂, hs₂, hrun₂⟩ := run_readExactOr_ok fuel
    (fun e => .err (.io e)) sink hd₁ (by omega)
  refine ⟨r₂, hd₂, by omega, ?_⟩
  rw [readFrame, StreamProg.run_bind, hrun₁]
  simp only [Prog.andThen_ok, if_neg (show ¬maxChunkWireLen < (BigEndian.toU32 lenBuf).toNat by
    omega), StreamProg.run_bind, hrun₂, StreamProg.run_pure]
  rfl

/-- Fewer than four bytes are taken for the end of the stream. -/
theorem run_readFrame_short {fuel : ℕ} {i : UInt64} {B : Bytes} {r : Reader} (sink : Sink)
    (hB : B.length < 4) (hr : Delivers B r) (hfuel : r.size < fuel) :
    ∃ r', StreamProg.run (readFrame fuel i) ⟨r, sink⟩ = some (.ok none, ⟨r', sink⟩) := by
  obtain ⟨r', hrun⟩ := run_readExact_short (ε := Stop) 4 sink hr hfuel hB
  exact ⟨r', by simp [readFrame, hrun]⟩

section Torn

variable {α β : Type} {i : ℕ} {sink : Sink} {part : Bytes}

/-- A run that ends well has written whole chunks only. -/
theorem Torn.eq_nil_of_ok {a : α}
    (ht : Torn P key h i (.ok a : Except Stop α) sink part) : part = [] := by
  obtain rfl | ⟨-, ⟨e, he⟩, -⟩ := ht
  · rfl
  · cases he

/-- An error is raised as it is, whatever the result would have been. -/
theorem Torn.of_error {e : Stop} (ht : Torn P key h i (.error e : Except Stop α) sink part) :
    Torn P key h i (.error e : Except Stop β) sink part := by
  obtain rfl | ⟨hfailed, ⟨e', he⟩, hpart⟩ := ht
  · exact .inl rfl
  · obtain rfl := Except.error.inj he
    exact .inr ⟨hfailed, ⟨e', rfl⟩, hpart⟩

end Torn

/-- After the frame, a round decrypts it, writes the plaintext and counts: it fails, having written
at most a part of the plaintext, or the frame opens, and the loop goes on unless the counter is at
its maximum. -/
theorem run_openFrame_eq_some {i : ℕ} {c : Bytes} {k : UInt64 → StreamProg Stop UInt64}
    {x : Except Stop UInt64} {st st' : StreamState} (hi : i < 2 ^ 64)
    (hcap : c.length ≤ maxChunkWireLen)
    (hrun : StreamProg.run ((Prog.ofExcept (decryptChunk P c key
      (chunkNonce h.nonce (UInt64.ofNat i)) h.algo
      (chunkAad (headerAad P h) (UInt64.ofNat i)))).bind fun plain =>
        (writeAll plain).bind fun _ => (Prog.ofExcept (nextIndex (UInt64.ofNat i))).bind k) st =
      some (x, st')) :
    (∃ e part, x = .error (.err e) ∧ Torn P key h i x st'.sink part ∧
        st'.sink.written = st.sink.written ++ part) ∨
      ∃ p st₁, Opens P key h i c p ∧ st₁.reader = st.reader ∧
        st₁.sink.written = st.sink.written ++ p ∧
        ((i + 1 = 2 ^ 64 ∧ x = .error .panic ∧ st' = st₁) ∨
          i + 1 < 2 ^ 64 ∧ (k (UInt64.ofNat (i + 1))).run st₁ = some (x, st')) := by
  cases hp : decryptChunk P c key (chunkNonce h.nonce (UInt64.ofNat i)) h.algo
      (chunkAad (headerAad P h) (UInt64.ofNat i)) with
  | error e =>
    rw [hp] at hrun
    -- decryption fails with one error only, and nothing has been written
    have he : e = .err .decryptionFailed := by
      unfold decryptChunk at hp
      split at hp
      · cases hp
      · exact (Except.error.inj hp).symm
    simp only [Prog.ofExcept_error, Prog.throw_bind, StreamProg.run_throw, Option.some.injEq,
      Prod.mk.injEq] at hrun
    obtain ⟨rfl, rfl⟩ := hrun
    exact .inl ⟨_, [], by rw [he], .inl rfl, by rw [List.append_nil]⟩
  | ok p =>
    rw [hp] at hrun
    simp only [Prog.ofExcept_ok, Prog.pure_bind, StreamProg.run_bind, Prog.andThen_eq_some] at hrun
    obtain ⟨_, st₁, hwrite, hrest⟩ | ⟨e, hwrite, rfl⟩ := hrun
    · obtain ⟨hreader, hwritten⟩ := run_writeAll_eq_ok hwrite
      refine .inr ⟨p, st₁, ⟨hcap, hp⟩, hreader, hwritten, ?_⟩
      rw [nextIndex_ofNat hi] at hrest
      -- the plaintext is written before the counter is checked
      by_cases hlt : i + 1 < 2 ^ 64
      · simp only [if_pos hlt, StreamProg.run_ofExcept, Option.some.injEq, Prod.mk.injEq] at hrest
        obtain ⟨_, _, ⟨hj, rfl⟩, hrest⟩ | ⟨_, ⟨hj, -⟩, -⟩ := hrest
        · obtain rfl := Except.ok.inj hj
          exact .inr ⟨hlt, hrest⟩
        · cases hj
      · simp only [if_neg hlt, StreamProg.run_ofExcept, Option.some.injEq, Prod.mk.injEq] at hrest
        obtain ⟨_, _, ⟨hj, -⟩, -⟩ | ⟨_, ⟨hj, rfl⟩, rfl⟩ := hrest
        · cases hj
        · obtain rfl := Except.error.inj hj
          exact .inl ⟨by omega, rfl, rfl⟩
    · -- the writer fails in the middle of the plaintext
      obtain ⟨⟨e', rfl⟩, hfailed, part, hpart, hwritten⟩ := run_writeAll_eq_error hwrite
      exact .inl ⟨_, part, rfl, .inr ⟨hfailed, ⟨e', rfl⟩, c, p, ⟨hcap, hp⟩, hpart⟩, hwritten⟩

/-- Whatever ends the decryption loop, what it has written is what the frames read so far decrypt
to, and a part of what the next one does when the writer has failed. An end without an error gives
their number; from a reader that supplies `B` the frames are at the front of `B`, with fewer than
four bytes left when the loop ends without an error. -/
theorem decryptLoop_eq_some {fuel i : ℕ} {x : Except Stop UInt64} {st st' : StreamState}
    (hi : i < 2 ^ 64)
    (hrun : StreamProg.run
      (decryptLoop P key h.nonce h.algo (headerAad P h) fuel (UInt64.ofNat i)) st =
        some (x, st')) :
    ∃ cs ps part, ForallFrom (Opens P key h) i cs ps ∧
      Torn P key h (i + cs.length) x st'.sink part ∧
      st'.sink.written = st.sink.written ++ (ps.flatten ++ part) ∧
      (∀ j, x = .ok j → i + cs.length < 2 ^ 64 ∧ j = UInt64.ofNat (i + cs.length)) ∧
      (x = .error .panic → i + cs.length = 2 ^ 64) ∧
      ∀ B, Supplies B st.reader → ∃ t, B = frames cs ++ t ∧ ∀ j, x = .ok j → t.length < 4 := by
  -- induction on the fuel, with the frames of the rounds after this one from the hypothesis
  induction fuel generalizing i st with
  | zero => simp [decryptLoop] at hrun
  | succ fuel ih =>
    rw [decryptLoop_succ, StreamProg.run_bind, Prog.andThen_eq_some] at hrun
    obtain ⟨y, st₁, hread, hrest⟩ | ⟨e, hread, rfl⟩ := hrun
    · obtain ⟨hsink, ⟨hy, hshort⟩ | ⟨e, hy⟩ | ⟨c, hy, hcap, -, hd⟩⟩ := run_readFrame_eq_some hread
      · -- the stream has ended
        obtain rfl := Except.ok.inj hy
        simp only [StreamProg.run_pure, Option.some.injEq, Prod.mk.injEq] at hrest
        obtain ⟨rfl, rfl⟩ := hrest
        refine ⟨[], [], [], .nil, .inl rfl, by simp [hsink], ?_, by simp,
          fun B hB => ⟨B, by simp, ?_⟩⟩
        · rintro j hj
          exact ⟨by simpa using hi, (Except.ok.inj hj).symm⟩
        · exact fun _ _ => hshort B hB
      · cases hy
      · obtain rfl := Except.ok.inj hy
        obtain ⟨e, part, rfl, htorn, hw⟩ |
            ⟨p, st₂, hopen, hr₂, hw₂, ⟨hmax, rfl, rfl⟩ | ⟨hlt, hrec⟩⟩ :=
          run_openFrame_eq_some hi hcap hrest
        · exact ⟨[], [], part, .nil, htorn, by simp [hw, hsink], by simp, by simp,
            fun B _ => ⟨B, by simp, by simp⟩⟩
        · -- the counter is at its maximum
          refine ⟨[c], [p], [], .cons hopen .nil, .inl rfl, by simp [hw₂, hsink], by simp,
            fun _ => hmax, fun B hB => ?_⟩
          obtain ⟨B', rfl, -⟩ := hd B hB
          exact ⟨B', by simp, by simp⟩
        · obtain ⟨cs, ps, part, hall, htorn, hw, hok, hpanic, hB'⟩ := ih hlt hrec
          have hcount : i + (c :: cs).length = i + 1 + cs.length := by
            rw [List.length_cons]
            omega
          refine ⟨c :: cs, p :: ps, part, .cons hopen hall, ?_, ?_, ?_, ?_, fun B hB => ?_⟩
          · rwa [hcount]
          · rw [hw, hw₂, hsink, List.flatten_cons, List.append_assoc, List.append_assoc]
          · rwa [hcount]
          · rwa [hcount]
          · obtain ⟨B', rfl, hd'⟩ := hd B hB
            obtain ⟨t, rfl, ht⟩ := hB' B' (hr₂ ▸ hd')
            exact ⟨t, by simp, ht⟩
    · obtain ⟨hsink, ⟨hy, -⟩ | ⟨e', hy⟩ | ⟨_, hy, -⟩⟩ := run_readFrame_eq_some hread
      · cases hy
      · obtain rfl := Except.error.inj hy
        exact ⟨[], [], [], .nil, .inl rfl, by simp [hsink], by simp, by simp,
          fun B _ => ⟨B, by simp, by simp⟩⟩
      · cases hy

/-- A decryption loop that ends without an error has written what the frames it has read decrypt to,
and gives their number. -/
theorem decryptLoop_eq_ok {fuel i : ℕ} {j : UInt64} {st st' : StreamState} (hi : i < 2 ^ 64)
    (hrun : StreamProg.run
      (decryptLoop P key h.nonce h.algo (headerAad P h) fuel (UInt64.ofNat i)) st =
        some (.ok j, st')) :
    ∃ cs ps, ForallFrom (Opens P key h) i cs ps ∧
      st'.sink.written = st.sink.written ++ ps.flatten ∧
      i + cs.length < 2 ^ 64 ∧ j = UInt64.ofNat (i + cs.length) ∧
      ∀ B, Supplies B st.reader → ∃ t, B = frames cs ++ t ∧ t.length < 4 := by
  obtain ⟨cs, ps, part, hall, htorn, hw, hok, -, hB⟩ := decryptLoop_eq_some hi hrun
  obtain rfl := htorn.eq_nil_of_ok
  obtain ⟨hlt, hj⟩ := hok j rfl
  refine ⟨cs, ps, hall, by rwa [List.append_nil] at hw, hlt, hj, fun B hd => ?_⟩
  obtain ⟨t, hBt, ht⟩ := hB B hd
  exact ⟨t, hBt, ht j rfl⟩

/-- The decryption loop accepts every sequence of frames that open, also with fewer than four
bytes after it, and writes what they decrypt to. -/
theorem decryptLoop_ok {fuel i : ℕ} {cs ps : List Bytes} {t : Bytes} {r : Reader} {sink : Sink}
    (hall : ForallFrom (Opens P key h) i cs ps) (hcount : i + cs.length < 2 ^ 64)
    (ht : t.length < 4) (hr : Delivers (frames cs ++ t) r) (hfuel : r.size < fuel)
    (hsink : sink.faults = []) :
    ∃ r', StreamProg.run
      (decryptLoop P key h.nonce h.algo (headerAad P h) fuel (UInt64.ofNat i)) ⟨r, sink⟩ =
        some (.ok (UInt64.ofNat (i + cs.length)),
          ⟨r', { sink with written := sink.written ++ ps.flatten }⟩) := by
  -- induction on the fuel, which is above the size of what is left in the reader
  induction fuel generalizing i cs ps r sink with
  | zero => omega
  | succ fuel ih =>
    cases hall with
    | nil =>
      obtain ⟨r', hread⟩ := run_readFrame_short (i := UInt64.ofNat i) sink ht hr hfuel
      exact ⟨r', by simp [decryptLoop_succ, hread]⟩
    | @cons _ c p cs ps hopen hall =>
      rw [frames_cons, List.append_assoc] at hr
      rw [List.length_cons] at hcount ⊢
      obtain ⟨r', hd, hs, hread⟩ :=
        run_readFrame_ok (i := UInt64.ofNat i) sink hopen.1 hr hfuel
      have hnext : nextIndex (UInt64.ofNat i) = .ok (UInt64.ofNat (i + 1)) := by
        rw [nextIndex_ofNat (by omega), if_pos (by omega)]
      have hsink' : { sink with written := sink.written ++ p }.faults = [] := hsink
      obtain ⟨r'', hrec⟩ := ih hall (by omega) hd (by omega) hsink'
      refine ⟨r'', ?_⟩
      rw [decryptLoop_succ, StreamProg.run_bind, hread]
      simp only [Prog.andThen_ok, hopen.2, Prog.ofExcept_ok, Prog.pure_bind, StreamProg.run_bind,
        run_writeAll, Sink.writeAll_of_faults_nil _ _ hsink, ofIo_ok, hnext, hrec]
      rw [List.flatten_cons, List.append_assoc, Nat.add_comm cs.length, ← Nat.add_assoc]

/-- With fuel above the reader's size, the decryption loop ends, whatever the reader and the sink
do. -/
theorem decryptLoop_isSome (P : Primitives) (key : U8Array 32) (h : Header) {fuel : ℕ} (i : UInt64)
    {st : StreamState}
    (hfuel : st.reader.size < fuel) :
    ∃ x, StreamProg.run (decryptLoop P key h.nonce h.algo (headerAad P h) fuel i) st = some x := by
  -- every round that goes on has read a frame, so the reader has become smaller
  induction fuel generalizing i st with
  | zero => omega
  | succ fuel ih =>
    obtain ⟨⟨y, st₁⟩, hread⟩ := run_readFrame_isSome (i := i) hfuel
    rw [decryptLoop_succ, StreamProg.run_bind, hread]
    obtain ⟨-, ⟨rfl, -⟩ | ⟨e, rfl⟩ | ⟨c, rfl, -, hsize, -⟩⟩ := run_readFrame_eq_some hread
    · exact ⟨_, rfl⟩
    · exact ⟨_, rfl⟩
    · simp only [Prog.andThen_ok]
      cases decryptChunk P c key (chunkNonce h.nonce i) h.algo (chunkAad (headerAad P h) i) with
      | error e => exact ⟨_, rfl⟩
      | ok p =>
        simp only [Prog.ofExcept_ok, Prog.pure_bind, StreamProg.run_bind, run_writeAll]
        cases (st₁.sink.writeAll p).1 with
        | error e => exact ⟨_, rfl⟩
        | ok _ =>
          simp only [ofIo_ok, Prog.andThen_ok]
          cases nextIndex i with
          | error e => exact ⟨_, rfl⟩
          | ok j => exact ih j (by simp only; omega)

end Cry
