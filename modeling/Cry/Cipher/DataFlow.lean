import Cry.Cipher.Nonces

/-!
# What passes through the loops

A run of a chunk loop takes bytes from the reader, hands texts to the AEAD, gets results back and
passes bytes to the writer. The plaintext reaches the writer of an encryption through the AEAD only,
and nothing reaches the writer of a decryption before the AEAD has accepted its frame.

## Main results

* `records_encryptCalls`, `records_decryptCalls`: what the loops keep, from one chunk to the next;
* `data_flow`: the calls, the texts and the output of a run, at every moment and whatever the
  reader, the writer and the AEAD answer.
-/

namespace Cry

open Rust Effects Framing

/-! ## The record of a run -/

/-- What has passed through a loop so far. -/
structure Flow where
  /-- The bytes that the reader has given. -/
  taken : Bytes := []
  /-- The calls of the AEAD. -/
  calls : List CipherOp := []
  /-- What the calls that succeeded have returned. -/
  results : List Bytes := []
  /-- The bytes that have been passed to the writer. -/
  written : Bytes := []

namespace Flow

/-- The reader gives bytes. -/
def take (m : Flow) (bs : Bytes) : Flow := { m with taken := m.taken ++ bs }

/-- Bytes are passed to the writer. -/
def write (m : Flow) (buf : Bytes) : Flow := { m with written := m.written ++ buf }

/-- A call of the AEAD. -/
def call (m : Flow) (o : CipherOp) (res : Option Bytes) : Flow :=
  { m with calls := m.calls ++ [o], results := m.results ++ res.toList }

/-- Enter an operation and its answer. -/
def record (m : Flow) : (o : CipherOp) → CipherRes o → Flow
  | .stream (.read _), .ok bs => m.take bs
  | .stream (.read _), .error _ => m
  | .stream (.writeAll buf), _ => m.write buf
  | .encrypt algo key nonce msg aad, res => m.call (.encrypt algo key nonce msg aad) res
  | .decrypt algo key nonce ct aad, res => m.call (.decrypt algo key nonce ct aad) res

@[simp] theorem take_nil (m : Flow) : m.take [] = m := by simp [take]

@[simp] theorem take_take (m : Flow) (as bs : Bytes) : (m.take as).take bs = m.take (as ++ bs) := by
  simp [take]

@[simp] theorem write_nil (m : Flow) : m.write [] = m := by simp [write]

@[simp] theorem write_write (m : Flow) (as bs : Bytes) :
    (m.write as).write bs = m.write (as ++ bs) := by
  simp [write]

end Flow

/-- The text that a call gets. -/
def CipherOp.text : CipherOp → Bytes
  | .stream _ => []
  | .encrypt _ _ _ msg _ => msg
  | .decrypt _ _ _ ct _ => ct

/-- The texts of the calls. -/
def Flow.texts (m : Flow) : List Bytes := m.calls.map CipherOp.text

/-- What a loop makes of its input: the call for a text at a position, the bytes of the input that
the text comes from, and the bytes of the output that a result goes into. -/
structure Plan where
  call : ℕ → Bytes → CipherOp
  piece : Bytes → Bytes
  emit : Bytes → Bytes
  text_call : ∀ i text, (call i text).text = text

namespace Plan

/-- At every moment the calls are those for consecutive pieces of what has been taken, and what has
been written is made from the results in order. -/
structure Keeps (plan : Plan) (m : Flow) : Prop where
  calls : m.calls = m.texts.mapIdx plan.call
  taken : m.texts.flatMap plan.piece <+: m.taken
  written : m.written <+: m.results.flatMap plan.emit

/-- Before chunk `i`, everything that has been taken has been handed on, and everything that has
been returned has been written. -/
structure Ready (plan : Plan) (i : ℕ) (m : Flow) : Prop where
  calls : m.calls = m.texts.mapIdx plan.call
  count : m.calls.length = i
  taken : m.taken = m.texts.flatMap plan.piece
  written : m.written = m.results.flatMap plan.emit

variable {plan : Plan} {i : ℕ} {m : Flow}

theorem Ready.take (h : plan.Ready i m) (bs : Bytes) : plan.Keeps (m.take bs) where
  calls := h.calls
  taken := by
    show m.texts.flatMap plan.piece <+: m.taken ++ bs
    rw [h.taken]
    exact List.prefix_append _ _
  written := by
    show m.written <+: m.results.flatMap plan.emit
    rw [h.written]

theorem Ready.keeps (h : plan.Ready i m) : plan.Keeps m := by
  simpa using h.take []

/-- The call for chunk `i` extends the calls. -/
theorem Ready.call_calls (h : plan.Ready i m) (text : Bytes) (res : Option Bytes) :
    (m.call (plan.call i text) res).texts = m.texts ++ [text] ∧
      (m.call (plan.call i text) res).calls = (m.texts ++ [text]).mapIdx plan.call := by
  have hlen : m.texts.length = i := by rw [Flow.texts, List.length_map, h.count]
  refine ⟨by simp [Flow.texts, Flow.call, plan.text_call], ?_⟩
  rw [List.mapIdx_append, ← h.calls]
  simp [Flow.call, hlen]

/-- From the call for chunk `i` until its result has been written. -/
theorem Ready.call (h : plan.Ready i m) (text : Bytes) {res : Option Bytes} {bs : Bytes}
    (hbs : bs <+: res.toList.flatMap plan.emit) :
    plan.Keeps (((m.take (plan.piece text)).call (plan.call i text) res).write bs) where
  calls := by
    obtain ⟨htexts, hcalls⟩ := h.call_calls text res
    exact hcalls.trans (by rw [← htexts]; rfl)
  taken := by
    show (m.call (plan.call i text) res).texts.flatMap plan.piece <+: m.taken ++ plan.piece text
    rw [(h.call_calls text res).1, h.taken]
    simp
  written := by
    show m.written ++ bs <+: (m.results ++ res.toList).flatMap plan.emit
    rw [h.written, List.flatMap_append]
    exact (List.prefix_append_right_inj _).mpr hbs

/-- A call that has failed leaves the output as it is. -/
theorem Ready.called (h : plan.Ready i m) (text : Bytes) (res : Option Bytes) :
    plan.Keeps ((m.take (plan.piece text)).call (plan.call i text) res) := by
  simpa using h.call text (List.nil_prefix : [] <+: res.toList.flatMap plan.emit)

/-- Once the result has been written, chunk `i + 1` is next. -/
theorem Ready.next (h : plan.Ready i m) (text r : Bytes) :
    plan.Ready (i + 1)
      (((m.take (plan.piece text)).call (plan.call i text) (some r)).write (plan.emit r)) where
  calls := (h.call text (List.prefix_append (plan.emit r) [])).calls
  count := by
    show (m.calls ++ [plan.call i text]).length = i + 1
    rw [List.length_append, h.count, List.length_singleton]
  taken := by
    show m.taken ++ plan.piece text = (m.call (plan.call i text) (some r)).texts.flatMap plan.piece
    rw [(h.call_calls text (some r)).1, h.taken]
    simp
  written := by
    show m.written ++ plan.emit r = (m.results ++ [r]).flatMap plan.emit
    rw [h.written]
    simp

end Plan

/-- Encryption: the texts are cut out of the input, and the output is the frames of the results. -/
def sealing (key : U8Array 32) (baseNonce : U8Array 12) (algo : Algorithm) (aad : U8Array 32) :
    Plan where
  call i text := .encrypt algo key (chunkNonce baseNonce (UInt64.ofNat i)) text
    (chunkAad aad (UInt64.ofNat i))
  piece := id
  emit := frame
  text_call _ _ := rfl

/-- Decryption: the input is the frames of the texts, and the output is the results. -/
def opening (key : U8Array 32) (baseNonce : U8Array 12) (algo : Algorithm) (aad : U8Array 32) :
    Plan where
  call i text := .decrypt algo key (chunkNonce baseNonce (UInt64.ofNat i)) text
    (chunkAad aad (UInt64.ofNat i))
  piece := frame
  emit := id
  text_call _ _ := rfl

/-! ## Reading and writing -/

section Streams

variable {m : Flow} {I : Flow → Prop}

theorem onStream_bind {α β : Type} (x : StreamProg Stop α) (f : α → StreamProg Stop β) :
    onStream (x.bind f) = (onStream x).bind fun a => onStream (f a) :=
  Prog.interpret_bind _ x f

theorem onStream_ofExcept {α : Type} (r : Except Stop α) :
    onStream (Prog.ofExcept r) = Prog.ofExcept r :=
  Prog.interpret_ofExcept _ r

/-- Filling a buffer takes what it returns. -/
theorem records_fill {len : ℕ} (fuel : ℕ) (buf : Bytes) (hI : ∀ bs, I (m.take bs)) :
    (onStream (fill fuel len buf)).Records Flow.record I
      (fun r m' => ∀ buf', r = .ok buf' → ∃ bs, buf' = buf ++ bs ∧ m' = m.take bs) m := by
  induction fuel generalizing buf m with
  | zero => trivial
  | succ fuel ih =>
    rw [fill]
    by_cases hlt : buf.length < len
    · rw [if_pos hlt]
      have hsame : I m := by simpa using hI []
      intro res
      rcases res with e | _ | ⟨b, bs⟩
      · refine ⟨hsame, ?_⟩
        cases e with
        | interrupted => exact ih buf hI
        | _ => exact fun buf' h => by cases h
      · refine ⟨hI [], fun buf' h => ⟨[], ?_, rfl⟩⟩
        rw [List.append_nil]
        exact (Except.ok.inj h).symm
      · refine ⟨hI _, (ih (buf ++ b :: bs) fun cs => ?_).mono fun r m' h buf' hr => ?_⟩
        · simpa [Flow.record] using hI (b :: bs ++ cs)
        · obtain ⟨cs, rfl, rfl⟩ := h buf' hr
          exact ⟨b :: bs ++ cs, by simp, by simp [Flow.record]⟩
    · rw [if_neg hlt]
      refine fun buf' h => ⟨[], ?_, by simp⟩
      rw [List.append_nil]
      exact (Except.ok.inj h).symm

theorem records_readChunk (fuel len : ℕ) (hI : ∀ bs, I (m.take bs)) :
    (onStream (readChunk fuel len)).Records Flow.record I (fun buf m' => m' = m.take buf) m := by
  rw [readChunk, Prog.bind_eq, onStream_bind]
  refine (records_fill fuel [] hI).bind fun r m' h => ?_
  rw [onStream_ofExcept]
  refine Prog.records_ofExcept fun buf hbuf => ?_
  cases r with
  | error e => cases hbuf
  | ok buf' =>
    obtain rfl := Except.ok.inj hbuf
    obtain ⟨bs, rfl, rfl⟩ := h buf' rfl
    rfl

/-- An array that is filled has been taken whole. -/
theorem records_readExact (fuel len : ℕ) (hI : ∀ bs, I (m.take bs)) :
    (onStream (readExact fuel len)).Records Flow.record I
      (fun r m' => ∀ a, r = .ok a → m' = m.take a.val) m := by
  rw [readExact, onStream_bind]
  refine (records_fill fuel [] hI).bind fun r m' h => ?_
  cases r with
  | error e => exact fun a ha => by cases ha
  | ok buf =>
    obtain ⟨bs, rfl, rfl⟩ := h buf rfl
    by_cases hlen : buf.length = len
    · simp only [dif_pos hlen]
      rintro a ha
      obtain rfl := Except.ok.inj ha
      rfl
    · simp only [dif_neg hlen]
      exact fun a ha => by cases ha

/-- A ciphertext that has been read was taken with its length. -/
theorem records_readFrame (fuel : ℕ) (index : UInt64) (hI : ∀ bs, I (m.take bs)) :
    (onStream (readFrame fuel index)).Records Flow.record I
      (fun r m' => ∀ ct, r = some ct → m' = m.take (frame ct)) m := by
  rw [readFrame, onStream_bind]
  refine (records_readExact fuel 4 hI).bind fun r m' h => ?_
  cases r with
  | error e =>
    cases e with
    | unexpectedEof => exact fun ct hct => by cases hct
    | _ => trivial
  | ok lenBuf =>
    obtain rfl := h lenBuf rfl
    by_cases hcap : maxChunkWireLen < (BigEndian.toU32 lenBuf).toNat
    · simp only [if_pos hcap]
      trivial
    · simp only [if_neg hcap, readExactOr, Prog.bind_eq, Prog.bind_assoc, onStream_bind]
      refine (records_readExact fuel _ fun bs => ?_).bind fun r m' h => ?_
      · rw [Flow.take_take]
        exact hI _
      · cases r with
        | error e => trivial
        | ok ct =>
          obtain rfl := h ct rfl
          -- the length word and the ciphertext make up the frame
          rintro c hc
          obtain rfl := Option.some.inj hc
          rw [Flow.take_take, frame_val ct]

theorem records_writeAll (buf : Bytes) (hI : I (m.write buf)) :
    (onStream (writeAll buf)).Records Flow.record I (fun _ m' => m' = m.write buf) m := by
  rw [writeAll, Prog.bind_eq, Prog.perform_bind]
  refine fun res => ⟨hI, ?_⟩
  show (onStream (Prog.ofExcept (ofIo res))).Records Flow.record I _ (m.write buf)
  rw [onStream_ofExcept]
  exact Prog.records_ofExcept fun _ _ => rfl

end Streams

/-! ## The loops -/

section Loops

variable (key : U8Array 32) (baseNonce : U8Array 12) (algo : Algorithm) (aad : U8Array 32)

/-- After counting chunk `i`, the loop goes on at `i + 1`, or the counter is at its maximum. -/
theorem records_nextIndex {α : Type} {I : Flow → Prop} {Q : α → Flow → Prop} {m : Flow} {i : ℕ}
    (hi : i < 2 ^ 64) {k : UInt64 → CipherProg α}
    (hk : i + 1 < 2 ^ 64 → (k (UInt64.ofNat (i + 1))).Records Flow.record I Q m) :
    ((Prog.ofExcept (nextIndex (UInt64.ofNat i))).bind k).Records Flow.record I Q m := by
  rw [nextIndex_ofNat hi]
  by_cases hlt : i + 1 < 2 ^ 64
  · rw [if_pos hlt]
    exact hk hlt
  · rw [if_neg hlt]
    trivial

/-- A round of the encryption loop seals one chunk. -/
theorem records_encryptCalls (fuel : ℕ) {i : ℕ} (hi : i < 2 ^ 64) {m : Flow}
    (hm : (sealing key baseNonce algo aad).Ready i m) :
    (encryptCalls key baseNonce algo aad fuel (UInt64.ofNat i)).Records Flow.record
      (sealing key baseNonce algo aad).Keeps (fun _ _ => True) m := by
  -- induction on the fuel: a round leads from `Ready i` to `Ready (i + 1)`
  induction fuel generalizing i m with
  | zero => trivial
  | succ fuel ih =>
    simp only [encryptCalls, Prog.bind_eq]
    refine (records_readChunk _ _ hm.take).bind fun buf m' hread => ?_
    subst hread
    by_cases hzero : buf.length = 0
    · rw [if_pos hzero]
      trivial
    · rw [if_neg hzero]
      refine fun res => ⟨hm.called buf res, ?_⟩
      cases res with
      | none => trivial
      | some ct =>
        have hnext := hm.next buf ct
        have hword : BigEndian.ofU32 (UInt32.ofNat ct.length) <+:
            (some ct).toList.flatMap (sealing key baseNonce algo aad).emit := by
          rw [Option.toList_some, List.flatMap_singleton]
          exact List.prefix_append _ ct
        refine (records_writeAll _ (hm.call buf hword)).bind fun _ m₁ h₁ => ?_
        subst h₁
        refine (records_writeAll _ ?_).bind fun _ m₂ h₂ => ?_
        · rw [Flow.write_write]
          exact hnext.keeps
        · subst h₂
          rw [Flow.write_write]
          refine records_nextIndex hi fun hlt => ?_
          by_cases hshort : buf.length < chunkSize
          · rw [if_pos hshort]
            trivial
          · rw [if_neg hshort]
            exact ih hlt hnext

/-- A round of the decryption loop opens one frame. -/
theorem records_decryptCalls (fuel : ℕ) {i : ℕ} (hi : i < 2 ^ 64) {m : Flow}
    (hm : (opening key baseNonce algo aad).Ready i m) :
    (decryptCalls key baseNonce algo aad fuel (UInt64.ofNat i)).Records Flow.record
      (opening key baseNonce algo aad).Keeps (fun _ _ => True) m := by
  induction fuel generalizing i m with
  | zero => trivial
  | succ fuel ih =>
    simp only [decryptCalls, Prog.bind_eq]
    refine (records_readFrame _ _ hm.take).bind fun r m' hread => ?_
    cases r with
    | none => trivial
    | some ct =>
      obtain rfl := hread ct rfl
      refine fun res => ⟨hm.called ct res, ?_⟩
      cases res with
      | none => trivial
      | some plain =>
        have hnext := hm.next ct plain
        refine (records_writeAll _ hnext.keeps).bind fun _ m₁ h₁ => ?_
        subst h₁
        exact records_nextIndex hi fun hlt => ih hlt hnext

end Loops

/-! ## Every moment of a run -/

theorem Plan.ready_zero (plan : Plan) : plan.Ready 0 {} :=
  ⟨rfl, rfl, rfl, rfl⟩

/-- The data flow of the loops, at every moment of every run. An encryption passes consecutive
pieces of what it has read to the AEAD, each under the nonce and the associated data of its
position, and writes nothing but the frames of what the AEAD has returned. A decryption passes the
ciphertexts of consecutive frames of what it has read to the AEAD, in the same way, and writes
nothing but what the AEAD has returned. -/
theorem data_flow (key : U8Array 32) (baseNonce : U8Array 12) (algo : Algorithm) (aad : U8Array 32)
    (fuel : ℕ) :
    (∀ es rest, (encryptCalls key baseNonce algo aad fuel 0).Trace es rest →
      let m := Prog.recorded Flow.record es {}
      m.calls = m.texts.mapIdx (fun i text => .encrypt algo key
        (chunkNonce baseNonce (UInt64.ofNat i)) text (chunkAad aad (UInt64.ofNat i))) ∧
      m.texts.flatten <+: m.taken ∧ m.written <+: frames m.results) ∧
    ∀ es rest, (decryptCalls key baseNonce algo aad fuel 0).Trace es rest →
      let m := Prog.recorded Flow.record es {}
      m.calls = m.texts.mapIdx (fun i text => .decrypt algo key
        (chunkNonce baseNonce (UInt64.ofNat i)) text (chunkAad aad (UInt64.ofNat i))) ∧
      frames m.texts <+: m.taken ∧ m.written <+: m.results.flatten := by
  constructor
  · intro es rest ht
    have hready := (sealing key baseNonce algo aad).ready_zero
    have hkeeps := (records_encryptCalls key baseNonce algo aad fuel (by norm_num) hready).of_trace
      hready.keeps ht
    refine ⟨hkeeps.calls, ?_, ?_⟩
    · simpa [sealing] using hkeeps.taken
    · rw [frames, ← List.flatMap_def]
      exact hkeeps.written
  · intro es rest ht
    have hready := (opening key baseNonce algo aad).ready_zero
    have hkeeps := (records_decryptCalls key baseNonce algo aad fuel (by norm_num) hready).of_trace
      hready.keeps ht
    refine ⟨hkeeps.calls, ?_, ?_⟩
    · rw [frames, ← List.flatMap_def]
      exact hkeeps.taken
    · simpa [opening] using hkeeps.written

end Cry
