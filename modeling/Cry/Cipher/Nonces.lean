import Cry.Cipher.Frames
import Cry.Effects.Trace

/-!
# The nonces of a run

The chunk loops with the calls of the AEAD as operations of their own, next to those on the reader
and the writer. Served by the primitives, these programs are the chunk loops. Their runs are all
runs of the loops and show every call of the AEAD, whatever the reader, the writer and the AEAD
answer.

## Main results

* `ofBytes_chunkNonce`: the nonce of a chunk is the base nonce plus the index, modulo `2^96`;
* `interpret_encryptCalls`, `interpret_decryptCalls`: with the calls served, the loops are those of
  `encrypt_chunks` and `decrypt_chunks`;
* `nonces_distinct`: a run never passes one nonce to the AEAD twice, and the calls of a decryption
  get the nonces of the calls of an encryption;
* `nonce_reused_iff`: when two encryptions share a nonce.
-/

namespace Cry

open Rust Effects

/-! ## 96-bit addition -/

/-- The nonce of a chunk is the base nonce plus the index, as 96-bit numbers. -/
theorem ofBytes_chunkNonce (base : U8Array 12) (index : UInt64) :
    BigEndian.ofBytes (chunkNonce base index).val =
      (BigEndian.ofBytes base.val + index.toNat) % 2 ^ 96 := by
  have hindex := index.toNat_lt
  -- the two limbs of the base nonce
  have hbase : BigEndian.ofBytes base.val =
      BigEndian.ofBytes (base.val.take 4) * 2 ^ 64 + BigEndian.ofBytes (base.val.drop 4) := by
    conv_lhs => rw [← List.take_append_drop 4 base.val]
    rw [BigEndian.ofBytes_append]
    simp
  have hhi : BigEndian.ofBytes (base.val.take 4) < 2 ^ 32 := by
    simpa using BigEndian.ofBytes_lt (base.val.take 4)
  have hlo : BigEndian.ofBytes (base.val.drop 4) < 2 ^ 64 := by
    simpa using BigEndian.ofBytes_lt (base.val.drop 4)
  -- the limbs of the result, each modulo its own width
  simp only [chunkNonce, BigEndian.ofBytes_append, BigEndian.ofBytes_ofU32,
    BigEndian.ofBytes_ofU64, BigEndian.length_ofU64, UInt32.toNat_add, UInt64.toNat_add,
    BigEndian.toNat_toU32, BigEndian.toNat_toU64]
  rw [hbase]
  generalize BigEndian.ofBytes (base.val.take 4) = hi at hhi
  generalize BigEndian.ofBytes (base.val.drop 4) = lo at hlo
  by_cases hcarry : 2 ^ 64 ≤ lo + index.toNat
  · rw [if_pos hcarry]
    have hone : (1 : UInt32).toNat = 1 := rfl
    omega
  · rw [if_neg hcarry]
    have hzero : (0 : UInt32).toNat = 0 := rfl
    omega

/-- Different indices give different nonces. -/
theorem chunkNonce_injective (base : U8Array 12) : Function.Injective (chunkNonce base) := by
  intro i j h
  have hi := i.toNat_lt
  have hj := j.toNat_lt
  have heq : (BigEndian.ofBytes base.val + i.toNat) % 2 ^ 96 =
      (BigEndian.ofBytes base.val + j.toNat) % 2 ^ 96 := by
    rw [← ofBytes_chunkNonce, ← ofBytes_chunkNonce, h]
  apply UInt64.toNat_inj.mp
  omega

/-! ## The loops with their calls -/

/-- The operations of the chunk loops: those on the reader and the writer, and the calls of the
AEAD. -/
inductive CipherOp
  /-- An operation on the reader or the writer. -/
  | stream (o : StreamOp)
  /-- `Aead::encrypt`. -/
  | encrypt (algo : Algorithm) (key : U8Array 32) (nonce : U8Array 12) (msg aad : Bytes)
  /-- `Aead::decrypt`. -/
  | decrypt (algo : Algorithm) (key : U8Array 32) (nonce : U8Array 12) (ct aad : Bytes)

/-- The answers to the operations. -/
abbrev CipherRes : CipherOp → Type
  | .stream o => StreamRes o
  | .encrypt _ _ _ _ _ => Option Bytes
  | .decrypt _ _ _ _ _ => Option Bytes

/-- Programs over the reader, the writer and the AEAD. -/
abbrev CipherProg (α : Type) := Prog CipherOp CipherRes Stop α

/-- A program over the reader and the writer. -/
def onStream {α : Type} (x : StreamProg Stop α) : CipherProg α :=
  x.interpret fun o => Prog.perform (CipherOp.stream o)

/-- `encrypt_chunk`, with the call as an operation. -/
def encryptCall (plain : Bytes) (key : U8Array 32) (nonce : U8Array 12) (algo : Algorithm)
    (aad : Bytes) : CipherProg Bytes :=
  .op (.encrypt algo key nonce plain aad) fun
    | some ct => .pure ct
    | none => .throw (.err .encryptionFailed)

/-- `decrypt_chunk`, with the call as an operation. -/
def decryptCall (ct : Bytes) (key : U8Array 32) (nonce : U8Array 12) (algo : Algorithm)
    (aad : Bytes) : CipherProg Bytes :=
  .op (.decrypt algo key nonce ct aad) fun
    | some plain => .pure plain
    | none => .throw (.err .decryptionFailed)

/-- The loop of `encrypt_chunks`, with its calls. -/
def encryptCalls (key : U8Array 32) (baseNonce : U8Array 12) (algo : Algorithm)
    (headerAad : U8Array 32) : (fuel : ℕ) → (chunkIndex : UInt64) → CipherProg UInt64
  | 0, _ => .diverge
  | fuel + 1, chunkIndex => do
    let buf ← onStream (readChunk (fuel + 1) chunkSize)
    if buf.length = 0 then
      pure chunkIndex
    else
      let nonce := chunkNonce baseNonce chunkIndex
      let aad := chunkAad headerAad chunkIndex
      let ct ← encryptCall buf key nonce algo aad
      let len := UInt32.ofNat ct.length
      onStream (writeAll (BigEndian.ofU32 len))
      onStream (writeAll ct)
      let chunkIndex ← Prog.ofExcept (nextIndex chunkIndex)
      if buf.length < chunkSize then
        pure chunkIndex
      else
        encryptCalls key baseNonce algo headerAad fuel chunkIndex

/-- The loop of `decrypt_chunks`, with its calls. -/
def decryptCalls (key : U8Array 32) (baseNonce : U8Array 12) (algo : Algorithm)
    (headerAad : U8Array 32) : (fuel : ℕ) → (chunkIndex : UInt64) → CipherProg UInt64
  | 0, _ => .diverge
  | fuel + 1, chunkIndex => do
    match ← onStream (readFrame (fuel + 1) chunkIndex) with
    | none => pure chunkIndex
    | some ct =>
      let nonce := chunkNonce baseNonce chunkIndex
      let aad := chunkAad headerAad chunkIndex
      let plain ← decryptCall ct key nonce algo aad
      onStream (writeAll plain)
      let chunkIndex ← Prog.ofExcept (nextIndex chunkIndex)
      decryptCalls key baseNonce algo headerAad fuel chunkIndex

/-! ## Serving the calls -/

/-- The AEADs answer the calls, and the operations on the reader and the writer stay. -/
def callAead (P : Primitives) : (o : CipherOp) → StreamProg Stop (CipherRes o)
  | .stream o => Prog.perform o
  | .encrypt algo key nonce msg aad => .pure ((P.aead algo).encrypt key nonce msg aad)
  | .decrypt algo key nonce ct aad => .pure ((P.aead algo).decrypt key nonce ct aad)

section Served

variable (P : Primitives) (key : U8Array 32)

@[simp] theorem interpret_onStream {α : Type} (x : StreamProg Stop α) :
    (onStream x).interpret (callAead P) = x := by
  rw [onStream, Prog.interpret_interpret]
  exact Prog.interpret_perform x

@[simp] theorem interpret_encryptCall (plain : Bytes) (nonce : U8Array 12) (algo : Algorithm)
    (aad : Bytes) : (encryptCall plain key nonce algo aad).interpret (callAead P) =
      Prog.ofExcept (encryptChunk P plain key nonce algo aad) := by
  rw [encryptCall, Prog.interpret_op, callAead, Prog.pure_bind, encryptChunk]
  cases (P.aead algo).encrypt key nonce plain aad <;> rfl

@[simp] theorem interpret_decryptCall (ct : Bytes) (nonce : U8Array 12) (algo : Algorithm)
    (aad : Bytes) : (decryptCall ct key nonce algo aad).interpret (callAead P) =
      Prog.ofExcept (decryptChunk P ct key nonce algo aad) := by
  rw [decryptCall, Prog.interpret_op, callAead, Prog.pure_bind, decryptChunk]
  cases (P.aead algo).decrypt key nonce ct aad <;> rfl

/-- With its calls served, the loop is that of `encrypt_chunks`. -/
theorem interpret_encryptCalls (baseNonce : U8Array 12) (algo : Algorithm) (aad : U8Array 32)
    (fuel : ℕ) (i : UInt64) :
    (encryptCalls key baseNonce algo aad fuel i).interpret (callAead P) =
      encryptLoop P key baseNonce algo aad fuel i := by
  -- induction on the fuel; within a round the two sides agree step by step
  induction fuel generalizing i with
  | zero => rfl
  | succ fuel ih =>
    simp only [encryptCalls, encryptLoop, Prog.bind_eq, Prog.interpret_bind, interpret_onStream]
    congr 1
    funext buf
    by_cases hzero : buf.length = 0
    · simp only [if_pos hzero, Prog.pure_eq, Prog.interpret_pure]
    · simp only [if_neg hzero, Prog.interpret_bind, interpret_encryptCall, interpret_onStream,
        Prog.interpret_ofExcept]
      congr 1
      funext ct
      congr 1
      funext _
      congr 1
      funext _
      congr 1
      funext j
      by_cases hshort : buf.length < chunkSize
      · simp only [if_pos hshort, Prog.pure_eq, Prog.interpret_pure]
      · simp only [if_neg hshort, ih]

/-- With its calls served, the loop is that of `decrypt_chunks`. -/
theorem interpret_decryptCalls (baseNonce : U8Array 12) (algo : Algorithm) (aad : U8Array 32)
    (fuel : ℕ) (i : UInt64) :
    (decryptCalls key baseNonce algo aad fuel i).interpret (callAead P) =
      decryptLoop P key baseNonce algo aad fuel i := by
  -- induction on the fuel; within a round the two sides agree step by step
  induction fuel generalizing i with
  | zero => rfl
  | succ fuel ih =>
    simp only [decryptCalls, decryptLoop_succ, Prog.bind_eq, Prog.interpret_bind,
      interpret_onStream]
    congr 1
    funext res
    cases res with
    | none => rfl
    | some ct =>
      simp only [Prog.interpret_bind, interpret_decryptCall, interpret_onStream,
        Prog.interpret_ofExcept, ih]

end Served

/-! ## The nonces -/

/-- The nonce that a call gets. -/
def CipherOp.nonce : CipherOp → Option (U8Array 12)
  | .stream _ => none
  | .encrypt _ _ nonce _ _ => some nonce
  | .decrypt _ _ nonce _ _ => some nonce

/-- The nonces that the calls of a run get, in order. -/
def nonces (es : List (Sigma CipherRes)) : List (U8Array 12) :=
  es.filterMap fun e => e.1.nonce

/-- The nonces of the chunks from `i` on. -/
def noncesFrom (baseNonce : U8Array 12) (i : ℕ) : List (U8Array 12) :=
  (List.range' i (2 ^ 64 - i)).map fun j => chunkNonce baseNonce (UInt64.ofNat j)

theorem noncesFrom_eq_cons (baseNonce : U8Array 12) {i : ℕ} (hi : i < 2 ^ 64) :
    noncesFrom baseNonce i =
      chunkNonce baseNonce (UInt64.ofNat i) :: noncesFrom baseNonce (i + 1) := by
  -- there is a chunk `i`, and then those after it
  have hcount : 2 ^ 64 - i = 2 ^ 64 - (i + 1) + 1 := by omega
  rw [noncesFrom, hcount, List.range'_succ, List.map_cons, noncesFrom]

/-- No two chunks of a file have one nonce, also where the 64-bit limb carries and where the 96-bit
number wraps. -/
theorem nodup_noncesFrom (baseNonce : U8Array 12) : (noncesFrom baseNonce 0).Nodup := by
  refine List.Nodup.map_on (fun i hi j hj h => ?_) List.nodup_range'
  rw [List.mem_range'_1] at hi hj
  have hi' : i < 2 ^ 64 := by omega
  have hj' : j < 2 ^ 64 := by omega
  have heq := congrArg UInt64.toNat (chunkNonce_injective baseNonce h)
  rwa [UInt64.toNat_ofNat_of_lt' hi', UInt64.toNat_ofNat_of_lt' hj'] at heq

section Emits

variable {key : U8Array 32} {baseNonce : U8Array 12} {algo : Algorithm} {aad : U8Array 32}

theorem uses_onStream {α : Type} (x : StreamProg Stop α) :
    (onStream x).Uses (CipherOp.nonce · = none) := by
  refine Prog.uses_interpret _ (fun o => ?_) x
  exact ⟨rfl, fun _ => trivial⟩

/-- After counting chunk `i`, the loop goes on at `i + 1`, or the counter is at its maximum. -/
theorem emits_nextIndex {i : ℕ} (hi : i < 2 ^ 64) {k : UInt64 → CipherProg UInt64}
    (hk : i + 1 < 2 ^ 64 →
      (k (UInt64.ofNat (i + 1))).Emits CipherOp.nonce (noncesFrom baseNonce (i + 1))) :
    ((Prog.ofExcept (nextIndex (UInt64.ofNat i))).bind k).Emits CipherOp.nonce
      (noncesFrom baseNonce (i + 1)) := by
  rw [nextIndex_ofNat hi]
  by_cases hlt : i + 1 < 2 ^ 64
  · rw [if_pos hlt]
    exact hk hlt
  · rw [if_neg hlt]
    trivial

/-- A run of the encryption loop passes the nonces in the order of the chunks. -/
theorem encryptCalls_emits (fuel : ℕ) {i : ℕ} (hi : i < 2 ^ 64) :
    (encryptCalls key baseNonce algo aad fuel (UInt64.ofNat i)).Emits CipherOp.nonce
      (noncesFrom baseNonce i) := by
  -- induction on the fuel: a round passes the nonce of chunk `i` and leaves those from `i + 1` on
  induction fuel generalizing i with
  | zero => trivial
  | succ fuel ih =>
    simp only [encryptCalls, Prog.bind_eq]
    refine .bind (uses_onStream _) fun buf => ?_
    by_cases hzero : buf.length = 0
    · rw [if_pos hzero]
      trivial
    · rw [if_neg hzero, noncesFrom_eq_cons baseNonce hi]
      -- the one call of the round; reading and writing pass no nonce
      refine .cons rfl fun res => ?_
      cases res with
      | none => trivial
      | some ct =>
        rw [Prog.pure_bind]
        refine .bind (uses_onStream _) fun _ => .bind (uses_onStream _) fun _ => ?_
        refine emits_nextIndex hi fun hlt => ?_
        by_cases hshort : buf.length < chunkSize
        · rw [if_pos hshort]
          trivial
        · rw [if_neg hshort]
          exact ih hlt

/-- A run of the decryption loop passes the nonces in the order of the frames. -/
theorem decryptCalls_emits (fuel : ℕ) {i : ℕ} (hi : i < 2 ^ 64) :
    (decryptCalls key baseNonce algo aad fuel (UInt64.ofNat i)).Emits CipherOp.nonce
      (noncesFrom baseNonce i) := by
  induction fuel generalizing i with
  | zero => trivial
  | succ fuel ih =>
    simp only [decryptCalls, Prog.bind_eq]
    refine .bind (uses_onStream _) fun res => ?_
    cases res with
    | none => trivial
    | some ct =>
      rw [noncesFrom_eq_cons baseNonce hi]
      -- the one call of the round, for the frame that was read
      refine .cons rfl fun res => ?_
      cases res with
      | none => trivial
      | some plain =>
        rw [Prog.pure_bind]
        exact .bind (uses_onStream _) fun _ => emits_nextIndex hi fun hlt => ih hlt

end Emits

private theorem getElem?_of_isPrefix {α : Type} {xs ys : List α} (h : xs <+: ys) {i : ℕ} {a : α}
    (ha : xs[i]? = some a) : ys[i]? = some a := by
  obtain ⟨t, rfl⟩ := h
  rw [List.getElem?_append_left (List.getElem?_eq_some_iff.mp ha).1, ha]

/-- Nonces are true 96-bit addition. With their calls served, the programs are `encrypt_chunks` and
`decrypt_chunks`; the calls of a run of the first, however it goes and wherever it is, get pairwise
different nonces, and the call for frame `i` in a run of the second under the same base nonce gets
the nonce of the call for chunk `i`. -/
theorem nonces_distinct (baseNonce : U8Array 12) :
    (∀ index : UInt64, BigEndian.ofBytes (chunkNonce baseNonce index).val =
      (BigEndian.ofBytes baseNonce.val + index.toNat) % 2 ^ 96) ∧
    (∀ P key algo aad fuel,
      (encryptCalls key baseNonce algo aad fuel 0).interpret (callAead P) =
        encryptChunks P fuel key baseNonce algo aad ∧
      (decryptCalls key baseNonce algo aad fuel 0).interpret (callAead P) =
        decryptChunks P fuel key baseNonce algo aad) ∧
    (∀ key algo aad fuel es rest,
      (encryptCalls key baseNonce algo aad fuel 0).Trace es rest → (nonces es).Nodup) ∧
    ∀ key algo aad fuel es rest key' algo' aad' fuel' es' rest',
      (encryptCalls key baseNonce algo aad fuel 0).Trace es rest →
      (decryptCalls key' baseNonce algo' aad' fuel' 0).Trace es' rest' →
      ∀ (i : ℕ) (n n' : U8Array 12), (nonces es)[i]? = some n → (nonces es')[i]? = some n' →
        n' = n := by
  have hencrypt : ∀ {key algo aad fuel es rest},
      (encryptCalls key baseNonce algo aad fuel 0).Trace es rest →
        nonces es <+: noncesFrom baseNonce 0 :=
    fun ht => (encryptCalls_emits _ (by norm_num)).of_trace ht
  have hdecrypt : ∀ {key algo aad fuel es rest},
      (decryptCalls key baseNonce algo aad fuel 0).Trace es rest →
        nonces es <+: noncesFrom baseNonce 0 :=
    fun ht => (decryptCalls_emits _ (by norm_num)).of_trace ht
  refine ⟨ofBytes_chunkNonce baseNonce, ?_, ?_, ?_⟩
  · intro P key algo aad fuel
    exact ⟨interpret_encryptCalls P key baseNonce algo aad fuel 0,
      interpret_decryptCalls P key baseNonce algo aad fuel 0⟩
  · intro key algo aad fuel es rest ht
    exact (nodup_noncesFrom baseNonce).sublist (hencrypt ht).sublist
  · intro key algo aad fuel es rest key' algo' aad' fuel' es' rest' ht ht' i n n' hn hn'
    -- both lists of nonces are prefixes of one list
    have hall := getElem?_of_isPrefix (hencrypt ht) hn
    have hall' := getElem?_of_isPrefix (hdecrypt ht') hn'
    exact Option.some.inj (hall'.symm.trans hall)

/-! ## Two files under one key -/

/-- Two nonces of chunks are one nonce when they are one 96-bit number. -/
theorem chunkNonce_eq_iff (base base' : U8Array 12) (i j : UInt64) :
    chunkNonce base i = chunkNonce base' j ↔
      (BigEndian.ofBytes base.val + i.toNat) % 2 ^ 96 =
        (BigEndian.ofBytes base'.val + j.toNat) % 2 ^ 96 := by
  rw [← ofBytes_chunkNonce, ← ofBytes_chunkNonce]
  refine ⟨fun h => by rw [h], fun h => Subtype.ext ?_⟩
  have hlen : (chunkNonce base i).val.length = (chunkNonce base' j).val.length := by
    rw [(chunkNonce base i).property, (chunkNonce base' j).property]
  rw [← BigEndian.toBytes_ofBytes (chunkNonce base i).val, h, hlen, BigEndian.toBytes_ofBytes]

/-- How far the second base nonce is ahead of the first, modulo `2^96`. -/
def ahead (base base' : U8Array 12) : ℕ :=
  (BigEndian.ofBytes base'.val + (2 ^ 96 - BigEndian.ofBytes base.val)) % 2 ^ 96

/-- Chunks of two files have one nonce when the distance of the base nonces makes up for the
distance of the indices. -/
theorem chunkNonce_eq_iff_ahead (base base' : U8Array 12) (i j : UInt64) :
    chunkNonce base i = chunkNonce base' j ↔
      i.toNat = ahead base base' + j.toNat ∨ j.toNat = ahead base' base + i.toNat := by
  have hbase : BigEndian.ofBytes base.val < 2 ^ 96 := by
    simpa using BigEndian.ofBytes_lt base.val
  have hbase' : BigEndian.ofBytes base'.val < 2 ^ 96 := by
    simpa using BigEndian.ofBytes_lt base'.val
  have hi := i.toNat_lt
  have hj := j.toNat_lt
  rw [chunkNonce_eq_iff, ahead, ahead]
  omega

section Reuse

variable {key : U8Array 32} {base : U8Array 12} {algo : Algorithm} {aad : U8Array 32} {fuel : ℕ}
variable {es : List (Sigma CipherRes)} {rest : CipherProg UInt64}

/-- The nonces of a run are those of its first chunks, in order. -/
theorem nonces_eq (ht : (encryptCalls key base algo aad fuel 0).Trace es rest) :
    (nonces es).length ≤ 2 ^ 64 ∧
      nonces es =
        (List.range' 0 (nonces es).length).map fun i => chunkNonce base (UInt64.ofNat i) := by
  have hprefix : nonces es <+: noncesFrom base 0 :=
    (encryptCalls_emits fuel (by norm_num)).of_trace ht
  have hle : (nonces es).length ≤ 2 ^ 64 := by
    simpa only [noncesFrom, List.length_map, List.length_range', Nat.sub_zero] using
      hprefix.length_le
  refine ⟨hle, (List.prefix_iff_eq_take.mp hprefix).trans ?_⟩
  rw [noncesFrom, ← List.map_take, Nat.sub_zero, List.take_range'_of_length_ge hle]

theorem mem_nonces_iff (ht : (encryptCalls key base algo aad fuel 0).Trace es rest)
    (nonce : U8Array 12) :
    nonce ∈ nonces es ↔ ∃ i : UInt64, i.toNat < (nonces es).length ∧ chunkNonce base i = nonce := by
  obtain ⟨hle, heq⟩ := nonces_eq ht
  conv_lhs => rw [heq]
  simp only [List.mem_map, List.mem_range'_1, Nat.zero_le, Nat.zero_add, true_and]
  constructor
  · rintro ⟨i, hi, rfl⟩
    exact ⟨UInt64.ofNat i, by rwa [UInt64.toNat_ofNat_of_lt' (hi.trans_le hle)], rfl⟩
  · rintro ⟨i, hi, rfl⟩
    exact ⟨i.toNat, hi, by rw [UInt64.ofNat_toNat]⟩

variable {key' : U8Array 32} {base' : U8Array 12} {algo' : Algorithm} {aad' : U8Array 32}
variable {fuel' : ℕ} {es' : List (Sigma CipherRes)} {rest' : CipherProg UInt64}

/-- The first chunk of a file that is not too far ahead has the nonce of a chunk of the other. -/
theorem reused_of_ahead (ht : (encryptCalls key base algo aad fuel 0).Trace es rest)
    (ht' : (encryptCalls key' base' algo' aad' fuel' 0).Trace es' rest') (hes' : nonces es' ≠ [])
    (h : ahead base base' < (nonces es).length) : ∃ nonce ∈ nonces es, nonce ∈ nonces es' := by
  have hahead : (UInt64.ofNat (ahead base base')).toNat = ahead base base' :=
    UInt64.toNat_ofNat_of_lt' (h.trans_le (nonces_eq ht).1)
  refine ⟨chunkNonce base' 0, (mem_nonces_iff ht _).mpr ⟨UInt64.ofNat (ahead base base'), ?_, ?_⟩,
    (mem_nonces_iff ht' _).mpr ⟨0, List.length_pos_iff.mpr hes', rfl⟩⟩
  · rwa [hahead]
  · exact (chunkNonce_eq_iff_ahead base base' _ 0).mpr (.inl hahead)

/-- Two encryptions that have passed calls to the AEAD, wherever they are. They share a nonce
exactly when the base nonce of one is ahead of that of the other, modulo `2^96`, by less than the
number of calls of the other. -/
theorem nonce_reused_iff (ht : (encryptCalls key base algo aad fuel 0).Trace es rest)
    (ht' : (encryptCalls key' base' algo' aad' fuel' 0).Trace es' rest')
    (hes : nonces es ≠ []) (hes' : nonces es' ≠ []) :
    (∃ nonce ∈ nonces es, nonce ∈ nonces es') ↔
      ahead base base' < (nonces es).length ∨ ahead base' base < (nonces es').length := by
  constructor
  · rintro ⟨nonce, hmem, hmem'⟩
    obtain ⟨i, hi, rfl⟩ := (mem_nonces_iff ht nonce).mp hmem
    obtain ⟨j, hj, heq⟩ := (mem_nonces_iff ht' _).mp hmem'
    rcases (chunkNonce_eq_iff_ahead base base' i j).mp heq.symm with h | h
    · exact .inl (by omega)
    · exact .inr (by omega)
  · rintro (h | h)
    · exact reused_of_ahead ht ht' hes' h
    · obtain ⟨nonce, hmem', hmem⟩ := reused_of_ahead ht' ht hes h
      exact ⟨nonce, hmem, hmem'⟩

end Reuse

/-- The operations for a file of one byte, up to the call for its only chunk. -/
def oneByteCalls (base : U8Array 12) : List (Sigma CipherRes) :=
  [⟨.stream (.read chunkSize), .ok [7]⟩, ⟨.stream (.read (chunkSize - 1)), .ok []⟩,
    ⟨.encrypt .aes256Gcm ⟨List.replicate 32 0, rfl⟩ (chunkNonce base 0) [7]
      (chunkAad ⟨List.replicate 32 0, rfl⟩ 0), none⟩]

theorem oneByteCalls_trace (base : U8Array 12) :
    (encryptCalls ⟨List.replicate 32 0, rfl⟩ base .aes256Gcm ⟨List.replicate 32 0, rfl⟩ 2 0).Trace
      (oneByteCalls base) (.throw (.err .encryptionFailed)) :=
  .cons (.cons (.cons .nil))

/-- Two files of one byte, with base nonces next to each other. -/
theorem nonce_reused_iff_oneByte :
    ¬∃ nonce ∈ nonces (oneByteCalls ⟨List.replicate 12 0, rfl⟩),
      nonce ∈ nonces (oneByteCalls ⟨List.replicate 11 0 ++ [1], rfl⟩) := by
  rw [nonce_reused_iff (oneByteCalls_trace _) (oneByteCalls_trace _) (List.cons_ne_nil _ _)
    (List.cons_ne_nil _ _)]
  decide

end Cry
