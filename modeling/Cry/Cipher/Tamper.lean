import Cry.Cipher.Authenticity
import Cry.Cipher.Outcome

/-!
# What decryption reports of a changed body

An attacker replaces everything behind the header of an honest file. Whatever bytes stand there,
they are the first frames of the file, as many as agree, and a rest. Under the ideal primitives the
chunks of these frames are written, and the rest decides the result: by its length word and its
length alone, since no other frame opens at its position.

## Main results

* `Ideal.ct_eq`: a frame that opens is the sealed frame of its index, byte for byte;
* `readsBody_strip`: the outcome of the frames;
* `decryptPipeline_reports`: the result and the bytes written, for every body behind an honest
  header.
-/

namespace Cry

open Rust Effects Framing

variable {P : Primitives}

/-- How reading the frames ends at position `k` when what is left starts with no frame that opens
there. -/
def bodyEnd (k : ℕ) (t : Bytes) : Except Stop UInt64 :=
  if h : 4 ≤ t.length then
    let len := (BigEndian.toU32 ⟨t.take 4, by rw [List.length_take, min_eq_left h]⟩).toNat
    if maxChunkWireLen < len then .error (.err (.suspiciousChunkLen (UInt64.ofNat k) len))
    else if t.length - 4 < len then .error (.err (.io .unexpectedEof))
    else .error (.err .decryptionFailed)
  else .ok (UInt64.ofNat k)

theorem bodyEnd_of_lt {k : ℕ} {t : Bytes} (h : t.length < 4) :
    bodyEnd k t = .ok (UInt64.ofNat k) := by
  rw [bodyEnd, dif_neg (Nat.not_le.mpr h)]

theorem bodyEnd_append (k : ℕ) (len : U8Array 4) (t : Bytes) :
    bodyEnd k (len.val ++ t) =
      if maxChunkWireLen < (BigEndian.toU32 len).toNat then
        .error (.err (.suspiciousChunkLen (UInt64.ofNat k) (BigEndian.toU32 len).toNat))
      else if t.length < (BigEndian.toU32 len).toNat then .error (.err (.io .unexpectedEof))
      else .error (.err .decryptionFailed) := by
  have hlen : (len.val ++ t).length = 4 + t.length := by
    rw [List.length_append, len.length_val]
  have htake : (⟨(len.val ++ t).take 4, by
      rw [List.length_take, hlen, min_eq_left (Nat.le_add_right _ _)]⟩ : U8Array 4) = len :=
    Subtype.ext (List.take_left' len.length_val)
  rw [bodyEnd, dif_pos (by rw [hlen]; exact Nat.le_add_right _ _)]
  simp only [htake, hlen, Nat.add_sub_cancel_left]

/-- The frames end without an error only where fewer than four bytes are left. -/
theorem lt_of_bodyEnd_eq_ok {k : ℕ} {t : Bytes} {n : UInt64} (h : bodyEnd k t = .ok n) :
    t.length < 4 ∧ n = UInt64.ofNat k := by
  by_cases hlong : 4 ≤ t.length
  · rw [bodyEnd, dif_pos hlong] at h
    dsimp only at h
    split at h
    · cases h
    · split at h <;> cases h
  · rw [bodyEnd_of_lt (Nat.lt_of_not_le hlong), Except.ok.injEq] at h
    exact ⟨Nat.lt_of_not_le hlong, h.symm⟩

/-- Reading the frames ends so. -/
theorem readsBody_bodyEnd {key : U8Array 32} {h : Header} {k : ℕ} {t : Bytes}
    (ht : ∀ c p, frame c <+: t → ¬Opens P key h k c p) :
    ReadsBody P key h k t (bodyEnd k t) [] := by
  rcases Nat.lt_or_ge t.length 4 with hshort | hlong
  · rw [bodyEnd_of_lt hshort]
    exact .done hshort
  obtain ⟨len, u, rfl, hcut⟩ | ⟨len, c, u, hword, hframe, hlen⟩ := exists_frame hlong
  · rw [bodyEnd_append]
    by_cases hcap : maxChunkWireLen < (BigEndian.toU32 len).toNat
    · rw [if_pos hcap]
      exact .suspicious hcap
    · rw [if_neg hcap, if_pos hcut]
      exact .cut (by omega) hcut
  · have hend := bodyEnd_append k len (c ++ u)
    rw [← hword] at hend
    rw [hend]
    by_cases hcap : maxChunkWireLen < (BigEndian.toU32 len).toNat
    · rw [if_pos hcap, hword]
      exact .suspicious hcap
    · rw [if_neg hcap, if_neg (by rw [List.length_append]; omega)]
      rw [hframe] at ht ⊢
      exact .forged (by omega) fun p => ht c p (List.prefix_append _ _)

namespace Ideal

variable {honest : List (SealedFile P)}

/-- A frame that opens as frame `i` of an honest file is the frame that was sealed there. -/
theorem ct_eq (ideal : Ideal honest) (hdistinct : (honest.map SealedFile.header).Nodup)
    {f : SealedFile P} (hf : f ∈ honest) {i : ℕ} (hi : i < 2 ^ 64) {c p : Bytes}
    (hopen : Opens P f.key f.header i c p) : f.cts[i]? = some c := by
  obtain ⟨-, hdec⟩ := hopen
  unfold decryptChunk at hdec
  split at hdec
  · next hp =>
    obtain ⟨g, hg, j, -, -, -, haad, hct, -⟩ := ideal.decrypt _ _ _ _ _ _ hp
    -- the associated data fixes the file by its header hash, and the position by the index
    obtain ⟨hhash, hindex⟩ := chunkAad_inj haad
    obtain rfl := eq_of_header_eq hdistinct hf hg
      (Header.preHmacBytes_injective (ideal.sha256_injOn f hf g hg hhash))
    obtain ⟨hlt, -⟩ := List.getElem?_eq_some_iff.mp hct
    have hj : j < 2 ^ 64 := by
      rw [f.length_cts] at hlt
      exact hlt.trans f.header.chunkCount.toNat_lt
    have hij := congrArg UInt64.toNat hindex
    rw [UInt64.toNat_ofNat_of_lt' hi, UInt64.toNat_ofNat_of_lt' hj] at hij
    rwa [hij]
  · cases hdec

end Ideal

section Report

variable {honest : List (SealedFile P)} (ideal : Ideal honest)
variable (hdistinct : (honest.map SealedFile.header).Nodup) {f : SealedFile P} (hf : f ∈ honest)
include ideal hdistinct hf

/-- The frames that agree with those of an honest file are written, and reading ends at the first
that does not. -/
theorem readsBody_strip {i : ℕ} {cs ps : List Bytes}
    (hopens : ForallFrom (Opens P f.key f.header) i cs ps) (hcs : f.cts.drop i = cs)
    (hlen : i + cs.length < 2 ^ 64) (t : Bytes) :
    ReadsBody P f.key f.header i t (bodyEnd (i + (strip cs t).1) (strip cs t).2)
      (ps.take (strip cs t).1).flatten := by
  -- what opens at position `i` is the frame that was sealed there
  have hexpected : ∀ {i : ℕ} {c p : Bytes}, i < 2 ^ 64 → Opens P f.key f.header i c p →
      (f.cts.drop i).head? = some c := by
    intro i c p hi hopen
    rw [List.head?_drop, ideal.ct_eq hdistinct hf hi hopen]
  induction hopens generalizing t with
  | @nil i =>
    refine readsBody_bodyEnd fun c p _ hopen => ?_
    have hhead := hexpected (by omega) hopen
    rw [hcs] at hhead
    cases hhead
  | @cons i c p cs ps hopen hrest ih =>
    rw [List.length_cons] at hlen
    by_cases hfirst : frame c <+: t
    · obtain ⟨u, rfl⟩ := hfirst
      have hnext : f.cts.drop (i + 1) = cs := by
        rw [← List.drop_drop, hcs, List.drop_one, List.tail_cons]
      rw [strip_frame_append, List.take_succ_cons, List.flatten_cons, Nat.add_comm _ 1,
        ← Nat.add_assoc]
      exact .frame hopen (by omega) (ih hnext (by omega) u)
    · rw [strip_of_not_isPrefix cs hfirst]
      refine readsBody_bodyEnd fun c' p' hc' hopen' => hfirst ?_
      have hhead := hexpected (by omega) hopen'
      rw [hcs, List.head?_cons, Option.some.injEq] at hhead
      rwa [hhead]

/-- The outcome of a file that carries an honest header, whatever follows it. -/
theorem decodes_strip {passphrase : Bytes}
    (hkey : deriveKey P passphrase f.header.salt.val = .ok f.key)
    (hparse : Header.parse P f.key (f.header.bytes P f.key) = some (.ok f.header))
    (hopens : ForallFrom (Opens P f.key f.header) 0 f.cts f.chunks) (t : Bytes) :
    Decodes P passphrase (f.header.bytes P f.key ++ t)
      ((bodyEnd (strip f.cts t).1 (strip f.cts t).2).bind (checkCount f.header.chunkCount))
      (f.chunks.take (strip f.cts t).1).flatten := by
  have hbody := readsBody_strip ideal hdistinct hf hopens List.drop_zero
    (by rw [f.length_cts, Nat.zero_add]; exact f.header.chunkCount.toNat_lt) t
  rw [Nat.zero_add] at hbody
  let raw : U8Array headerLen := ⟨f.header.bytes P f.key, by simp⟩
  have hsalt : deriveKey P passphrase (rawSalt raw) = .ok f.key := by
    rw [rawSalt_bytes, hkey]
  have hheader : ReadsHeader P passphrase (raw.val ++ t) (.ok (f.key, f.header, t)) :=
    .accepted hsalt hparse
  exact .body hheader hbody

/-- What decryption reports of a changed body. Under primitives that are ideal for a list of honest
encryptions with pairwise different headers, let any bytes follow the header of an honest file whose
own tag verifies and whose own ciphertexts open. Decryption under its passphrase writes exactly the
chunks of the leading frames that agree with those of the file, and its result is read off the rest:
a length above the cap is reported with the index of the frame, an incomplete frame as the end of
the file, any other frame as a failure to decrypt, and fewer than four bytes as the comparison of
the number of agreeing frames with the committed one. So the result is `Ok` exactly when the body is
that of the file, followed by at most three bytes. -/
theorem decryptPipeline_reports {passphrase : Bytes} {fuel : ℕ} {t : Bytes} {r : Reader}
    (hkey : deriveKey P passphrase f.header.salt.val = .ok f.key)
    (hparse : Header.parse P f.key (f.header.bytes P f.key) = some (.ok f.header))
    (hopens : ForallFrom (Opens P f.key f.header) 0 f.cts f.chunks)
    (hr : Delivers (f.header.bytes P f.key ++ t) r) (hfuel : r.size < fuel) :
    ∃ x r', StreamProg.run (decryptPipeline P fuel passphrase) { reader := r } =
        some (x, ⟨r', { written := (f.chunks.take (strip f.cts t).1).flatten }⟩) ∧
      x = (bodyEnd (strip f.cts t).1 (strip f.cts t).2).bind (checkCount f.header.chunkCount) ∧
      (x = .ok () ↔ ∃ u, t = frames f.cts ++ u ∧ u.length < 4) := by
  obtain ⟨r', hrun⟩ := (decodes_strip ideal hdistinct hf hkey hparse hopens t).run hr hfuel
  refine ⟨_, r', hrun, rfl, fun hok => ?_, ?_⟩
  · obtain ⟨hle, hsplit⟩ := frames_take_strip f.cts t
    cases hend : bodyEnd (strip f.cts t).1 (strip f.cts t).2 with
    | error e => rw [hend] at hok; cases hok
    | ok n =>
      rw [hend] at hok
      obtain ⟨hshort, rfl⟩ := lt_of_bodyEnd_eq_ok hend
      -- as many frames agree as the header commits to, so all of them do
      have hcount := congrArg UInt64.toNat (checkCount_eq_ok_iff.mp hok)
      rw [UInt64.toNat_ofNat_of_lt' (hle.trans_lt (by
        rw [f.length_cts]; exact f.header.chunkCount.toNat_lt)), ← f.length_cts] at hcount
      rw [hcount, List.take_length] at hsplit
      exact ⟨_, hsplit.symm, hshort⟩
  · rintro ⟨u, rfl, hshort⟩
    rw [strip_frames_append, bodyEnd_of_lt hshort]
    refine checkCount_eq_ok_iff.mpr ?_
    rw [f.length_cts, UInt64.ofNat_toNat]

end Report

namespace TwoFiles

/-- The frame of the second file behind the header of the first is a failure to decrypt, before
which nothing is written. -/
theorem decryptPipeline_reports_spliced : ∃ r',
    StreamProg.run (decryptPipeline primitives 118 [])
      { reader := Reader.ofSlice ((header 0).bytes primitives key ++ frames [ct 1]) } =
        some (.error (.err .decryptionFailed), ⟨r', { written := [] }⟩) := by
  have hkey : deriveKey primitives [] (file 0).header.salt.val = .ok (file 0).key := rfl
  have hfuel : (Reader.ofSlice ((header 0).bytes primitives key ++ frames [ct 1])).size < 118 := by
    simp [headerLen, saltLen, nonceLen, hmacLen, Framing.frame, ct]
  obtain ⟨x, r', hrun, hx, -⟩ := decryptPipeline_reports ideal nodup_header List.mem_cons_self
    hkey
    parse_header opens_file (delivers_ofSlice _) hfuel
  have hstrip : strip [ct 0] (frames [ct 1]) = (0, frames [ct 1]) := by decide +kernel
  have hend : bodyEnd 0 (frames [ct 1]) = .error (.err .decryptionFailed) := by decide +kernel
  have hcts : (file 0).cts = [ct 0] := rfl
  rw [hcts, hstrip] at hrun hx
  rw [hend] at hx
  subst hx
  exact ⟨r', hrun⟩

end TwoFiles

end Cry
