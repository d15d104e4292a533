import Cry.Cipher.Frames

/-!
# The reference body

What an encrypted body is, said without a reader: the content is cut into blocks of `chunkSize`
bytes, and every block is encrypted under its own nonce and associated data and preceded by its
length. The encryption loop, which sees its input through calls that may return fewer bytes than
asked for or be interrupted, writes this body and no other.

## Main results

* `chunking_blocks`: the blocks make up the content, all of them full but the last;
* `run_encryptLoop_blocks`: the encryption loop writes the frames of the blocks;
* `body_eq_reference`: every schedule of one content gives the reference body.
-/

namespace Cry

open Rust Effects Framing

/-! ## Blocks -/

/-- Block `i` of the content. -/
def block (B : Bytes) (i : ℕ) : Bytes := (B.drop (i * chunkSize)).take chunkSize

/-- The blocks of the content, in order. -/
def blocks (B : Bytes) : List Bytes := (List.range (B.length ⌈/⌉ chunkSize)).map (block B)

@[simp] theorem length_blocks (B : Bytes) : (blocks B).length = B.length ⌈/⌉ chunkSize := by
  rw [blocks, List.length_map, List.length_range]

@[simp] theorem blocks_nil : blocks [] = [] := by
  rw [← List.length_eq_zero_iff, length_blocks, List.length_nil, zero_ceilDiv]

/-- Block `i + 1` is block `i` of what follows the first block. -/
theorem block_succ (B : Bytes) (i : ℕ) : block B (i + 1) = block (B.drop chunkSize) i := by
  rw [block, block, List.drop_drop, Nat.add_mul, Nat.one_mul, Nat.add_comm]

/-- The first block is taken off the front, and the others are the blocks of the rest. -/
theorem blocks_eq_cons {B : Bytes} (hne : B ≠ []) :
    blocks B = B.take chunkSize :: blocks (B.drop chunkSize) := by
  rw [blocks, ceilDiv_chunkSize (List.length_pos_iff.mpr hne), ← List.length_drop,
    List.range_succ_eq_map, List.map_cons, List.map_map, blocks]
  refine congrArg₂ List.cons ?_ ?_
  · rw [block, Nat.zero_mul, List.drop_zero]
  · refine List.map_congr_left fun i _ => ?_
    rw [Function.comp_apply, Nat.succ_eq_add_one, block_succ]

/-- The blocks make up the content: full ones, then at most one of fewer bytes, but at least
one. -/
theorem chunking_blocks (B : Bytes) : Chunking (blocks B) ∧ (blocks B).flatten = B := by
  have hpos := chunkSize_pos
  -- induction on the length: the first block, and the blocks of the rest
  induction hlen : B.length using Nat.strong_induction_on generalizing B with
  | _ n ih =>
    rcases eq_or_ne B [] with rfl | hne
    · rw [blocks_nil]
      exact ⟨.nil, rfl⟩
    · have hB : 0 < B.length := List.length_pos_iff.mpr hne
      have hdrop : (B.drop chunkSize).length < n := by
        rw [List.length_drop]
        omega
      obtain ⟨hchunking, hflatten⟩ := ih _ hdrop (B.drop chunkSize) rfl
      rw [blocks_eq_cons hne, List.flatten_cons, hflatten]
      refine ⟨?_, List.take_append_drop _ _⟩
      by_cases hshort : B.length < chunkSize
      · rw [List.drop_of_length_le hshort.le, blocks_nil, List.take_of_length_le hshort.le]
        exact .last hne hshort
      · refine .full ?_ hchunking
        rw [List.length_take]
        omega

/-! ## The body -/

section Body

variable (P : Primitives) (key : U8Array 32) (baseNonce : U8Array 12) (algo : Algorithm)
variable (headerAad : U8Array 32)

/-- Block `i` on the wire: its ciphertext after the length of the ciphertext, in four bytes. -/
def referenceFrame (i : ℕ) (p : Bytes) : Option Bytes := do
  let ct ← (P.aead algo).encrypt key (chunkNonce baseNonce (UInt64.ofNat i)) p
    (chunkAad headerAad (UInt64.ofNat i))
  some (BigEndian.toBytes 4 ct.length ++ ct)

/-- Blocks on the wire, the first of them block `i`. -/
def referenceFrames : (i : ℕ) → (ps : List Bytes) → Option (List Bytes)
  | _, [] => some []
  | i, p :: ps => do
    let f ← referenceFrame P key baseNonce algo headerAad i p
    let fs ← referenceFrames (i + 1) ps
    some (f :: fs)

/-- The encrypted body of the content `B`. -/
def referenceBody (B : Bytes) : Option Bytes :=
  (referenceFrames P key baseNonce algo headerAad 0 (blocks B)).map List.flatten

end Body

variable {P : Primitives} {key : U8Array 32} {baseNonce : U8Array 12} {algo : Algorithm}
variable {aad : U8Array 32}

theorem referenceFrames_cons_eq_some {i : ℕ} {p : Bytes} {ps fs : List Bytes}
    (hfs : referenceFrames P key baseNonce algo aad i (p :: ps) = some fs) :
    ∃ f fs', referenceFrame P key baseNonce algo aad i p = some f ∧
      referenceFrames P key baseNonce algo aad (i + 1) ps = some fs' ∧ fs = f :: fs' := by
  simp only [referenceFrames, Option.bind_eq_bind, Option.bind_eq_some_iff] at hfs
  obtain ⟨f, hf, fs', hfs', heq⟩ := hfs
  exact ⟨f, fs', hf, hfs', (Option.some.inj heq).symm⟩

/-- A block on the wire is the frame of its ciphertext. The length is not truncated, and the frame
is 20 bytes longer than the block. -/
theorem referenceFrame_eq_some {i : ℕ} {p f : Bytes} (hp : p.length ≤ chunkSize)
    (hf : referenceFrame P key baseNonce algo aad i p = some f) :
    ∃ c, encryptChunk P p key (chunkNonce baseNonce (UInt64.ofNat i)) algo
      (chunkAad aad (UInt64.ofNat i)) = .ok c ∧ f = frame c ∧ f.length = p.length + 20 := by
  simp only [referenceFrame, Option.bind_eq_bind, Option.bind_eq_some_iff] at hf
  obtain ⟨c, hc, hframe⟩ := hf
  obtain rfl := Option.some.inj hframe
  have hlen : c.length = p.length + 16 := (P.aead algo).encrypt_length hc
  have hsize : chunkSize = 1048576 := rfl
  -- a chunk and its tag fit a 32-bit length
  have hfit : c.length < 2 ^ 32 := by omega
  refine ⟨c, by rw [encryptChunk, hc], ?_, ?_⟩
  · rw [frame, BigEndian.ofU32, toNat_frameLen hfit]
  · rw [List.length_append, BigEndian.length_toBytes]
    omega

/-- When the AEAD encrypts every message of at most a chunk, a chunking has a body, 20 bytes per
chunk longer than its content. -/
theorem referenceFrames_isSome
    (hencrypt : ∀ nonce msg aad, msg.length ≤ chunkSize →
      ∃ ct, (P.aead algo).encrypt key nonce msg aad = some ct)
    (baseNonce : U8Array 12) (aad : U8Array 32) (i : ℕ) {ps : List Bytes}
    (hps : ∀ p ∈ ps, p.length ≤ chunkSize) :
    ∃ fs, referenceFrames P key baseNonce algo aad i ps = some fs ∧
      fs.flatten.length = ps.flatten.length + 20 * ps.length := by
  -- induction on the blocks, each of them 20 bytes longer on the wire
  induction ps generalizing i with
  | nil => exact ⟨[], rfl, rfl⟩
  | cons p ps ih =>
    have hp : p.length ≤ chunkSize := hps p (by simp)
    obtain ⟨ct, hct⟩ := hencrypt (chunkNonce baseNonce (UInt64.ofNat i)) p
      (chunkAad aad (UInt64.ofNat i)) hp
    have hf : referenceFrame P key baseNonce algo aad i p =
        some (BigEndian.toBytes 4 ct.length ++ ct) := by
      rw [referenceFrame, hct]
      rfl
    obtain ⟨fs, hfs, hlen⟩ := ih (i + 1) fun q hq => hps q (by simp [hq])
    obtain ⟨-, -, -, hlen'⟩ := referenceFrame_eq_some hp hf
    refine ⟨_ :: fs, by rw [referenceFrames, hf, hfs]; rfl, ?_⟩
    rw [List.flatten_cons, List.length_append, hlen, hlen', List.flatten_cons,
      List.length_append, List.length_cons]
    omega

/-! ## The loop -/

/-- The encryption loop, started at index `i`, writes the frames of the chunks that its input
falls into, whatever parts the reader hands it over in. -/
theorem run_encryptLoop_blocks {ps fs : List Bytes} (hps : Chunking ps) {fuel i : ℕ} {r : Reader}
    {sink : Sink} (hfs : referenceFrames P key baseNonce algo aad i ps = some fs)
    (hr : Delivers ps.flatten r) (hfuel : r.size < fuel) (hsink : sink.faults = [])
    (hcount : i + ps.length < 2 ^ 64) :
    ∃ r', StreamProg.run (encryptLoop P key baseNonce algo aad fuel (UInt64.ofNat i)) ⟨r, sink⟩ =
      some (.ok (UInt64.ofNat (i + ps.length)),
        ⟨r', { sink with written := sink.written ++ fs.flatten }⟩) := by
  have hpos := chunkSize_pos
  -- a reader without fuel is excluded, so there is a first round
  obtain ⟨fuel, rfl⟩ : ∃ n, fuel = n + 1 := ⟨fuel - 1, by omega⟩
  -- induction on the chunking, with one round of the loop per chunk
  induction hps generalizing i fs r sink fuel with
  | nil =>
    obtain rfl : [] = fs := Option.some.inj hfs
    rw [List.flatten_nil, List.append_nil]
    exact run_encryptLoop_nil (UInt64.ofNat i) sink hr hfuel
  | @last p hne hshort =>
    obtain ⟨f, fs', hf, hfs', rfl⟩ := referenceFrames_cons_eq_some hfs
    obtain rfl : [] = fs' := Option.some.inj hfs'
    obtain ⟨c, hc, rfl, -⟩ := referenceFrame_eq_some hshort.le hf
    have hflat : [p].flatten = p := by simp
    rw [hflat] at hr
    rw [← List.take_of_length_le hshort.le] at hc
    obtain ⟨r', -, -, hrun⟩ := run_encryptLoop_succ hne hc hcount hr hfuel hsink
    exact ⟨r', by simp [hrun, hshort]⟩
  | @full p ps hfull hps ih =>
    obtain ⟨f, fs', hf, hfs', rfl⟩ := referenceFrames_cons_eq_some hfs
    obtain ⟨c, hc, rfl, -⟩ := referenceFrame_eq_some hfull.le hf
    rw [List.length_cons] at hcount
    have hne : (p :: ps).flatten ≠ [] := by
      rintro hnil
      have hlen := congrArg List.length hnil
      rw [List.flatten_cons, List.length_append, hfull] at hlen
      simp at hlen
      omega
    have htake : (p :: ps).flatten.take chunkSize = p := by
      rw [List.flatten_cons, ← hfull, List.take_left]
    have hdrop : (p :: ps).flatten.drop chunkSize = ps.flatten := by
      rw [List.flatten_cons, ← hfull, List.drop_left]
    rw [← htake] at hc
    obtain ⟨r₁, hd, hs, hrun⟩ := run_encryptLoop_succ hne hc (by omega) hr hfuel hsink
    have hlong : ¬(p :: ps).flatten.length < chunkSize := by
      rw [List.flatten_cons, List.length_append, hfull]
      omega
    rw [hdrop] at hd
    rw [if_neg hlong] at hrun
    -- the loop goes on, with one part of the reader used up at least
    obtain ⟨fuel, rfl⟩ : ∃ n, fuel = n + 1 := ⟨fuel - 1, by omega⟩
    have hsink' : { sink with written := sink.written ++ frame c }.faults = [] := hsink
    obtain ⟨r', hrest⟩ := ih hfs' hd hsink' (by omega) fuel (by omega)
    refine ⟨r', ?_⟩
    rw [hrun, hrest, List.length_cons, Nat.add_comm ps.length, ← Nat.add_assoc]
    simp

/-- The encrypted body depends on the content alone. When the AEAD encrypts every message of at
most a chunk and the number of chunks fits its counter, the content `B` has a reference body,
`|B| + 20 * ⌈|B| / chunkSize⌉` bytes long, and from every reader that delivers `B`, in whatever
parts and with whatever interruptions, `encrypt_chunks` writes exactly this body and returns
`⌈|B| / chunkSize⌉`. -/
theorem body_eq_reference (P : Primitives) (key : U8Array 32) (algo : Algorithm)
    (hencrypt : ∀ nonce msg aad, msg.length ≤ chunkSize →
      ∃ ct, (P.aead algo).encrypt key nonce msg aad = some ct)
    (baseNonce : U8Array 12) (headerAad : U8Array 32) (B : Bytes)
    (hcount : B.length ⌈/⌉ chunkSize < 2 ^ 64) :
    Chunking (blocks B) ∧ (blocks B).flatten = B ∧
    ∃ body, referenceBody P key baseNonce algo headerAad B = some body ∧
      body.length = B.length + 20 * (B.length ⌈/⌉ chunkSize) ∧
      ∀ fuel r sink, Delivers B r → r.size < fuel → sink.faults = [] →
        ∃ r', StreamProg.run (encryptChunks P fuel key baseNonce algo headerAad) ⟨r, sink⟩ =
          some (.ok (UInt64.ofNat (B.length ⌈/⌉ chunkSize)),
            ⟨r', { sink with written := sink.written ++ body }⟩) := by
  obtain ⟨hchunking, hflatten⟩ := chunking_blocks B
  obtain ⟨fs, hfs, hlen⟩ := referenceFrames_isSome hencrypt baseNonce headerAad 0
    fun p hp => hchunking.length_le hp
  refine ⟨hchunking, hflatten, fs.flatten, by rw [referenceBody, hfs]; rfl, ?_, ?_⟩
  · rw [hlen, hflatten, length_blocks]
  · intro fuel r sink hr hfuel hsink
    -- the reader delivers the blocks, wherever its own parts end
    rw [← hflatten] at hr
    obtain ⟨r', hrun⟩ := run_encryptLoop_blocks hchunking hfs hr hfuel hsink
      (by rwa [length_blocks, Nat.zero_add])
    rw [length_blocks, Nat.zero_add] at hrun
    exact ⟨r', hrun⟩

/-- Three bytes, delivered in two parts with an interruption, have the body of the three bytes
delivered at once. -/
theorem body_eq_reference_transparent :
    ∃ body, referenceBody transparent (checksum 32 []) (checksum 12 []) .aes256Gcm
        (checksum 32 []) [1, 2, 3] = some body ∧
      ∀ r ∈ [Reader.ofSlice [1, 2, 3], [.data [1], .fail .interrupted, .data [2, 3]]],
        ∃ r', StreamProg.run (encryptChunks transparent 7 (checksum 32 []) (checksum 12 [])
            .aes256Gcm (checksum 32 [])) { reader := r } =
          some (.ok (UInt64.ofNat (3 ⌈/⌉ chunkSize)), ⟨r', { written := body }⟩) := by
  have hone : ([1, 2, 3] : Bytes).length ⌈/⌉ chunkSize = 1 := by
    rw [ceilDiv_chunkSize (by decide), Nat.sub_eq_zero_of_le (by decide), zero_ceilDiv]
  obtain ⟨-, -, body, hbody, -, hrun⟩ := body_eq_reference transparent
    (checksum 32 []) .aes256Gcm (fun _ _ _ _ => ⟨_, rfl⟩) (checksum 12 []) (checksum 32 [])
    [1, 2, 3]
    (by omega)
  refine ⟨body, hbody, fun r hr => ?_⟩
  rcases List.mem_pair.mp hr with rfl | rfl
  · exact hrun 7 _ {} (delivers_ofSlice _) (by simp) rfl
  · have hlast : Delivers ([2, 3] ++ []) [.data [2, 3]] := .data (by simp) .nil
    have hparts : Delivers ([1] ++ ([2, 3] ++ [])) [.data [1], .fail .interrupted, .data [2, 3]] :=
      .data (by simp) (.fail rfl hlast)
    exact hrun 7 _ {} hparts (by simp [Reader.size]) rfl

end Cry
