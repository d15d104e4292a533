import Cry.Bytes.Framing
import Cry.Header

/-!
# The chunk loops

Associated data and nonce of a chunk, the single-chunk AEAD operations, the two streaming loops
and the pipelines around them, each over an arbitrary reader and writer.

The loops take fuel and end in `diverge` when it is spent. The progress lines on standard error
are left out, and with them the parameter `total_chunks`, which only they use.
-/

namespace Cry

open Rust Effects

/-- Chunk size for streaming encryption (1 MiB). -/
def chunkSize : ℕ := 1024 * 1024

/-- Cap on the length of a ciphertext with its tag. -/
def maxChunkWireLen : ℕ := chunkSize + 64

variable (P : Primitives)

/-! ## Associated data and nonces -/

/-- The value that binds every chunk to its file: a hash of all header fields. -/
def headerAad (header : Header) : U8Array 32 :=
  P.sha256 (magic ++ [header.algo.toByte] ++ header.salt.val ++ header.nonce.val ++
    BigEndian.ofU64 header.chunkCount)

/-- The associated data of a chunk: the header value and the chunk index. -/
def chunkAad (headerAad : U8Array 32) (chunkIndex : UInt64) : Bytes :=
  headerAad.val ++ BigEndian.ofU64 chunkIndex

/-- The nonce of a chunk: the base nonce plus the index, modulo `2^96`. -/
def chunkNonce (base : U8Array 12) (index : UInt64) : U8Array 12 :=
  let hi := BigEndian.toU32 ⟨base.val.take 4, by simp⟩
  let lo := BigEndian.toU64 ⟨base.val.drop 4, by simp⟩
  let newLo := lo + index
  let carry : UInt32 := if 2 ^ 64 ≤ lo.toNat + index.toNat then 1 else 0
  let newHi := hi + carry
  ⟨BigEndian.ofU32 newHi ++ BigEndian.ofU64 newLo, by simp⟩

/-! ## Single chunks -/

/-- The AEAD of an algorithm. -/
def Primitives.aead : Algorithm → Aead
  | .aes256Gcm => P.aes256Gcm
  | .chaCha20Poly1305 => P.chaCha20Poly1305

/-- Encrypt one chunk. -/
def encryptChunk (plain : Bytes) (key : U8Array 32) (nonce : U8Array 12) (algo : Algorithm)
    (aad : Bytes) : Except Stop Bytes :=
  match (P.aead algo).encrypt key nonce plain aad with
  | some ct => .ok ct
  | none => .error (.err .encryptionFailed)

/-- Decrypt one chunk. -/
def decryptChunk (ct : Bytes) (key : U8Array 32) (nonce : U8Array 12) (algo : Algorithm)
    (aad : Bytes) : Except Stop Bytes :=
  match (P.aead algo).decrypt key nonce ct aad with
  | some plain => .ok plain
  | none => .error (.err .decryptionFailed)

/-! ## Streaming loops -/

/-- Read up to `len` bytes, returning fewer at the end of the stream. -/
def readChunk (fuel len : ℕ) : StreamProg Stop Bytes := do
  Prog.ofExcept (ofIo (← fill fuel len []))

/-- `chunk_index += 1`, which panics on overflow. -/
def nextIndex (chunkIndex : UInt64) : Except Stop UInt64 :=
  if chunkIndex.toNat + 1 < 2 ^ 64 then .ok (chunkIndex + 1) else .error .panic

/-- The loop of `encrypt_chunks`. -/
def encryptLoop (key : U8Array 32) (baseNonce : U8Array 12) (algo : Algorithm)
    (headerAad : U8Array 32) : (fuel : ℕ) → (chunkIndex : UInt64) → StreamProg Stop UInt64
  | 0, _ => .diverge
  | fuel + 1, chunkIndex => do
    let buf ← readChunk (fuel + 1) chunkSize
    if buf.length = 0 then
      pure chunkIndex
    else
      let nonce := chunkNonce baseNonce chunkIndex
      let aad := chunkAad headerAad chunkIndex
      let ct ← Prog.ofExcept (encryptChunk P buf key nonce algo aad)
      let len := UInt32.ofNat ct.length
      writeAll (BigEndian.ofU32 len)
      writeAll ct
      let chunkIndex ← Prog.ofExcept (nextIndex chunkIndex)
      if buf.length < chunkSize then
        pure chunkIndex
      else
        encryptLoop key baseNonce algo headerAad fuel chunkIndex

/-- Encrypt the reader chunk by chunk and return the number of chunks. -/
def encryptChunks (fuel : ℕ) (key : U8Array 32) (baseNonce : U8Array 12) (algo : Algorithm)
    (headerAad : U8Array 32) : StreamProg Stop UInt64 :=
  encryptLoop P key baseNonce algo headerAad fuel 0

/-- The loop of `decrypt_chunks`. An end of file in the length of a frame ends it without an
error, also after one to three bytes of the length. -/
def decryptLoop (key : U8Array 32) (baseNonce : U8Array 12) (algo : Algorithm)
    (headerAad : U8Array 32) : (fuel : ℕ) → (chunkIndex : UInt64) → StreamProg Stop UInt64
  | 0, _ => .diverge
  | fuel + 1, chunkIndex => do
    match ← readExact (fuel + 1) 4 with
    | .error .unexpectedEof => pure chunkIndex
    | .error e => Prog.throw (.err (.io e))
    | .ok lenBuf =>
      let ctLen := (BigEndian.toU32 lenBuf).toNat
      if maxChunkWireLen < ctLen then
        Prog.throw (.err (.suspiciousChunkLen chunkIndex ctLen))
      else
        let ct ← readExactOr (fuel + 1) ctLen fun e => .err (.io e)
        let nonce := chunkNonce baseNonce chunkIndex
        let aad := chunkAad headerAad chunkIndex
        let plain ← Prog.ofExcept (decryptChunk P ct.val key nonce algo aad)
        writeAll plain
        let chunkIndex ← Prog.ofExcept (nextIndex chunkIndex)
        decryptLoop key baseNonce algo headerAad fuel chunkIndex

/-- Decrypt the reader frame by frame and return the number of frames. -/
def decryptChunks (fuel : ℕ) (key : U8Array 32) (baseNonce : U8Array 12) (algo : Algorithm)
    (headerAad : U8Array 32) : StreamProg Stop UInt64 :=
  decryptLoop P key baseNonce algo headerAad fuel 0

/-! ## Pipelines -/

/-- The number of chunks committed to: `plain_len.div_ceil(CHUNK_SIZE)`. -/
def committedChunks (plainLen : UInt64) : UInt64 :=
  let d := plainLen / UInt64.ofNat chunkSize
  let r := plainLen % UInt64.ofNat chunkSize
  if r > 0 then d + 1 else d

/-- The comparison of the number of chunks with the committed one. -/
def checkCount (expected got : UInt64) : Except Stop Unit :=
  if got ≠ expected then .error (.err (.truncated expected got)) else .ok ()

/-- What `encrypt_file` writes: the header, then the chunks. -/
def encryptBody (fuel : ℕ) (header : Header) (key : U8Array 32) : StreamProg Stop UInt64 := do
  header.write P key
  encryptChunks P fuel key header.nonce header.algo (headerAad P header)

/-- `encrypt_file` over a reader and a writer, for a given salt and base nonce and a length
reported beforehand. -/
def encryptPipeline (fuel : ℕ) (passphrase : Bytes) (algo : Algorithm) (salt : U8Array 16)
    (nonce : U8Array 12) (plainLen : UInt64) : StreamProg Stop Unit := do
  let chunkCount := committedChunks plainLen
  let key ← Prog.ofExcept (deriveKey P passphrase salt.val)
  let header : Header := { algo, salt, nonce, chunkCount }
  let actualChunks ← encryptBody P fuel header key
  Prog.ofExcept (checkCount chunkCount actualChunks)

/-- Read the header of a file into a buffer. -/
def readRawHeader (fuel : ℕ) : StreamProg Stop (U8Array headerLen) :=
  readExactOr fuel headerLen fun _ =>
    .err (.invalidFormat "File too short to contain a valid header")

/-- The salt in a raw header, at offset 5. -/
def rawSalt (raw : U8Array headerLen) : Bytes := (raw.val.drop (4 + 1)).take saltLen

/-- Decrypt the body of a file whose raw header has been read: parse and verify the header,
decrypt the chunks, compare their number. -/
def decryptBody (fuel : ℕ) (key : U8Array 32) (raw : U8Array headerLen) :
    StreamProg Stop Unit := do
  let header ← Prog.ofResult (Header.parse P key raw.val)
  let actualChunks ← decryptChunks P fuel key header.nonce header.algo (headerAad P header)
  Prog.ofExcept (checkCount header.chunkCount actualChunks)

/-- The decryption pipeline under a given key. -/
def decryptWithKey (fuel : ℕ) (key : U8Array 32) : StreamProg Stop Unit := do
  let raw ← readRawHeader fuel
  decryptBody P fuel key raw

/-- `decrypt_file` over a reader and a writer. -/
def decryptPipeline (fuel : ℕ) (passphrase : Bytes) : StreamProg Stop Unit := do
  let raw ← readRawHeader fuel
  let key ← Prog.ofExcept (deriveKey P passphrase (rawSalt raw))
  decryptBody P fuel key raw

end Cry
