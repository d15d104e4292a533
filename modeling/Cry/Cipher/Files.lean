import Cry.Cipher.Chunks
import Cry.Rust.Buffered

/-!
# File encryption and decryption

`encrypt_file` and `decrypt_file` as programs over the file system. The lines they print are left
out, but not the system calls that obtain the sizes printed.

## Main results

* `uses_writeBody`: between creating the temporary file and publishing it, a command touches only
  its two open files;
* `Command.tmp_ne_output`: the temporary file is never the output itself.
-/

namespace Cry

open Rust Effects

/-- The result of a system call under `?`. -/
def orIo {α : Type} (res : Except OsError α) : FsProg Stop α :=
  Prog.ofExcept (ofIo (res.mapError OsError.toIoError))

@[simp] theorem orIo_ok {α : Type} (a : α) : orIo (.ok a) = .pure a := rfl

@[simp] theorem orIo_error {α : Type} (e : OsError) :
    orIo (.error e : Except OsError α) = .throw (.err (.io e.toIoError)) := rfl

/-- `OsRng.fill_bytes`, which panics when the random source fails. -/
def fillBytes (len : ℕ) : FsProg Stop (U8Array len) := do
  let res : Except OsError (U8Array len) ← Prog.perform (FsOp.fillBytes len)
  Prog.ofExcept (res.mapError fun _ => .panic)

/-- Run the body from the input file to the output file, flush, compare the number of chunks. The
writer is dropped on every way out. -/
def writeBody (fuel input file : ℕ) (reader : ReadBuf) (body : StreamProg Stop UInt64)
    (chunkCount : UInt64) : FsProg Stop Unit := do
  let (res, buffers) ← body.onFiles fuel input (some file) { reader }
  match res with
  | .error e =>
    buffers.writer.drop fuel file
    .throw e
  | .ok actualChunks =>
    let (flushed, writer) ← buffers.writer.flush fuel file
    writer.drop fuel file
    Prog.ofExcept (ofIo flushed)
    Prog.ofExcept (checkCount chunkCount actualChunks)

/-- Writing the body touches only the two handles. -/
theorem uses_writeBody {fuel input file : ℕ} {reader : ReadBuf} {body : StreamProg Stop UInt64}
    {chunkCount : UInt64} :
    (writeBody fuel input file reader body chunkCount).Uses (OnHandles input (some file)) := by
  refine Prog.uses_bind (uses_onFiles _ _) fun p => ?_
  obtain ⟨e | n, buffers⟩ := p
  · exact Prog.uses_bind buffers.writer.uses_drop fun _ => trivial
  · refine Prog.uses_bind buffers.writer.uses_flush fun p => ?_
    refine Prog.uses_bind p.2.uses_drop fun _ => ?_
    refine Prog.uses_bind (Prog.uses_ofExcept _) fun _ => Prog.uses_ofExcept _

/-- The part that the closures of `encrypt_file` and `decrypt_file` share: create the temporary
file and write the body to it. -/
def writeOutput (fuel : ℕ) (tmpPath : Path) (input : ℕ) (reader : ReadBuf)
    (body : StreamProg Stop UInt64) (chunkCount : UInt64) : FsProg Stop Unit := do
  let file ← orIo (← Prog.perform (.create tmpPath))
  writeBody fuel input file reader body chunkCount

/-- What `encrypt_file` and `decrypt_file` do with their closure: on success rename the temporary
file to the output and ask for its size, on an error remove the temporary file. A panic passes
through. -/
def publish (tmpPath outPath : Path) (closure : FsProg Stop Unit) : FsProg Stop Unit := do
  match ← closure.attempt with
  | .ok () =>
    orIo (← Prog.perform (.rename tmpPath outPath))
    let _ ← orIo (← Prog.perform (.metadata outPath))
    pure ()
  | .error (.err e) =>
    let _ ← Prog.perform (.removeFile tmpPath)
    .throw (.err e)
  | .error .panic => .throw .panic

variable (P : Primitives)

/-- The extension of the temporary file of an encryption. -/
def cryTmp : Bytes := utf8 "cry.tmp"

/-- The extension of the temporary file of a decryption. -/
def plainTmp : Bytes := utf8 "plain.tmp"

/-- The guard of both functions: refuse to overwrite an existing output. -/
def refuseOverwrite (outPath : Path) (force : Bool) : FsProg Stop Unit := do
  let present ← Prog.perform (.pathExists outPath)
  if present && !force then .throw (.err (.fileExists outPath.display)) else pure ()

/-- The part of `encrypt_file` before its closure: commit to the number of chunks, draw salt and
base nonce, derive the key. -/
def encryptHeader (plainPath : Path) (passphrase : Bytes) (algorithm : Algorithm) :
    FsProg Stop (U8Array 32 × Header) := do
  let plainLen ← orIo (← Prog.perform (.metadata plainPath))
  let chunkCount := committedChunks plainLen
  let salt ← fillBytes 16
  let nonceBytes ← fillBytes 12
  let key ← Prog.ofExcept (deriveKey P passphrase salt.val)
  pure (key, { algo := algorithm, salt, nonce := nonceBytes, chunkCount })

/-- Encrypt a file under a passphrase. -/
def encryptFile (fuel : ℕ) (plainPath cipherPath : Path) (passphrase : Bytes)
    (algorithm : Algorithm) (force : Bool) : FsProg Stop Unit := do
  refuseOverwrite cipherPath force
  let (key, header) ← encryptHeader P plainPath passphrase algorithm
  let tmpPath := cipherPath.withExtension cryTmp
  publish tmpPath cipherPath do
    let plainFile ← orIo (← Prog.perform (.openFile plainPath))
    writeOutput fuel tmpPath plainFile {} (encryptBody P fuel header key) header.chunkCount

/-- The part of `decrypt_file` before its closure: open the input, read the header, derive the key,
parse the header. The reader keeps what it has read ahead. -/
def decryptHeader (fuel : ℕ) (cipherPath : Path) (passphrase : Bytes) :
    FsProg Stop (ℕ × ReadBuf × U8Array 32 × Header) := do
  let cipherFile ← orIo (← Prog.perform (.openFile cipherPath))
  let _cipherLen ← orIo (← Prog.perform (.fileMetadata cipherFile))
  let (res, buffers) ← (readRawHeader fuel).onFiles fuel cipherFile none {}
  let rawHeader ← Prog.ofExcept res
  let key ← Prog.ofExcept (deriveKey P passphrase (rawSalt rawHeader))
  let header ← Prog.ofResult (Header.parse P key rawHeader.val)
  pure (cipherFile, buffers.reader, key, header)

/-- Decrypt a file under a passphrase. -/
def decryptFile (fuel : ℕ) (plainPath cipherPath : Path) (passphrase : Bytes) (force : Bool) :
    FsProg Stop Unit := do
  refuseOverwrite plainPath force
  let (cipherFile, reader, key, header) ← decryptHeader P fuel cipherPath passphrase
  let tmpPath := plainPath.withExtension plainTmp
  publish tmpPath plainPath
    (writeOutput fuel tmpPath cipherFile reader
      (decryptChunks P fuel key header.nonce header.algo (headerAad P header)) header.chunkCount)

section ReadOnly

variable {P}

theorem uses_refuseOverwrite {outPath : Path} {force : Bool} :
    (refuseOverwrite outPath force).Uses FsOp.ReadOnly := by
  rw [refuseOverwrite, Prog.bind_eq, Prog.perform_bind]
  refine ⟨trivial, fun present => ?_⟩
  dsimp only
  split <;> trivial

/-- Until its closure, `encrypt_file` changes nothing. -/
theorem uses_encryptHeader {plainPath : Path} {passphrase : Bytes} {algorithm : Algorithm} :
    (encryptHeader P plainPath passphrase algorithm).Uses FsOp.ReadOnly := by
  simp only [encryptHeader, fillBytes, orIo, Prog.bind_eq, Prog.perform_bind]
  refine ⟨trivial, fun res => Prog.uses_bind (Prog.uses_ofExcept _) fun plainLen => ?_⟩
  refine ⟨trivial, fun res => Prog.uses_bind (Prog.uses_ofExcept _) fun salt => ?_⟩
  refine ⟨trivial, fun res => Prog.uses_bind (Prog.uses_ofExcept _) fun nonceBytes => ?_⟩
  exact Prog.uses_bind (Prog.uses_ofExcept _) fun key => trivial

/-- Until its closure, `decrypt_file` changes nothing. -/
theorem uses_decryptHeader {fuel : ℕ} {cipherPath : Path} {passphrase : Bytes} :
    (decryptHeader P fuel cipherPath passphrase).Uses FsOp.ReadOnly := by
  simp only [decryptHeader, orIo, Prog.bind_eq, Prog.perform_bind]
  refine ⟨trivial, fun res => Prog.uses_bind (Prog.uses_ofExcept _) fun cipherFile => ?_⟩
  refine ⟨trivial, fun res => Prog.uses_bind (Prog.uses_ofExcept _) fun cipherLen => ?_⟩
  refine Prog.uses_bind ((uses_onFiles _ _).mono fun o ho => ?_) fun p => ?_
  · cases o with
    | readAt i off cap => trivial
    | writeAt i off buf => cases ho
    | _ => exact ho.elim
  · refine Prog.uses_bind (Prog.uses_ofExcept _) fun raw => ?_
    refine Prog.uses_bind (Prog.uses_ofExcept _) fun key => ?_
    exact Prog.uses_bind (Prog.uses_ofResult _) fun header => trivial

end ReadOnly

/-! ## Commands -/

/-- A call of `encrypt_file` or `decrypt_file`. -/
inductive Command
  | encrypt (plainPath cipherPath : Path) (passphrase : Bytes) (algorithm : Algorithm)
      (force : Bool)
  | decrypt (plainPath cipherPath : Path) (passphrase : Bytes) (force : Bool)

namespace Command

/-- The file that is read. -/
def input : Command → Path
  | .encrypt plainPath _ _ _ _ => plainPath
  | .decrypt _ cipherPath _ _ => cipherPath

/-- The file that is written. -/
def output : Command → Path
  | .encrypt _ cipherPath _ _ _ => cipherPath
  | .decrypt plainPath _ _ _ => plainPath

/-- The extension of the temporary file. -/
def tmpExtension : Command → Bytes
  | .encrypt _ _ _ _ _ => cryTmp
  | .decrypt _ _ _ _ => plainTmp

/-- The temporary file next to the output. -/
def tmp (cmd : Command) : Path := cmd.output.withExtension cmd.tmpExtension

/-- An existing output may be overwritten. -/
def force : Command → Bool
  | .encrypt _ _ _ _ force => force
  | .decrypt _ _ _ force => force

/-- The program of a command. -/
def prog (fuel : ℕ) : Command → FsProg Stop Unit
  | .encrypt plainPath cipherPath passphrase algorithm force =>
    encryptFile P fuel plainPath cipherPath passphrase algorithm force
  | .decrypt plainPath cipherPath passphrase force =>
    decryptFile P fuel plainPath cipherPath passphrase force

/-- The command running alone, one choice for each of its operations: what is left of it to run and
the file system. -/
def runAlone (fuel : ℕ) (cmd : Command) (cs : List Choice) (fs : Fs) : FsProg Stop Unit × Fs :=
  Prog.drive exec cs (cmd.prog P fuel, fs)

/-- The temporary file is not the output. -/
theorem tmp_ne_output (cmd : Command) : cmd.tmp ≠ cmd.output := by
  cases cmd with
  | encrypt => exact Path.withExtension_ne _ (show Path.dot ∈ utf8 "cry.tmp" by decide)
  | decrypt => exact Path.withExtension_ne _ (show Path.dot ∈ utf8 "plain.tmp" by decide)

end Command

end Cry
