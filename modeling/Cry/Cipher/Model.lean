import Cry.Cipher.Files
import Cry.Cipher.Outcome
import Cry.Cipher.RoundTrip

/-!
# What encryption and decryption do

An abstract model of the two commands: a store says what each path holds, and a command takes one
store to another in a single step. There are no files, handles, buffers, schedules or intermediate
states in it. A successful command replaces its output by a whole file, and any other leaves it as
it is.

## Main results

* `Effect.total`: every command has an effect on every store;
* `Effect.eq_of_ne`, `Effect.output_of_error`: what an effect leaves alone;
* `Effect.decrypt_encrypt`: a decryption of what an encryption left gives back what was encrypted,
  also after the encrypted file has been moved and whatever else has changed.
-/

namespace Cry

open Rust Effects Framing

/-- What the paths hold. -/
abbrev Store := Path → Option Bytes

/-- What becomes of an input: it is refused before the temporary file is made, the work on it fails,
or the output is written. -/
inductive Verdict
  | refused (e : Stop)
  | failed (e : Stop)
  | written (W : Bytes)

variable (P : Primitives)

namespace Command

/-- The header of an encryption of `X`. -/
def sealedHeader (algorithm : Algorithm) (salt : U8Array 16) (nonce : U8Array 12) (X : Bytes) :
    Header where
  algo := algorithm
  salt := salt
  nonce := nonce
  chunkCount := committedChunks (UInt64.ofNat X.length)

/-- What a command makes of its input. The salt and the base nonce of an encryption are
arbitrary. -/
inductive Gives : Command → Bytes → Verdict → Prop
  /-- No key can be derived. -/
  | kdf {plainPath cipherPath : Path} {passphrase X : Bytes} {algorithm : Algorithm} {force : Bool}
      {salt : U8Array 16} {e : Stop} : deriveKey P passphrase salt.val = .error e →
      Gives (.encrypt plainPath cipherPath passphrase algorithm force) X (.refused e)
  /-- Some chunk cannot be sealed. -/
  | unsealed {plainPath cipherPath : Path} {passphrase X W : Bytes} {algorithm : Algorithm}
      {force : Bool} {salt : U8Array 16} {nonce : U8Array 12} {key : U8Array 32} {e : Stop} :
      deriveKey P passphrase salt.val = .ok key →
      SealsBody P key (sealedHeader algorithm salt nonce X) 0 (blocks X) (.error e) W →
      Gives (.encrypt plainPath cipherPath passphrase algorithm force) X (.failed e)
  /-- All chunks are sealed. -/
  | sealed {plainPath cipherPath : Path} {passphrase X W : Bytes} {algorithm : Algorithm}
      {force : Bool} {salt : U8Array 16} {nonce : U8Array 12} {key : U8Array 32} {n : UInt64} :
      deriveKey P passphrase salt.val = .ok key →
      SealsBody P key (sealedHeader algorithm salt nonce X) 0 (blocks X) (.ok n) W →
      Gives (.encrypt plainPath cipherPath passphrase algorithm force) X
        (.written ((sealedHeader algorithm salt nonce X).bytes P key ++ W))
  /-- The header is rejected. -/
  | rejected {plainPath cipherPath : Path} {passphrase F : Bytes} {force : Bool} {e : Stop} :
      ReadsHeader P passphrase F (.error e) →
      Gives (.decrypt plainPath cipherPath passphrase force) F (.refused e)
  /-- The body has a defect, or not the committed number of chunks. -/
  | unopened {plainPath cipherPath : Path} {passphrase F t W : Bytes} {force : Bool}
      {key : U8Array 32} {header : Header} {x : Except Stop UInt64} {e : Stop} :
      ReadsHeader P passphrase F (.ok (key, header, t)) → ReadsBody P key header 0 t x W →
      x.bind (checkCount header.chunkCount) = .error e →
      Gives (.decrypt plainPath cipherPath passphrase force) F (.failed e)
  /-- All frames open, and their number is the committed one. -/
  | opened {plainPath cipherPath : Path} {passphrase F t W : Bytes} {force : Bool}
      {key : U8Array 32} {header : Header} {x : Except Stop UInt64} :
      ReadsHeader P passphrase F (.ok (key, header, t)) → ReadsBody P key header 0 t x W →
      x.bind (checkCount header.chunkCount) = .ok () →
      Gives (.decrypt plainPath cipherPath passphrase force) F (.written W)

/-- The overwrite guard lets the command through. -/
def MayWrite (cmd : Command) (S : Store) : Prop := cmd.force = true ∨ S cmd.output = none

/-- The result that is returned for a verdict. -/
def result : Verdict → Except Stop Unit
  | .refused e => .error e
  | .failed e => .error e
  | .written _ => .ok ()

/-- The store after a verdict: as soon as there has been a temporary file it is gone, and written
bytes are at the output. -/
def after (cmd : Command) (S : Store) : Verdict → Store
  | .refused _ => S
  | .failed _ => Function.update S cmd.tmp none
  | .written W => Function.update (Function.update S cmd.tmp none) cmd.output (some W)

/-- A command takes a store to another and returns a result. -/
inductive Effect (cmd : Command) (S : Store) : Except Stop Unit → Store → Prop
  /-- The output exists and may not be overwritten. -/
  | present : ¬cmd.MayWrite S → Effect cmd S (.error (.err (.fileExists cmd.output.display))) S
  /-- There is no input. -/
  | missing : cmd.MayWrite S → S cmd.input = none → Effect cmd S (.error (.err (.io .notFound))) S
  /-- The input decides. -/
  | input {X : Bytes} {v : Verdict} : cmd.MayWrite S → S cmd.input = some X → Gives P cmd X v →
      Effect cmd S (result v) (cmd.after S v)

variable {P}

/-- A command makes something of every input. -/
theorem exists_gives (P : Primitives) (cmd : Command) (X : Bytes) : ∃ v, Gives P cmd X v := by
  cases cmd with
  | encrypt plainPath cipherPath passphrase algorithm force =>
    let salt : U8Array 16 := checksum 16 []
    cases hkey : deriveKey P passphrase salt.val with
    | error e => exact ⟨_, .kdf hkey⟩
    | ok key =>
      obtain ⟨e | n, W, hbody⟩ := exists_sealsBody P key
        (sealedHeader algorithm salt (checksum 12 []) X) (i := 0) (by norm_num) (blocks X)
      · exact ⟨_, .unsealed hkey hbody⟩
      · exact ⟨_, .sealed hkey hbody⟩
  | decrypt plainPath cipherPath passphrase force =>
    obtain ⟨e | ⟨key, header, t⟩, hheader⟩ := exists_readsHeader P passphrase X
    · exact ⟨_, .rejected hheader⟩
    · obtain ⟨x, W, hbody⟩ := exists_readsBody P key header (i := 0) (by norm_num) t
      cases hx : x.bind (checkCount header.chunkCount) with
      | error e => exact ⟨_, .unopened hheader hbody hx⟩
      | ok => exact ⟨_, .opened hheader hbody hx⟩

/-- Every command has an effect on every store. -/
theorem Effect.total (P : Primitives) (cmd : Command) (S : Store) :
    ∃ r S', cmd.Effect P S r S' := by
  by_cases hmay : cmd.MayWrite S
  · cases hX : S cmd.input with
    | none => exact ⟨_, _, .missing hmay hX⟩
    | some X =>
      obtain ⟨v, hv⟩ := exists_gives P cmd X
      exact ⟨_, _, .input hmay hX hv⟩
  · exact ⟨_, _, .present hmay⟩

/-- A path that is neither the temporary file nor the output is left alone. -/
theorem after_of_ne (cmd : Command) (S : Store) (v : Verdict) {p : Path} (htmp : p ≠ cmd.tmp)
    (hout : p ≠ cmd.output) : cmd.after S v p = S p := by
  cases v with
  | refused e => rfl
  | failed e => exact Function.update_of_ne htmp _ _
  | written W =>
    rw [after, Function.update_of_ne hout, Function.update_of_ne htmp]

theorem Effect.eq_of_ne {cmd : Command} {S S' : Store} {r : Except Stop Unit}
    (h : cmd.Effect P S r S') {p : Path} (htmp : p ≠ cmd.tmp) (hout : p ≠ cmd.output) :
    S' p = S p := by
  cases h with
  | present => rfl
  | missing => rfl
  | input => exact after_of_ne cmd S _ htmp hout

/-- A command that fails leaves its output alone. -/
theorem Effect.output_of_error {cmd : Command} {S S' : Store} {e : Stop}
    (h : cmd.Effect P S (.error e) S') : S' cmd.output = S cmd.output := by
  generalize hr : (Except.error e : Except Stop Unit) = r at h
  cases h with
  | present => rfl
  | missing => rfl
  | @input X v hmay hX hv =>
    cases v with
    | refused e => rfl
    | failed e => exact Function.update_of_ne cmd.tmp_ne_output.symm _ _
    | written W => cases hr

/-- A command that succeeds has written its output, and its temporary file is gone. -/
theorem Effect.of_ok {cmd : Command} {S S' : Store} (h : cmd.Effect P S (.ok ()) S') :
    cmd.MayWrite S ∧ ∃ X W, S cmd.input = some X ∧ Gives P cmd X (.written W) ∧
      S' = cmd.after S (.written W) := by
  generalize hr : (Except.ok () : Except Stop Unit) = r at h
  cases h with
  | present => cases hr
  | missing => cases hr
  | @input X v hmay hX hv =>
    cases v with
    | refused e => cases hr
    | failed e => cases hr
    | written W => exact ⟨hmay, X, W, hX, hv, rfl⟩

theorem after_output (cmd : Command) (S : Store) (W : Bytes) :
    cmd.after S (.written W) cmd.output = some W :=
  Function.update_self _ _ _

theorem after_tmp (cmd : Command) (S : Store) (W : Bytes) :
    cmd.after S (.written W) cmd.tmp = none := by
  rw [after, Function.update_of_ne cmd.tmp_ne_output, Function.update_self]

/-! ## Round trip -/

/-- What an encryption writes is an encrypted file of its input. -/
theorem Gives.sealedFile {plainPath cipherPath : Path} {passphrase X W : Bytes}
    {algorithm : Algorithm} {force : Bool} (hlen : X.length < 2 ^ 64)
    (h : Gives P (.encrypt plainPath cipherPath passphrase algorithm force) X (.written W)) :
    ∃ f : SealedFile P, deriveKey P passphrase f.header.salt.val = .ok f.key ∧
      f.header.algo = algorithm ∧ f.plaintext = X ∧ W = f.bytes := by
  generalize hv : Verdict.written W = v at h
  cases h with
  | kdf => cases hv
  | unsealed => cases hv
  | @sealed _ _ _ _ W' _ _ salt nonce key n hkey hbody =>
    obtain ⟨hchunking, hflatten⟩ := chunking_blocks X
    obtain ⟨-, cs, hall, rfl⟩ := hbody.of_ok rfl
    refine ⟨⟨key, sealedHeader algorithm salt nonce X, blocks X, cs, hchunking, hall, ?_⟩, hkey,
      rfl, hflatten, Verdict.written.inj hv⟩
    -- the committed number of chunks is that of the blocks
    rw [length_blocks, sealedHeader, toNat_committedChunks, UInt64.toNat_ofNat_of_lt' hlen]

/-- What an encryption writes is at most a header and 21 times its input. -/
theorem Gives.length_le {plainPath cipherPath : Path} {passphrase X W : Bytes}
    {algorithm : Algorithm} {force : Bool}
    (h : Gives P (.encrypt plainPath cipherPath passphrase algorithm force) X (.written W)) :
    W.length ≤ 21 * X.length + headerLen := by
  generalize hv : Verdict.written W = v at h
  cases h with
  | kdf => cases hv
  | unsealed => cases hv
  | @sealed _ _ _ _ W' _ _ salt nonce key n hkey hbody =>
    obtain rfl := Verdict.written.inj hv
    -- no chunk is empty, so there are at most as many as bytes
    obtain ⟨hchunking, hflatten⟩ := chunking_blocks X
    have hcount := hchunking.length_le_flatten
    have hlen := hbody.length_le
    rw [hflatten] at hcount hlen
    rw [List.length_append, Header.length_bytes]
    omega

/-- What a decryption makes of a file that decodes is its plaintext. -/
theorem Gives.eq_written {plainPath cipherPath : Path} {passphrase F W : Bytes} {force : Bool}
    {v : Verdict} (h : Gives P (.decrypt plainPath cipherPath passphrase force) F v)
    (hok : Decodes P passphrase F (.ok ()) W) : v = .written W := by
  cases h with
  | rejected hheader => cases (hok.unique (.refused hheader)).1
  | unopened hheader hbody hx => cases (hok.unique (.body hheader hbody)).1.trans hx
  | opened hheader hbody hx => rw [(hok.unique (.body hheader hbody)).2]

section RoundTrip

variable (hverify : ∀ key msg, P.hmacVerify key msg (P.hmacSha256 key msg).val = true)
variable (hdecrypt : ∀ algo key nonce msg aad ct,
  (P.aead algo).encrypt key nonce msg aad = some ct →
    (P.aead algo).decrypt key nonce ct aad = some msg)
include hverify hdecrypt

/-- An encrypted file decodes to its plaintext under its passphrase. -/
theorem decodes_sealedFile {passphrase : Bytes} (f : SealedFile P)
    (hkey : deriveKey P passphrase f.header.salt.val = .ok f.key) :
    Decodes P passphrase f.bytes (.ok ()) f.plaintext := by
  obtain ⟨r', hrun⟩ := decryptPipeline_ok passphrase _ hkey (parse_bytes hverify f.header f.key)
    (f.opens hdecrypt) (delivers_ofSlice _) (Nat.lt_succ_self _)
  exact .of_run (delivers_ofSlice _) (Nat.lt_succ_self _) hrun

/-- A decryption of what an encryption has written succeeds and gives back what was encrypted, from
whatever path the encrypted file is read then, to whatever path that may be written. -/
theorem Effect.decrypt_encrypt {plainPath cipherPath plainPath' cipherPath' : Path}
    {passphrase : Bytes} {algorithm : Algorithm} {force force' : Bool} {S S₁ S₂ S₃ : Store}
    {r : Except Stop Unit}
    (hlen : ∀ X, S plainPath = some X → X.length < 2 ^ 64)
    (henc :
      (Command.encrypt plainPath cipherPath passphrase algorithm force).Effect P S (.ok ()) S₁)
    (hmoved : S₂ cipherPath' = S₁ cipherPath)
    (hmay : (Command.decrypt plainPath' cipherPath' passphrase force').MayWrite S₂)
    (hdec : (Command.decrypt plainPath' cipherPath' passphrase force').Effect P S₂ r S₃) :
    r = .ok () ∧ S₃ plainPath' = S plainPath := by
  obtain ⟨-, X, W, hX, hgives, rfl⟩ := henc.of_ok
  have hX' : S plainPath = some X := hX
  obtain ⟨f, hkey, -, rfl, rfl⟩ := hgives.sealedFile (hlen X hX')
  -- the file that is read is the one that was written
  have hF : S₂ cipherPath' = some f.bytes := hmoved.trans (after_output _ S f.bytes)
  cases hdec with
  | present hno => exact absurd hmay hno
  | missing _ hnone =>
    have hnone' : S₂ cipherPath' = none := hnone
    rw [hF] at hnone'
    cases hnone'
  | input _ hin hgives' =>
    obtain rfl := Option.some.inj (hF.symm.trans hin)
    rw [hgives'.eq_written (decodes_sealedFile hverify hdecrypt f hkey), hX']
    exact ⟨rfl, after_output (.decrypt plainPath' cipherPath' passphrase force') S₂ _⟩

end RoundTrip

end Command

end Cry
