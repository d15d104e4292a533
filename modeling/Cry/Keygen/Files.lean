import Cry.Effects.Script
import Cry.Effects.Trace
import Cry.Keygen
import Cry.Rust.Path
import Mathlib.Tactic.IntervalCases

/-!
# The key files of `keygen` and `derive`

Both commands check the paths they are going to write, make a key, and write the files of the key
one after the other, each in place. The file system is a map from paths to contents, and every
operation on it may fail: a write that fails after opening its file leaves a part of the content,
and `Path::exists` is `false` when the metadata of the path cannot be read, whatever is there.

Randomness is an argument: `draw` is what the system's generator yields for the key, `sshDraw`
what it yields for the encryption of the OpenSSH file. The crates that generate and encode keys
are a parameter. Status lines on standard error are left out, and with them the base64 public key
and the fingerprint, which are only printed there.

## Main results

* `run_scriptProg`: a script as a program does to the files what the script does;
* `writeIdentity_eq`: the common part of the Ed25519 arms is a script;
* `hexEncode_injective`: the text in a key file determines the key.
-/

namespace Cry

open Rust Effects

/-- The crates that generate and encode keys. A `String` on the error side is the text of the
crate's error. -/
structure KeyPrimitives where
  /-- What the system's random number generator yields for one call. -/
  Draw : Type
  /-- RSA private keys. -/
  Rsa : Type
  /-- RSA public keys. -/
  RsaPublic : Type
  /-- Ed25519 keypairs of the `ssh_key` crate. -/
  Keypair : Type
  /-- Private keys of the `ssh_key` crate, encrypted or not. -/
  SshKey : Type
  /-- `SigningKey::generate`. -/
  generate : Draw → U8Array 32
  /-- `OsRng.fill_bytes` on 32 bytes. -/
  fillBytes : Draw → U8Array 32
  /-- The Ed25519 public key of a secret key. -/
  verifyingKey : U8Array 32 → U8Array 32
  /-- `RsaPrivateKey::new`. -/
  rsaNew : Draw → ℕ → Except String Rsa
  /-- `RsaPublicKey::from`. -/
  rsaPublic : Rsa → RsaPublic
  /-- `to_pkcs8_pem`. -/
  toPkcs8Pem : Rsa → Option Bytes
  /-- `to_public_key_pem`. -/
  toPublicKeyPem : RsaPublic → Option Bytes
  /-- `Ed25519Keypair::from_bytes`. -/
  keypairFromBytes : Bytes → Except String Keypair
  /-- `PrivateKey::new`. -/
  privateKeyNew : Keypair → String → Except String SshKey
  /-- `PrivateKey::encrypt`. -/
  encrypt : Draw → SshKey → String → Except String SshKey
  /-- `PrivateKey::to_openssh`. -/
  toOpenssh : SshKey → Except String Bytes
  /-- `Base64::encode_string`. -/
  base64 : Bytes → String

/-- Keys without secrecy in place of those of the crates, to evaluate the model: a draw is one byte
that is repeated, and an encoded key is its bytes. -/
def transparentKeys : KeyPrimitives where
  Draw := UInt8
  Rsa := Bytes
  RsaPublic := Bytes
  Keypair := Bytes
  SshKey := Bytes
  generate draw := ⟨List.replicate 32 draw, by simp⟩
  fillBytes draw := ⟨List.replicate 32 draw, by simp⟩
  verifyingKey seed := ⟨seed.val.map (· + 1), by simp⟩
  rsaNew draw bits := .ok (List.replicate bits draw)
  rsaPublic key := key.map (· + 1)
  toPkcs8Pem key := some key
  toPublicKeyPem key := some key
  keypairFromBytes bytes := .ok bytes
  privateKeyNew keypair _ := .ok keypair
  encrypt draw key _ := .ok (draw :: key)
  toOpenssh key := .ok key
  base64 bytes := String.ofList (bytes.map fun b => Char.ofNat b.toNat)

/-! ## Encodings -/

/-- One lowercase hexadecimal digit. -/
def hexDigit (n : ℕ) : UInt8 := UInt8.ofNat (if n < 10 then 48 + n else 87 + n)

/-- Bytes as lowercase hexadecimal text: `hex::encode`, and `bytes_to_hex`. -/
def hexEncode (bytes : Bytes) : Bytes :=
  bytes.flatMap fun b => [hexDigit (b.toNat / 16), hexDigit (b.toNat % 16)]

/-- A digit determines its value. -/
theorem hexDigit_inj {m n : ℕ} (hm : m < 16) (hn : n < 16) (h : hexDigit m = hexDigit n) :
    m = n := by
  interval_cases m <;> interval_cases n <;> first | rfl | exact absurd h (by decide)

/-- The hexadecimal text determines the bytes. -/
theorem hexEncode_injective : Function.Injective hexEncode := by
  intro as bs h
  -- induction on the bytes, of which each gives two digits
  induction as generalizing bs with
  | nil =>
    cases bs with
    | nil => rfl
    | cons b bs => cases h
  | cons a as ih =>
    cases bs with
    | nil => cases h
    | cons b bs =>
      have ha := a.toNat_lt
      have hb := b.toNat_lt
      obtain ⟨hhi, hrest⟩ := List.cons.inj h
      obtain ⟨hlo, hrest⟩ := List.cons.inj hrest
      have hhi' := hexDigit_inj (by omega) (by omega) hhi
      have hlo' := hexDigit_inj (by omega) (by omega) hlo
      rw [ih hrest, UInt8.toNat_inj.mp (show a.toNat = b.toNat by omega)]

/-- `std::str::from_utf8`. -/
def fromUtf8 (bytes : Bytes) : Option String := String.fromUTF8? ⟨bytes.toArray⟩

theorem fromUtf8_utf8 (s : String) : fromUtf8 (utf8 s) = some s := by
  have hbytes : (⟨(utf8 s).toArray⟩ : ByteArray) = s.toUTF8 := by simp [utf8]
  rw [fromUtf8, hbytes, String.toUTF8_eq_toByteArray, String.fromUTF8?, dif_pos s.isValidUTF8]
  rfl

/-- `Option::unwrap`. -/
def unwrap {α : Type} : Option α → Except Stop α
  | some a => .ok a
  | none => .error .panic

/-- Map the error of a crate to `CryError::InvalidFormat` under a prefix. -/
def invalidFormat {α : Type} (text : String) : Except String α → Except Stop α
  | .ok a => .ok a
  | .error e => .error (.err (.invalidFormat (text ++ e)))

theorem unwrap_eq_ok {α : Type} {x : Option α} {a : α} (h : unwrap x = .ok a) : x = some a := by
  cases x with
  | none => cases h
  | some a' => rw [Except.ok.inj h]

theorem invalidFormat_eq_ok {α : Type} {text : String} {x : Except String α} {a : α}
    (h : invalidFormat text x = .ok a) : x = .ok a := by
  cases x with
  | error e => cases h
  | ok a' => rw [Except.ok.inj h]

namespace Crydna

variable (K : KeyPrimitives)

/-- The public key in the wire format of SSH. -/
def sshWirePublicKey (pubBytes : U8Array 32) : Bytes :=
  let keyType := utf8 "ssh-ed25519"
  BigEndian.ofU32 (UInt32.ofNat keyType.length) ++ keyType ++
    BigEndian.ofU32 (UInt32.ofNat pubBytes.val.length) ++ pubBytes.val

/-- The public key as a line of `authorized_keys`. -/
def Identity.sshAuthorizedKeysLine (id : Identity) (comment : String) : String :=
  "ssh-ed25519 " ++ K.base64 (sshWirePublicKey (K.verifyingKey id.signingKey)) ++ " " ++ comment

/-- The identity as an encrypted OpenSSH private key. -/
def Identity.opensshPrivateKey (sshDraw : K.Draw) (id : Identity) (passphrase comment : String) :
    Except Stop Bytes := do
  let keypair ← invalidFormat "OpenSSH key build failed: "
    (K.keypairFromBytes (id.signingKey.val ++ (K.verifyingKey id.signingKey).val))
  let key ← invalidFormat "OpenSSH key build failed: " (K.privateKeyNew keypair comment)
  let encrypted ← invalidFormat "OpenSSH key encryption failed: " (K.encrypt sshDraw key passphrase)
  invalidFormat "OpenSSH key encode failed: " (K.toOpenssh encrypted)

end Crydna

namespace Keygen

/-! ## Operations -/

/-- The operations on the file system. -/
inductive KeyOp
  /-- `Path::exists`. -/
  | pathExists (path : String)
  /-- `std::fs::write`. -/
  | write (path : String) (content : Bytes)
  /-- `std::fs::set_permissions`. -/
  | setPermissions (path : String) (mode : ℕ)

/-- The answers to the operations. -/
abbrev KeyRes : KeyOp → Type
  | .pathExists _ => Bool
  | .write _ _ => Except IoError Unit
  | .setPermissions _ _ => Except IoError Unit

/-- Programs over the file system. -/
abbrev KeyProg (α : Type) := Prog KeyOp KeyRes Stop α

/-- `std::fs::write` under `?`. -/
def fsWrite (path : String) (content : Bytes) : KeyProg Unit := do
  Prog.ofExcept (ofIo (← Prog.perform (.write path content)))

/-- `std::fs::set_permissions` under `?`. -/
def setPermissions (path : String) (mode : ℕ) : KeyProg Unit := do
  Prog.ofExcept (ofIo (← Prog.perform (.setPermissions path mode)))

/-- Refuse an existing path unless overwriting is allowed. -/
def ensureWritable (path : String) (force : Bool) : KeyProg Unit := do
  let taken ← Prog.perform (.pathExists path)
  if taken && !force then Prog.throw (.err (.fileExists path)) else pure ()

/-! ## Names -/

/-- The algorithms of a key. -/
inductive KeyAlgorithm
  | ed25519
  | rsa
  | aes256Gcm
  deriving DecidableEq

/-- The bytes of a path as text, every invalid part of them replaced. -/
def display (path : Bytes) : String := String.ofList (Path.decodeLossy path.length path)

/-- The path of the private key, and of the public key where there is one. -/
def names (base : Bytes) (algo : KeyAlgorithm) : String × Option String :=
  let privPath := display base ++ ".cry_id"
  match algo with
  | .aes256Gcm => (privPath, none)
  | _ => (privPath, some (display base ++ ".cry_pub_id"))

/-- The path of the OpenSSH private key. A path made from text displays as that text. -/
def opensshPath (path : String) : String := path ++ ".openssh_id"

/-- The path of the OpenSSH public key line. -/
def opensshPubPath (path : String) : String := path ++ ".openssh_pub"

/-! ## Writers -/

/-- Write the private key of an identity, readable by its owner only. -/
def writePrivateKeyHexFile (id : Crydna.Identity) (path : String) (force : Bool) :
    KeyProg Unit := do
  ensureWritable path force
  fsWrite path (hexEncode id.signingKey.val)
  setPermissions path 0o600

/-- Write a private key. -/
def writePrivateKey (path : String) (bytes : Bytes) (force : Bool) : KeyProg Unit := do
  ensureWritable path force
  fsWrite path (hexEncode bytes)

/-- Write a public key. -/
def writePublicKey (path : String) (bytes : Bytes) (force : Bool) : KeyProg Unit := do
  ensureWritable path force
  fsWrite path (hexEncode bytes)

section Commands

variable (P : Primitives) (K : KeyPrimitives)

/-- Write the encrypted OpenSSH private key of an identity. -/
def writeOpensshPrivateKey (sshDraw : K.Draw) (path : String) (id : Crydna.Identity)
    (passphrase : Bytes) (comment : String) (force : Bool) : KeyProg Unit := do
  ensureWritable path force
  match fromUtf8 passphrase with
  | none => Prog.throw (.err (.invalidFormat "OpenSSH passphrase must be valid UTF-8"))
  | some passphrase => do
    let pem ← Prog.ofExcept (id.opensshPrivateKey K sshDraw passphrase comment)
    fsWrite path pem

/-- The checks that both Ed25519 arms make before there is a key. -/
def ensureIdentityWritable (privPath pubPath : String) (openssh force : Bool) :
    KeyProg Unit := do
  ensureWritable privPath force
  ensureWritable pubPath force
  if openssh then do
    ensureWritable (opensshPath privPath) force
    ensureWritable (opensshPubPath privPath) force
  else pure ()

/-- What both Ed25519 arms write: the two key files, and the two OpenSSH files on demand. -/
def writeIdentity (sshDraw : K.Draw) (id : Crydna.Identity) (privPath pubPath : String)
    (openssh : Bool) (opensshPassphrase : Option Bytes) (comment : String) (force : Bool) :
    KeyProg Unit := do
  writePrivateKeyHexFile id privPath force
  writePublicKey pubPath (K.verifyingKey id.signingKey).val force
  if openssh then
    match opensshPassphrase with
    | none => Prog.throw (.err (.invalidFormat "missing OpenSSH passphrase"))
    | some passphrase => do
      writeOpensshPrivateKey K sshDraw (opensshPath privPath) id passphrase comment force
      -- no check of its own: the path was checked before there was a key
      fsWrite (opensshPubPath privPath) (utf8 (id.sshAuthorizedKeysLine K comment ++ "\n"))
  else pure ()

/-- The arguments of `keygen`. The sub-identity, which it never reads, is left out. -/
structure KeygenArgs where
  algo : KeyAlgorithm := .ed25519
  bits : ℕ := 3072
  output : Bytes := utf8 "k"
  force : Bool := false
  openssh : Bool := false
  comment : String := "CryDNA"

/-- The arguments of `derive`. The size of an RSA key, which it never reads, is left out. -/
structure DeriveArgs where
  algo : KeyAlgorithm := .ed25519
  passphrase : Option String := none
  ns : String := "default"
  keyVersion : UInt32 := 0
  output : Bytes := utf8 "k"
  subId : Option String := none
  force : Bool := false
  openssh : Bool := false
  comment : String := "CryDNA"

/-- Generate a random key and write its files. -/
def keygen (draw sshDraw : K.Draw) (args : KeygenArgs) (opensshPassphrase : Option Bytes) :
    KeyProg Unit :=
  let output := names args.output args.algo
  match args.algo with
  | .ed25519 => do
    let pubPath ← Prog.ofExcept (unwrap output.2)
    ensureIdentityWritable output.1 pubPath args.openssh args.force
    writeIdentity K sshDraw { signingKey := K.generate draw } output.1 pubPath args.openssh
      opensshPassphrase args.comment args.force
  | .aes256Gcm => do
    ensureWritable output.1 args.force
    writePrivateKey output.1 (K.fillBytes draw).val args.force
  | .rsa => do
    let pubPath ← Prog.ofExcept (unwrap output.2)
    ensureWritable output.1 args.force
    ensureWritable pubPath args.force
    let priv ← Prog.ofExcept (invalidFormat "RSA generation failed: " (K.rsaNew draw args.bits))
    let pem ← Prog.ofExcept (unwrap (K.toPkcs8Pem priv))
    fsWrite output.1 pem
    let publicPem ← Prog.ofExcept (unwrap (K.toPublicKeyPem (K.rsaPublic priv)))
    fsWrite pubPath publicPem

/-- Derive a key from a passphrase and write its files. -/
def derive (sshDraw : K.Draw) (args : DeriveArgs) (passphrase : Bytes)
    (opensshPassphrase : Option Bytes) : KeyProg Unit :=
  let output := names args.output args.algo
  match args.algo with
  | .ed25519 => do
    let pubPath ← Prog.ofExcept (unwrap output.2)
    ensureIdentityWritable output.1 pubPath args.openssh args.force
    let id ← Prog.ofExcept
      (Crydna.Identity.derive P passphrase args.ns args.keyVersion args.subId)
    writeIdentity K sshDraw id output.1 pubPath args.openssh opensshPassphrase args.comment
      args.force
  | .aes256Gcm => do
    ensureWritable output.1 args.force
    let okm ← Prog.ofExcept (deriveAesKey P passphrase args.ns args.keyVersion args.subId)
    writePrivateKey output.1 okm.val args.force
  | .rsa =>
    Prog.throw (.err (.invalidFormat "Deterministic RSA derivation is intentionally disabled"))

end Commands

/-! ## The file system -/

/-- A file system without links: paths to contents. -/
abbrev Files := Store String UInt8

/-- The files, and the outcomes of the coming operations. -/
structure KeyState where
  files : Files
  schedule : Script.Schedule IoError := []

/-- Serve one operation. A check that fails answers that there is no file; a failed write leaves the
file alone, or a part of the content in it. -/
def KeyState.serve : (o : KeyOp) → KeyState → KeyRes o × KeyState
  | .pathExists path, ⟨files, schedule⟩ =>
    match schedule.headD none with
    | none => ((files path).isSome, ⟨files, schedule.tail⟩)
    | some _ => (false, ⟨files, schedule.tail⟩)
  | .write path content, ⟨files, schedule⟩ =>
    match schedule.headD none with
    | none => (.ok (), ⟨Function.update files path (some content), schedule.tail⟩)
    | some f =>
      let left := match f.written with
        | none => files
        | some n => Function.update files path (some (content.take n))
      (.error f.error, ⟨left, schedule.tail⟩)
  | .setPermissions _ _, ⟨files, schedule⟩ =>
    match schedule.headD none with
    | none => (.ok (), ⟨files, schedule.tail⟩)
    | some f => (.error f.error, ⟨files, schedule.tail⟩)

/-- Run a program on files and a schedule: the result and the files at the end. -/
def KeyProg.run {α : Type} (p : KeyProg α) (files : Files) (schedule : Script.Schedule IoError) :
    Option (Except Stop α × Files) :=
  (Prog.run KeyState.serve p ⟨files, schedule⟩).map fun x => (x.1, x.2.files)

/-! ## Commands as scripts -/

/-- The steps of the commands. -/
abbrev KeyStep := Step String UInt8 (String × ℕ) Stop

/-- One step as a program. -/
def stepProg (force : Bool) : KeyStep → KeyProg Unit
  | .guard path => ensureWritable path force
  | .write path content => fsWrite path content
  | .touch t => setPermissions t.1 t.2
  | .stop e => .throw e

/-- A script as a program. -/
def scriptProg (force : Bool) : List KeyStep → KeyProg Unit
  | [] => .pure ()
  | s :: steps => (stepProg force s).bind fun _ => scriptProg force steps

/-- What follows a computation that may fail. -/
def afterwards {α : Type} (x : Except Stop α) (steps : α → List KeyStep) : List KeyStep :=
  match x with
  | .ok a => steps a
  | .error e => [.stop e]

theorem bind_pure_unit (x : KeyProg Unit) : (x.bind fun _ => .pure ()) = x := Prog.bind_pure x

theorem scriptProg_append (force : Bool) (steps steps' : List KeyStep) :
    scriptProg force (steps ++ steps') =
      (scriptProg force steps).bind fun _ => scriptProg force steps' := by
  induction steps with
  | nil => rfl
  | cons s steps ih => rw [List.cons_append, scriptProg, scriptProg, ih, Prog.bind_assoc]

@[simp] theorem scriptProg_singleton (force : Bool) (s : KeyStep) :
    scriptProg force [s] = stepProg force s :=
  Prog.bind_pure _

@[simp] theorem scriptProg_afterwards {α : Type} (force : Bool) (x : Except Stop α)
    (steps : α → List KeyStep) : scriptProg force (afterwards x steps) =
      (Prog.ofExcept x).bind fun a => scriptProg force (steps a) := by
  cases x <;> rfl

/-- The error with which a command that is a script ends early. -/
def stopOf : Failure String IoError Stop → Stop
  | .taken path => .err (.fileExists path)
  | .fault e => .err (.io e)
  | .stop e => e

/-- A path is refused when there is a file, the check of it does not fail, and overwriting is not
allowed. -/
theorem run_ensureWritable (path : String) (force : Bool) (files : Files)
    (schedule : Script.Schedule IoError) :
    Prog.run KeyState.serve (ensureWritable path force) ⟨files, schedule⟩ =
      some (if Script.refused force files path && (schedule.headD none).isNone then
        .error (.err (.fileExists path)) else .ok (), ⟨files, schedule.tail⟩) := by
  rw [ensureWritable, Prog.bind_eq, Prog.perform_bind, Prog.run_op, Script.refused]
  rcases schedule with _ | ⟨_ | f, rest⟩
  · cases h : (files path).isSome && !force <;> simp [KeyState.serve, h]
  · cases h : (files path).isSome && !force <;> simp [KeyState.serve, h]
  · simp [KeyState.serve]

/-- A script as a program does to the files what the script does. -/
theorem run_scriptProg (force : Bool) (steps : List KeyStep) (files : Files)
    (schedule : Script.Schedule IoError) :
    (scriptProg force steps).run files schedule =
      some ((Script.exec force steps schedule files).1.mapError stopOf,
        (Script.exec force steps schedule files).2) := by
  unfold KeyProg.run
  -- induction on the script; a failed step leaves the rest of both sides out
  induction steps generalizing files schedule with
  | nil => rfl
  | cons s steps ih =>
    rw [scriptProg, Script.exec]
    cases s with
    | guard path =>
      rw [stepProg, Prog.run_bind, run_ensureWritable]
      simp only [Step.failure, Step.leaves]
      by_cases hrefuse : (Script.refused force files path && (schedule.headD none).isNone) = true
      · rw [if_pos hrefuse, if_pos hrefuse]
        rfl
      · rw [if_neg hrefuse, if_neg hrefuse]
        exact ih _ _
    | write path content =>
      simp only [stepProg, fsWrite, Prog.bind_eq, Prog.perform_bind, Prog.op_bind, Prog.run_op,
        KeyState.serve]
      cases schedule.headD none with
      | none => exact ih _ _
      | some f =>
        obtain ⟨e, written⟩ := f
        cases written <;> rfl
    | touch t =>
      simp only [stepProg, setPermissions, Prog.bind_eq, Prog.perform_bind, Prog.op_bind,
        Prog.run_op, KeyState.serve]
      cases schedule.headD none with
      | none => exact ih _ _
      | some f => rfl
    | stop e => rfl

section Steps

variable (P : Primitives) (K : KeyPrimitives)

/-- The steps that write the OpenSSH files. -/
def opensshSteps (sshDraw : K.Draw) (id : Crydna.Identity) (privPath : String)
    (opensshPassphrase : Option Bytes) (comment : String) : List KeyStep :=
  match opensshPassphrase with
  | none => [.stop (.err (.invalidFormat "missing OpenSSH passphrase"))]
  | some passphrase =>
    .guard (opensshPath privPath) ::
      match fromUtf8 passphrase with
      | none => [.stop (.err (.invalidFormat "OpenSSH passphrase must be valid UTF-8"))]
      | some passphrase =>
        afterwards (id.opensshPrivateKey K sshDraw passphrase comment) fun pem =>
          [.write (opensshPath privPath) pem, .write (opensshPubPath privPath)
            (utf8 (id.sshAuthorizedKeysLine K comment ++ "\n"))]

/-- The steps that write the files of an identity. -/
def identitySteps (sshDraw : K.Draw) (id : Crydna.Identity) (privPath pubPath : String)
    (openssh : Bool) (opensshPassphrase : Option Bytes) (comment : String) : List KeyStep :=
  [.guard privPath, .write privPath (hexEncode id.signingKey.val), .touch (privPath, 0o600)] ++
    ([.guard pubPath, .write pubPath (hexEncode (K.verifyingKey id.signingKey).val)] ++
      if openssh then opensshSteps K sshDraw id privPath opensshPassphrase comment else [])

theorem writePrivateKeyHexFile_eq (id : Crydna.Identity) (path : String) (force : Bool) :
    writePrivateKeyHexFile id path force = scriptProg force
      [.guard path, .write path (hexEncode id.signingKey.val), .touch (path, 0o600)] := by
  simp only [writePrivateKeyHexFile, scriptProg, stepProg, Prog.bind_eq, bind_pure_unit]

theorem writePublicKey_eq (path : String) (bytes : Bytes) (force : Bool) :
    writePublicKey path bytes force =
      scriptProg force [.guard path, .write path (hexEncode bytes)] := by
  simp only [writePublicKey, scriptProg, stepProg, Prog.bind_eq, bind_pure_unit]

theorem writePrivateKey_eq (path : String) (bytes : Bytes) (force : Bool) :
    writePrivateKey path bytes force =
      scriptProg force [.guard path, .write path (hexEncode bytes)] :=
  writePublicKey_eq path bytes force

theorem writeIdentity_eq (sshDraw : K.Draw) (id : Crydna.Identity) (privPath pubPath : String)
    (openssh : Bool) (opensshPassphrase : Option Bytes) (comment : String) (force : Bool) :
    writeIdentity K sshDraw id privPath pubPath openssh opensshPassphrase comment force =
      scriptProg force
        (identitySteps K sshDraw id privPath pubPath openssh opensshPassphrase comment) := by
  rw [identitySteps, scriptProg_append, scriptProg_append, ← writePrivateKeyHexFile_eq,
    ← writePublicKey_eq]
  simp only [writeIdentity, Prog.bind_eq]
  congr 1
  funext _
  congr 1
  funext _
  -- the two plain files agree; what is left are the OpenSSH files
  cases openssh with
  | false => rfl
  | true =>
    cases opensshPassphrase with
    | none => rfl
    | some passphrase =>
      simp only [if_true, opensshSteps, scriptProg, writeOpensshPrivateKey, stepProg,
        Prog.bind_eq, Prog.bind_assoc]
      congr 1
      funext _
      cases fromUtf8 passphrase with
      | none => rfl
      | some passphrase =>
        simp only [scriptProg_afterwards, scriptProg, stepProg, Prog.bind_assoc, bind_pure_unit]

end Steps

end Keygen

end Cry
