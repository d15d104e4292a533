import Cry.Effects.Trace
import Cry.Keygen.Files
import Cry.Header

/-!
# The command line

The dispatch of `main` after the command line has been parsed: where each command takes its
passphrase from, and which function of the library it calls with it. The calls of the library are
operations here; what each of them derives keys from is listed in `CliOp.derivations`, and
`body_withArgon2id` says of the functions themselves that the list is complete.

The banner, the progress lines and the report of the result are left out, and with them what
`sign` prints about a signature.
-/

namespace Cry.Cli

open Rust Effects

/-! ## Arguments -/

/-- The arguments of `encrypt`. -/
structure EncryptArgs where
  plain : Path
  cipher : Path
  algorithm : Algorithm := .aes256Gcm
  force : Bool := false
  passFile : Option Bytes := none

/-- The arguments of `decrypt`. -/
structure DecryptArgs where
  cipher : Path
  plain : Path
  force : Bool := false
  passFile : Option Bytes := none

/-- The arguments of `sign`, with the parameters of the identity. -/
structure SignArgs where
  file : Bytes
  ns : String := "default"
  keyVersion : UInt32 := 0
  subId : Option String := none
  passFile : Option Bytes := none

/-- The arguments of `verify`. -/
structure VerifyArgs where
  file : Bytes
  signature : String
  publicKey : String

/-- The arguments of `ssh`. -/
structure SshArgs where
  target : String
  passphrase : Option String := none
  ns : String := "default"
  keyVersion : UInt32 := 0
  subId : Option String := none
  passFile : Option Bytes := none
  port : Option UInt16 := none
  sshArgs : List String := []

/-- A parsed command line. The numbers of `bench` are left out. -/
inductive Command
  | encrypt (args : EncryptArgs)
  | decrypt (args : DecryptArgs)
  | keygen (args : Keygen.KeygenArgs)
  | derive (args : Keygen.DeriveArgs)
  | sign (args : SignArgs)
  | verify (args : VerifyArgs)
  | bench
  | ssh (args : SshArgs)

/-! ## Operations -/

/-- The operations of the dispatch. -/
inductive CliOp
  /-- `std::fs::read`. -/
  | readFile (path : Bytes)
  /-- `rpassword::prompt_password`. -/
  | promptPassword (text : String)
  /-- `encrypt_file`. -/
  | encryptFile (plain cipher : Path) (passphrase : Bytes) (algorithm : Algorithm) (force : Bool)
  /-- `decrypt_file`. -/
  | decryptFile (plain cipher : Path) (passphrase : Bytes) (force : Bool)
  /-- `keygen::keygen`. -/
  | keygen (args : Keygen.KeygenArgs) (opensshPassphrase : Option Bytes)
  /-- `keygen::derive`. -/
  | derive (args : Keygen.DeriveArgs) (passphrase : Bytes) (opensshPassphrase : Option Bytes)
  /-- `Identity::derive`. -/
  | identityDerive (passphrase : Bytes) (context : Context)
  /-- `crydna::verify_content_signature`. -/
  | verifyContentSignature (publicKey : String) (content : Bytes) (signature : String)
  /-- `bench::run_bench`. -/
  | runBench
  /-- `ssh::run_ssh`. -/
  | runSsh (args : SshArgs) (passphrase : Bytes)

/-- The answers to the operations. -/
abbrev CliRes : CliOp → Type
  | .readFile _ => Except IoError Bytes
  | .promptPassword _ => Except IoError String
  | .encryptFile _ _ _ _ _ => Except CryError Unit
  | .decryptFile _ _ _ _ => Except CryError Unit
  | .keygen _ _ => Except CryError Unit
  | .derive _ _ _ => Except CryError Unit
  | .identityDerive _ _ => Except CryError Crydna.Identity
  | .verifyContentSignature _ _ _ => Except CryError Unit
  | .runBench => Except CryError Unit
  | .runSsh _ _ => Except CryError Unit

/-- Programs over these operations. -/
abbrev CliProg (α : Type) := Prog CliOp CliRes CryError α

/-- `map_err(CryError::Io)`. -/
def orIo {α : Type} : Except IoError α → CliProg α
  | .ok a => .pure a
  | .error e => .throw (.io e)

/-! ## Derivations -/

/-- A key derivation: the function, and what it derives from. -/
inductive Derivation
  /-- `derive_key`, under a salt from the file. -/
  | deriveKey (passphrase : Bytes)
  /-- `Identity::derive`. -/
  | identity (passphrase : Bytes) (context : Context)
  /-- The Argon2 call of the AES arm of `keygen::derive`. -/
  | aesKey (passphrase : Bytes) (context : Context)
  deriving DecidableEq

/-- The passphrase of a derivation. -/
def Derivation.passphrase : Derivation → Bytes
  | .deriveKey passphrase => passphrase
  | .identity passphrase _ => passphrase
  | .aesKey passphrase _ => passphrase

/-- The derivations that a call makes, unless it fails before. -/
def CliOp.derivations : CliOp → List Derivation
  | .encryptFile _ _ passphrase _ _ => [.deriveKey passphrase]
  | .decryptFile _ _ passphrase _ => [.deriveKey passphrase]
  | .derive args passphrase _ =>
    let context : Context := ⟨args.ns, args.keyVersion, args.subId⟩
    match args.algo with
    | .ed25519 => [.identity passphrase context]
    | .aes256Gcm => [.aesKey passphrase context]
    | .rsa => []
  | .identityDerive passphrase context => [.identity passphrase context]
  | .runBench => [.deriveKey (utf8 "benchmark-passphrase")]
  | .runSsh args passphrase => [.identity passphrase ⟨args.ns, args.keyVersion, args.subId⟩]
  | .readFile _ | .promptPassword _ | .keygen _ _ | .verifyContentSignature _ _ _ => []

/-! ## Passphrases -/

/-- A byte that ends the first line of a pass-file: a line feed or a carriage return. -/
def endsLine (b : UInt8) : Bool := b == 10 || b == 13

/-- The first line of a pass-file: the first part of the content split at these bytes. -/
def firstLine (contents : Bytes) : Bytes := contents.takeWhile fun b => !endsLine b

/-- Read a passphrase from a file, or from a prompt, on demand with a second one to confirm it. -/
def readPassphrase (passFile : Option Bytes) (confirm : Bool) : CliProg Bytes :=
  match passFile with
  | some path => do
    let contents ← orIo (← Prog.perform (.readFile path))
    if firstLine contents = [] then Prog.throw .emptyPassphrase else pure (firstLine contents)
  | none => do
    let pass ← orIo (← Prog.perform (.promptPassword "  Passphrase : "))
    if pass = "" then Prog.throw .emptyPassphrase
    else if confirm then do
      let confirmPass ← orIo (← Prog.perform (.promptPassword "  Confirm    : "))
      if pass ≠ confirmPass then Prog.throw .passphraseMismatch else pure (utf8 pass)
    else pure (utf8 pass)

/-- Read the passphrase of an OpenSSH key file from two prompts. -/
def readOpensshPassphrase : CliProg Bytes := do
  let pass ← orIo (← Prog.perform (.promptPassword "  OpenSSH key passphrase : "))
  if pass = "" then Prog.throw .emptyPassphrase
  else do
    let confirm ← orIo (← Prog.perform (.promptPassword "  Confirm OpenSSH passphrase : "))
    if pass ≠ confirm then Prog.throw .passphraseMismatch else pure (utf8 pass)

/-! ## Dispatch -/

/-- The passphrase of the OpenSSH files, where they are asked for. -/
def opensshPass (openssh : Bool) : CliProg (Option Bytes) :=
  if openssh then do
    let pass ← readOpensshPassphrase
    pure (some pass)
  else pure none

/-- Carry out a parsed command line. -/
def main : Command → CliProg Unit
  | .encrypt args => do
    let p ← readPassphrase args.passFile true
    Prog.ofExcept (← Prog.perform (.encryptFile args.plain args.cipher p args.algorithm args.force))
  | .decrypt args => do
    let p ← readPassphrase args.passFile false
    Prog.ofExcept (← Prog.perform (.decryptFile args.plain args.cipher p args.force))
  | .keygen args => do
    let p ← opensshPass args.openssh
    Prog.ofExcept (← Prog.perform (.keygen args p))
  | .derive args => do
    let p ← opensshPass args.openssh
    let pass ← match args.passphrase with
      | some raw => if raw = "" then Prog.throw .emptyPassphrase else pure (utf8 raw)
      | none => readPassphrase none false
    Prog.ofExcept (← Prog.perform (.derive args pass p))
  | .sign args => do
    let _content ← orIo (← Prog.perform (.readFile args.file))
    let pass ← readPassphrase args.passFile false
    let _id ← Prog.ofExcept (← Prog.perform
      (.identityDerive pass ⟨args.ns, args.keyVersion, args.subId⟩))
    pure ()
  | .verify args => do
    let content ← orIo (← Prog.perform (.readFile args.file))
    Prog.ofExcept (← Prog.perform
      (.verifyContentSignature args.publicKey content args.signature))
  | .bench => do
    Prog.ofExcept (← Prog.perform .runBench)
  | .ssh args =>
    match args.passphrase with
    | some raw => do Prog.ofExcept (← Prog.perform (.runSsh args (utf8 raw)))
    | none => do
      let pass ← readPassphrase none false
      Prog.ofExcept (← Prog.perform (.runSsh args pass))

end Cry.Cli
