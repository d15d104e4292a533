import Cry.Cipher.Files
import Cry.Cli.Main
import Cry.Ssh.Agent

/-!
# What the calls of the library derive

`CliOp.derivations` lists, for each call that the dispatch makes, the keys it derives. Here the
calls are the functions of the other modules, and the lists are checked against them: Argon2id is
consulted at the listed derivations and nowhere else.

## Main results

* `body_withArgon2id`: a call does not change when Argon2id is replaced by a function that agrees
  with it at the derivations of the call.
-/

namespace Cry

open Rust Effects

/-- The same primitives with another function in the place of Argon2id. -/
def Primitives.withArgon2id (P : Primitives) (f : Bytes → Bytes → Except String (U8Array 32)) :
    Primitives :=
  { P with argon2id := f }

variable {P : Primitives} {f : Bytes → Bytes → Except String (U8Array 32)}

theorem deriveKey_withArgon2id {passphrase salt : Bytes}
    (h : f passphrase salt = P.argon2id passphrase salt) :
    deriveKey (P.withArgon2id f) passphrase salt = deriveKey P passphrase salt := by
  have hcall : (P.withArgon2id f).argon2id passphrase salt = P.argon2id passphrase salt := h
  rw [deriveKey, deriveKey, hcall]

/-! ## Files -/

/-- Chunks are encrypted under a key that is given. -/
theorem encryptLoop_withArgon2id (key : U8Array 32) (baseNonce : U8Array 12) (algo : Algorithm)
    (aad : U8Array 32) (fuel : ℕ) (chunkIndex : UInt64) :
    encryptLoop (P.withArgon2id f) key baseNonce algo aad fuel chunkIndex =
      encryptLoop P key baseNonce algo aad fuel chunkIndex := by
  induction fuel generalizing chunkIndex with
  | zero => rfl
  | succ fuel ih =>
    simp only [encryptLoop, ih]
    rfl

/-- Frames are decrypted under a key that is given. -/
theorem decryptLoop_withArgon2id (key : U8Array 32) (baseNonce : U8Array 12) (algo : Algorithm)
    (aad : U8Array 32) (fuel : ℕ) (chunkIndex : UInt64) :
    decryptLoop (P.withArgon2id f) key baseNonce algo aad fuel chunkIndex =
      decryptLoop P key baseNonce algo aad fuel chunkIndex := by
  induction fuel generalizing chunkIndex with
  | zero => rfl
  | succ fuel ih =>
    simp only [decryptLoop, ih]
    rfl

theorem encryptFile_withArgon2id {passphrase : Bytes}
    (h : ∀ salt, f passphrase salt = P.argon2id passphrase salt) (fuel : ℕ)
    (plainPath cipherPath : Path) (algorithm : Algorithm) (force : Bool) :
    encryptFile (P.withArgon2id f) fuel plainPath cipherPath passphrase algorithm force =
      encryptFile P fuel plainPath cipherPath passphrase algorithm force := by
  have hbody : ∀ header key,
      encryptBody (P.withArgon2id f) fuel header key = encryptBody P fuel header key := by
    intro header key
    simp only [encryptBody, encryptChunks, encryptLoop_withArgon2id]
    rfl
  simp only [encryptFile, encryptHeader, deriveKey_withArgon2id (h _), hbody]

theorem decryptFile_withArgon2id {passphrase : Bytes}
    (h : ∀ salt, f passphrase salt = P.argon2id passphrase salt) (fuel : ℕ)
    (plainPath cipherPath : Path) (force : Bool) :
    decryptFile (P.withArgon2id f) fuel plainPath cipherPath passphrase force =
      decryptFile P fuel plainPath cipherPath passphrase force := by
  have hheader : ∀ key raw, Header.parse (P.withArgon2id f) key raw = Header.parse P key raw :=
    fun _ _ => rfl
  have haad : ∀ header, headerAad (P.withArgon2id f) header = headerAad P header := fun _ => rfl
  simp only [decryptFile, decryptHeader, decryptChunks, deriveKey_withArgon2id (h _), hheader, haad,
    decryptLoop_withArgon2id]

namespace Cli

/-! ## Derivations -/

/-- The salts under which a derivation may call Argon2id: that of its context, or, for a file, the
one that is stored in it. -/
def Derivation.Salt (P : Primitives) (salt : Bytes) : Derivation → Prop
  | .deriveKey _ => True
  | .identity _ context =>
    salt = (Crydna.deriveSalt P context.ns context.version context.subId).val
  | .aesKey _ context => salt = (Keygen.salt P context.ns context.version context.subId).val

/-- The function agrees with Argon2id at a derivation. -/
def Derivation.Agrees (P : Primitives) (f : Bytes → Bytes → Except String (U8Array 32))
    (d : Derivation) : Prop :=
  ∀ salt, d.Salt P salt → f d.passphrase salt = P.argon2id d.passphrase salt

theorem identity_of_agrees {passphrase : Bytes} {ns : String} {version : UInt32}
    {subId : Option String}
    (h : (Derivation.identity passphrase ⟨ns, version, subId⟩).Agrees P f) :
    Crydna.Identity.derive (P.withArgon2id f) passphrase ns version subId =
      Crydna.Identity.derive P passphrase ns version subId := by
  have hsalt : f passphrase (Crydna.deriveSalt P ns version subId).val =
      P.argon2id passphrase (Crydna.deriveSalt P ns version subId).val := h _ rfl
  show (deriveKey (P.withArgon2id f) passphrase
    (Crydna.deriveSalt P ns version subId).val >>= _) = _
  rw [deriveKey_withArgon2id hsalt]
  rfl

theorem aesKey_of_agrees {passphrase : Bytes} {ns : String} {version : UInt32}
    {subId : Option String}
    (h : (Derivation.aesKey passphrase ⟨ns, version, subId⟩).Agrees P f) :
    Keygen.deriveAesKey (P.withArgon2id f) passphrase ns version subId =
      Keygen.deriveAesKey P passphrase ns version subId :=
  deriveKey_withArgon2id (h _ rfl)

/-! ## Calls -/

section Body

variable (K : KeyPrimitives)

/-- What the model has for a call. -/
abbrev Body : CliOp → Type
  | .encryptFile _ _ _ _ _ => FsProg Stop Unit
  | .decryptFile _ _ _ _ => FsProg Stop Unit
  | .keygen _ _ => Keygen.KeyProg Unit
  | .derive _ _ _ => Keygen.KeyProg Unit
  | .identityDerive _ _ => Except Stop Crydna.Identity
  | .runSsh _ _ => Ssh.AgentProg Unit
  | .readFile _ | .promptPassword _ | .verifyContentSignature _ _ _ | .runBench => Unit

/-- The functions that are called. On Unix, for `ssh`. -/
def body (P : Primitives) (fuel : ℕ) (draw sshDraw : K.Draw) (ioText : IoError → String) :
    (o : CliOp) → Body o
  | .encryptFile plain cipher passphrase algorithm force =>
    encryptFile P fuel plain cipher passphrase algorithm force
  | .decryptFile plain cipher passphrase force => decryptFile P fuel plain cipher passphrase force
  | .keygen args opensshPassphrase => Keygen.keygen K draw sshDraw args opensshPassphrase
  | .derive args passphrase opensshPassphrase =>
    Keygen.derive P K sshDraw args passphrase opensshPassphrase
  | .identityDerive passphrase context =>
    Crydna.Identity.derive P passphrase context.ns context.version context.subId
  | .runSsh args passphrase => Ssh.runSsh P K (Ssh.runSshUnix ioText) args passphrase
  | .readFile _ | .promptPassword _ | .verifyContentSignature _ _ _ | .runBench => ()

variable {K} {fuel : ℕ} {draw sshDraw : K.Draw} {ioText : IoError → String}

/-- `derive` makes the one derivation of its algorithm. -/
theorem derive_withArgon2id {args : Keygen.DeriveArgs} {passphrase : Bytes}
    {opensshPassphrase : Option Bytes}
    (h : ∀ d ∈ (CliOp.derive args passphrase opensshPassphrase).derivations, d.Agrees P f) :
    Keygen.derive (P.withArgon2id f) K sshDraw args passphrase opensshPassphrase =
      Keygen.derive P K sshDraw args passphrase opensshPassphrase := by
  rw [Keygen.derive, Keygen.derive]
  -- one derivation for each algorithm, and none for RSA
  cases halgo : args.algo with
  | ed25519 =>
    have hlisted : (.identity passphrase ⟨args.ns, args.keyVersion, args.subId⟩ : Derivation) ∈
        (CliOp.derive args passphrase opensshPassphrase).derivations := by
      simp [CliOp.derivations, halgo]
    simp only [identity_of_agrees (h _ hlisted)]
  | aes256Gcm =>
    have hlisted : (.aesKey passphrase ⟨args.ns, args.keyVersion, args.subId⟩ : Derivation) ∈
        (CliOp.derive args passphrase opensshPassphrase).derivations := by
      simp [CliOp.derivations, halgo]
    simp only [aesKey_of_agrees (h _ hlisted)]
  | rsa => rfl

/-- A call does not change when Argon2id is replaced by a function that agrees with it at the
derivations of the call. -/
theorem body_withArgon2id {o : CliOp} (h : ∀ d ∈ o.derivations, d.Agrees P f) :
    body K (P.withArgon2id f) fuel draw sshDraw ioText o = body K P fuel draw sshDraw ioText o := by
  cases o with
  | encryptFile plain cipher passphrase algorithm force =>
    have hlisted := h (.deriveKey passphrase) (List.mem_singleton_self _)
    exact encryptFile_withArgon2id (fun salt => hlisted salt trivial) ..
  | decryptFile plain cipher passphrase force =>
    have hlisted := h (.deriveKey passphrase) (List.mem_singleton_self _)
    exact decryptFile_withArgon2id (fun salt => hlisted salt trivial) ..
  | derive args passphrase opensshPassphrase => exact derive_withArgon2id h
  | identityDerive passphrase context =>
    exact identity_of_agrees (h _ (List.mem_singleton_self _))
  | runSsh args passphrase =>
    simp only [body, Ssh.runSsh, identity_of_agrees (h _ (List.mem_singleton_self _))]
  | _ => rfl

end Body

end Cli

end Cry
