import Cry.Cli.Main
import Cry.Rust.Command

/-!
# The parts of `ssh` that all platforms share

The key of the session, and the arguments of `ssh` that come from the command line.
-/

namespace Cry.Ssh

open Rust Effects
open Cli (SshArgs)

/-- Map an I/O error to `CryError::InvalidFormat` with the text. -/
def orFormat {Op : Type} {Res : Op → Type} {α : Type} (text : IoError → String) :
    Except IoError α → Prog Op Res Stop α
  | .ok a => .pure a
  | .error e => .throw (.err (.invalidFormat (text e)))

/-- Append the port, the extra arguments and the target. -/
def appendCommonSshArgs (ssh : Rust.Command) (args : SshArgs) : Rust.Command :=
  let ssh := match args.port with
    | some port => (ssh.arg (utf8 "-p")).arg (utf8 (toString port.toNat))
    | none => ssh
  (args.sshArgs.foldl (fun cmd extra => cmd.arg (utf8 extra)) ssh).arg (utf8 args.target)

theorem appendCommonSshArgs_program (ssh : Rust.Command) (args : SshArgs) :
    (appendCommonSshArgs ssh args).program = ssh.program := by
  have hfold : ∀ (extra : List String) (cmd : Rust.Command),
      (extra.foldl (fun cmd a => cmd.arg (utf8 a)) cmd).program = cmd.program := by
    intro extra
    induction extra with
    | nil => exact fun _ => rfl
    | cons a extra ih => exact fun cmd => ih (cmd.arg (utf8 a))
  rw [appendCommonSshArgs, Rust.Command.arg, hfold]
  cases args.port <;> rfl

section Run

variable (P : Primitives) (K : KeyPrimitives)

/-- The identity as an OpenSSH private key without a passphrase. -/
def encodeOpensshPrivateKey (identity : Crydna.Identity) (comment : String) :
    Except Stop Bytes := do
  let keypair ← invalidFormat "OpenSSH key build failed: "
    (K.keypairFromBytes (identity.signingKey.val ++ (K.verifyingKey identity.signingKey).val))
  let key ← invalidFormat "OpenSSH key build failed: " (K.privateKeyNew keypair comment)
  invalidFormat "OpenSSH key encode failed: " (K.toOpenssh key)

variable {Op : Type} {Res : Op → Type}

/-- Derive the identity, encode it, and leave the rest to the platform. -/
def runSsh (platform : SshArgs → Bytes → Prog Op Res Stop Unit) (args : SshArgs)
    (passphrase : Bytes) : Prog Op Res Stop Unit := do
  let identity ← Prog.ofExcept
    (Crydna.Identity.derive P passphrase args.ns args.keyVersion args.subId)
  let keyPem ← Prog.ofExcept (encodeOpensshPrivateKey K identity ("CryDNA:" ++ args.ns))
  platform args keyPem

end Run

end Cry.Ssh
