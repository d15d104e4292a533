import Cry.Effects.Scope
import Cry.Rust.Str
import Cry.Ssh.Session
import Mathlib.Logic.Function.Basic

/-!
# `ssh` with a temporary key file

On Windows the key is written, without a passphrase, to a file with a random name in the temporary
directory, and `ssh` reads it from there. The file is created empty, its permissions are restricted
by `icacls` to the user that `whoami` prints, and only then it is written. The destructor of
`TempKeyFile` overwrites and removes it. There is a `TempKeyFile` only when all of this has
succeeded.

A disk maps paths to contents and to the accounts that have access. Every call may fail, a write
after a part of it, and the inherited permissions are whatever the directory says.
-/

namespace Cry.Ssh

open Rust Effects
open Cli (SshArgs)

/-! ## Operations -/

/-- The operations on files and other programs. -/
inductive KeyFileOp
  /-- `OpenOptions::open` with `create_new`. -/
  | createNew (path : Bytes)
  /-- `OpenOptions::open` of an existing file. -/
  | openWrite (path : Bytes)
  /-- `write_all` into a file that has just been opened. -/
  | writeAll (path : Bytes) (bytes : Bytes)
  /-- `File::flush`. -/
  | flush (path : Bytes)
  /-- `File::sync_all`. -/
  | syncAll (path : Bytes)
  /-- The length of a file, from `std::fs::metadata`. -/
  | metadata (path : Bytes)
  /-- `std::fs::remove_file`. -/
  | removeFile (path : Bytes)
  /-- `Command::output`. -/
  | output (cmd : Rust.Command)
  /-- `Command::status`. -/
  | status (cmd : Rust.Command)

/-- The answers to the operations. -/
abbrev KeyFileRes : KeyFileOp → Type
  | .createNew _ => Except IoError Unit
  | .openWrite _ => Except IoError Unit
  | .writeAll _ _ => Except IoError Unit
  | .flush _ => Except IoError Unit
  | .syncAll _ => Except IoError Unit
  | .metadata _ => Except IoError ℕ
  | .removeFile _ => Except IoError Unit
  | .output _ => Except IoError Output
  | .status _ => Except IoError Bool

/-- Programs over these operations. -/
abbrev KeyFileProg (α : Type) := Prog KeyFileOp KeyFileRes Stop α

/-! ## The session -/

/-- The user for `icacls`, from the answer to `whoami`. -/
def accountOf (answer : Except IoError Output) : String :=
  let text := answer.toOption.bind fun out => fromUtf8 out.stdout
  let name := text.map fun s => String.ofList (Str.trim s.toList)
  (name.filter (· ≠ "")).getD "BUILTIN\\Users"

/-- The current user. -/
def whoamiWindows : KeyFileProg String := do
  let answer ← Prog.perform (.output { program := "whoami" })
  pure (accountOf answer)

/-- The call of `icacls`. A path that is not text becomes the empty text. -/
def icaclsCommand (path : Bytes) (username : String) : Rust.Command where
  program := "icacls"
  args := [utf8 ((fromUtf8 path).getD ""), utf8 "/inheritance:r", utf8 "/grant:r",
    utf8 (username ++ ":F")]

/-- The path of the key file in a directory, which is given with its last separator. -/
def keyFilePath (tempDir : Bytes) (rngBytes : U8Array 8) : Bytes :=
  tempDir ++ (utf8 "cry_" ++ (hexEncode rngBytes.val ++ utf8 ".pem"))

/-- A key file that has been written. -/
structure TempKeyFile where
  path : Bytes

namespace TempKeyFile

/-- Write the key into the file, whose permissions have been restricted. -/
def writeKey (path keyPem : Bytes) : KeyFileProg TempKeyFile := do
  Prog.ofExcept (ofIo (← Prog.perform (.openWrite path)))
  Prog.ofExcept (ofIo (← Prog.perform (.writeAll path keyPem)))
  Prog.ofExcept (ofIo (← Prog.perform (.flush path)))
  pure { path }

/-- Remove the empty file and give up. -/
def refuse (path : Bytes) : KeyFileProg TempKeyFile := do
  let _ ← Prog.perform (.removeFile path)
  Prog.throw (.err (.invalidFormat ("Failed to restrict temp key file permissions with icacls; " ++
    "refusing to write key material to an unsecured file.")))

/-- Restrict the permissions of the empty file, and write the key into it. -/
def secure (path keyPem : Bytes) : KeyFileProg TempKeyFile := do
  let username ← whoamiWindows
  let status ← Prog.perform (.status (icaclsCommand path username))
  if !((Except.toOption status).getD false) then refuse path else writeKey path keyPem

/-- Create the file, restrict its permissions, and write the key. -/
def create (tempDir : Bytes) (rngBytes : U8Array 8) (keyPem : Bytes) : KeyFileProg TempKeyFile := do
  let path := keyFilePath tempDir rngBytes
  Prog.ofExcept (ofIo (← Prog.perform (.createNew path)))
  secure path keyPem

/-- Overwrite the file with zeros, as far as this is possible. -/
def wipe (file : TempKeyFile) : Prog KeyFileOp KeyFileRes Empty Unit := do
  let metadata ← Prog.perform (.metadata file.path)
  match Except.toOption metadata with
  | none => pure ()
  | some len => do
    let opened ← Prog.perform (.openWrite file.path)
    match Except.toOption opened with
    | none => pure ()
    | some _ => do
      let _ ← Prog.perform (.writeAll file.path (List.replicate len 0))
      let _ ← Prog.perform (.syncAll file.path)
      pure ()

/-- The destructor. -/
def drop (file : TempKeyFile) : Prog KeyFileOp KeyFileRes Empty Unit := do
  file.wipe
  let _ ← Prog.perform (.removeFile file.path)
  pure ()

/-- The call of `ssh`. -/
def sshCommand (file : TempKeyFile) (args : SshArgs) : Rust.Command :=
  let ssh := (({ program := "ssh" } : Rust.Command).arg (utf8 "-i")).arg file.path
  let ssh := (ssh.arg (utf8 "-o")).arg (utf8 "IdentitiesOnly=yes")
  let ssh := (ssh.arg (utf8 "-o")).arg (utf8 "PubkeyAuthentication=yes")
  let ssh := (ssh.arg (utf8 "-o")).arg (utf8 "PreferredAuthentications=publickey")
  let ssh := (ssh.arg (utf8 "-o")).arg (utf8 "IdentityAgent=none")
  appendCommonSshArgs ssh args

/-- What happens while the key file is in scope. The exit status of `ssh` is only printed. -/
def use (ioText : IoError → String) (args : SshArgs) (file : TempKeyFile) : KeyFileProg Unit := do
  let _ ← orFormat (fun e => "Failed to exec ssh: " ++ ioText e)
    (← Prog.perform (.status (file.sshCommand args)))
  pure ()

/-- The scope of a key file. -/
def scope (ioText : IoError → String) (args : SshArgs) (file : TempKeyFile) : KeyFileProg Unit :=
  (file.use ioText args).thenDrop file.drop

end TempKeyFile

/-- The session. -/
def runSshWindows (ioText : IoError → String) (tempDir : Bytes) (rngBytes : U8Array 8)
    (args : SshArgs) (keyPem : Bytes) : KeyFileProg Unit := do
  let file ← TempKeyFile.create tempDir rngBytes keyPem
  file.scope ioText args

/-! ## The disk -/

/-- A file, with the accounts that have access to it. -/
structure DiskFile where
  content : Bytes
  acl : List Bytes
  deriving DecidableEq

/-- Write from the start of a file. -/
def DiskFile.overwrite (bytes : Bytes) (file : DiskFile) : DiskFile :=
  { file with content := bytes ++ file.content.drop bytes.length }

/-- The files, by path. -/
abbrev Disk := Bytes → Option DiskFile

/-- How a call turns out, as far as the system and the called program decide it. -/
structure Outcome where
  /-- The call fails, or the program cannot be run. -/
  error : Option IoError := none
  /-- For a write that fails: how many bytes were written. -/
  written : ℕ := 0
  /-- What a program leaves. -/
  output : Output := { success := true }
  /-- The accounts that have access to a file after it was created, or after `icacls` failed. -/
  acl : List Bytes := []

namespace Disk

/-- Change a file, if it exists. -/
def alter (path : Bytes) (f : DiskFile → DiskFile) (disk : Disk) : Disk :=
  Function.update disk path ((disk path).map f)

@[simp] theorem alter_self (path : Bytes) (f : DiskFile → DiskFile) (disk : Disk) :
    disk.alter path f path = (disk path).map f :=
  Function.update_self ..

theorem alter_of_ne {p path : Bytes} (h : p ≠ path) (f : DiskFile → DiskFile) (disk : Disk) :
    disk.alter path f p = disk p :=
  Function.update_of_ne h ..

/-- A call that does nothing but succeed or fail. -/
def plain {α : Type} (outcome : Outcome) (a : α) : Except IoError α :=
  outcome.error.elim (.ok a) .error

/-- Find a file, unless the call fails before. -/
def find (outcome : Outcome) (disk : Disk) (path : Bytes) : Except IoError DiskFile :=
  match outcome.error, disk path with
  | some e, _ => .error e
  | none, none => .error .notFound
  | none, some file => .ok file

/-- The account in an argument `account:F`. -/
def grantee (grant : Bytes) : Bytes := grant.take (grant.length - 2)

/-- What a program that has run has done to the files, and whether it reports success. A successful
`icacls` leaves exactly the account that is named to it, and it does not succeed on a file that does
not exist. -/
def effect (cmd : Rust.Command) (outcome : Outcome) (disk : Disk) : Bool × Disk :=
  if cmd.program = "icacls" then
    match cmd.args with
    | [file, _, _, grant] =>
      if outcome.output.success ∧ file ≠ [] ∧ disk file ≠ none then
        (true, disk.alter file fun f => { f with acl := [grantee grant] })
      else (false, disk.alter file fun f => { f with acl := outcome.acl })
    | _ => (false, disk)
  else (outcome.output.success, disk)

/-- The error of a path that is taken. -/
def alreadyExists : IoError := .other 17

/-- One operation. -/
def step : (o : KeyFileOp) → Outcome → Disk → KeyFileRes o × Disk
  | .createNew path, outcome, disk =>
    match outcome.error, disk path with
    | some e, _ => (.error e, disk)
    | none, some _ => (.error alreadyExists, disk)
    | none, none => (.ok (), Function.update disk path (some ⟨[], outcome.acl⟩))
  | .openWrite path, outcome, disk => ((find outcome disk path).map fun _ => (), disk)
  | .writeAll path bytes, outcome, disk =>
    match outcome.error with
    | some e => (.error e, disk.alter path (.overwrite (bytes.take outcome.written)))
    | none => (.ok (), disk.alter path (.overwrite bytes))
  | .flush _, outcome, disk => (plain outcome (), disk)
  | .syncAll _, outcome, disk => (plain outcome (), disk)
  | .metadata path, outcome, disk => ((find outcome disk path).map (·.content.length), disk)
  | .removeFile path, outcome, disk =>
    match find outcome disk path with
    | .error e => (.error e, disk)
    | .ok _ => (.ok (), Function.update disk path none)
  | .output cmd, outcome, disk =>
    if cmd.sawNul then (.error Rust.Command.nulError, disk)
    else (plain outcome outcome.output, disk)
  | .status cmd, outcome, disk =>
    if cmd.sawNul then (.error Rust.Command.nulError, disk)
    else
      match outcome.error with
      | some e => (.error e, disk)
      | none => (.ok (effect cmd outcome disk).1, (effect cmd outcome disk).2)

end Disk

/-! ## Single operations -/

/-- The answer to `whoami`. -/
def whoamiAnswer (whoami : Outcome) : Except IoError Output := Disk.plain whoami whoami.output

namespace Disk

theorem step_openWrite {path : Bytes} {disk : Disk} {file : DiskFile}
    (hfile : disk path = some file) (outcome : Outcome) :
    step (.openWrite path) outcome disk = (outcome.error.elim (.ok ()) .error, disk) := by
  rw [step, find, hfile]
  cases outcome.error <;> rfl

theorem step_writeAll (path bytes : Bytes) (outcome : Outcome) (disk : Disk) :
    step (.writeAll path bytes) outcome disk =
      (outcome.error.elim (.ok ()) .error,
        disk.alter path
          (.overwrite (outcome.error.elim bytes fun _ => bytes.take outcome.written))) := by
  rw [step]
  cases outcome.error <;> rfl

theorem step_flush (path : Bytes) (outcome : Outcome) (disk : Disk) :
    step (.flush path) outcome disk = (outcome.error.elim (.ok ()) .error, disk) := rfl

theorem step_whoami (whoami : Outcome) (disk : Disk) :
    step (.output { program := "whoami" }) whoami disk = (whoamiAnswer whoami, disk) := rfl

/-- The disk after an attempt to remove a file. -/
theorem removeFile_disk (path : Bytes) (outcome : Outcome) (disk : Disk) :
    (step (.removeFile path) outcome disk).2 =
      if outcome.error = none then Function.update disk path none else disk := by
  rw [step, find]
  cases outcome.error with
  | some e => rfl
  | none =>
    cases hfile : disk path with
    | some file => rfl
    | none =>
      -- there is nothing to remove
      show disk = Function.update disk path none
      rw [← hfile, Function.update_eq_self]

end Disk

/-! ## The call of `icacls` -/

/-- The text of a path is its bytes. -/
theorem utf8_of_fromUtf8 {bytes : Bytes} {s : String} (h : fromUtf8 bytes = some s) :
    utf8 s = bytes := by
  rw [fromUtf8, String.fromUTF8?] at h
  split at h
  · rw [← Option.some.inj h]
    rfl
  · cases h

/-- `icacls` can be run on the file: the path is text, and there is no zero byte in the
arguments. -/
def Lockable (path : Bytes) (username : String) : Prop :=
  (fromUtf8 path).isSome ∧ (icaclsCommand path username).sawNul = false

/-- By the outcomes of `whoami` and `icacls`, the permissions of the file are restricted. -/
def Locks (path : Bytes) (whoami icacls : Outcome) : Prop :=
  Lockable path (accountOf (whoamiAnswer whoami)) ∧ icacls.error = none ∧
    icacls.output.success = true

namespace Disk

theorem grantee_append (username : String) : grantee (utf8 (username ++ ":F")) = utf8 username := by
  have hgrant : utf8 (username ++ ":F") = utf8 username ++ utf8 ":F" := by simp [utf8]
  rw [grantee, hgrant, List.length_append]
  exact List.take_left' rfl

/-- The file belongs to the account that was named. -/
theorem step_icacls_of_lockable {path : Bytes} {username : String} {disk : Disk} {file : DiskFile}
    (icacls : Outcome) (h : Lockable path username) (herror : icacls.error = none)
    (hsuccess : icacls.output.success = true) (hpath : path ≠ []) (hfile : disk path = some file) :
    step (.status (icaclsCommand path username)) icacls disk =
      (.ok true, disk.alter path fun f => { f with acl := [utf8 username] }) := by
  obtain ⟨htext, hnul⟩ := h
  obtain ⟨s, hs⟩ := Option.isSome_iff_exists.mp htext
  have hname : utf8 ((fromUtf8 path).getD "") = path := by rw [hs, Option.getD_some,
    utf8_of_fromUtf8 hs]
  have heffect : effect (icaclsCommand path username) icacls disk =
      (true, disk.alter path fun f => { f with acl := [utf8 username] }) := by
    simp [effect, icaclsCommand, hname, hsuccess, hpath, hfile, grantee_append]
  rw [step, hnul, if_neg Bool.false_ne_true, herror, heffect]

/-- Without that, `icacls` does not report success. -/
theorem step_icacls_of_not_locks {path : Bytes} {username : String} {icacls : Outcome} (disk : Disk)
    (h : ¬(Lockable path username ∧ icacls.error = none ∧ icacls.output.success = true)) :
    (Except.toOption (step (.status (icaclsCommand path username)) icacls disk).1).getD false =
      false := by
  rw [step]
  cases hnul : (icaclsCommand path username).sawNul with
  | true => rfl
  | false =>
    cases herror : icacls.error with
    | some e => rfl
    | none =>
      rw [if_neg Bool.false_ne_true]
      show (effect (icaclsCommand path username) icacls disk).1 = false
      by_cases hsuccess : icacls.output.success = true
      · -- the path is not text, and the empty path names no file
        have htext : fromUtf8 path = none := by
          by_contra hne
          exact h ⟨⟨Option.isSome_iff_ne_none.mpr hne, hnul⟩, herror, hsuccess⟩
        have hempty : utf8 "" = [] := rfl
        simp [effect, icaclsCommand, htext, hempty]
      · simp [effect, icaclsCommand, hsuccess]

/-- No program writes into a file. -/
theorem content_status (cmd : Rust.Command) (outcome : Outcome) (disk : Disk) (path : Bytes) :
    ((step (.status cmd) outcome disk).2 path).map DiskFile.content =
      (disk path).map DiskFile.content := by
  -- `icacls` changes who has access, and nothing else
  have halter : ∀ (file : Bytes) (acl : List Bytes),
      (disk.alter file (fun f => { f with acl := acl }) path).map DiskFile.content =
        (disk path).map DiskFile.content := by
    intro file acl
    by_cases hp : path = file
    · subst hp
      rw [alter_self, Option.map_map]
      rfl
    · rw [alter_of_ne hp]
  rw [step]
  split
  · rfl
  · cases outcome.error with
    | some e => rfl
    | none =>
      show ((effect cmd outcome disk).2 path).map DiskFile.content = _
      unfold effect
      split
      · split
        · split
          · exact halter _ _
          · exact halter _ _
        · rfl
      · rfl

end Disk

theorem keyFilePath_ne_nil (tempDir : Bytes) (rngBytes : U8Array 8) :
    keyFilePath tempDir rngBytes ≠ [] := by
  intro h
  have hname := (List.append_eq_nil_iff.mp (List.append_eq_nil_iff.mp h).2).1
  exact absurd hname (by decide)

end Cry.Ssh
