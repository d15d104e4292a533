import Cry.Ssh.KeyFile

/-!
# The key file is private

Before the key is written, `icacls` gives the file to the account that `whoami_windows` returns.
This is the current user when the output of `whoami` says so, and a group of all users when `whoami`
cannot be run or its output cannot be read.

## Main results

* `private_iff`: in every state of every run in which `whoami` turns out in a given way, nobody but
  the current user has access to a file with bytes of the key, exactly when `whoami` has printed the
  current user or the key cannot get into the file at all.
-/

namespace Cry.Ssh

open Rust Effects
open Cli (SshArgs)

/-- The current user, who is not a group of users. -/
structure User where
  /-- The name, as `whoami` prints it. -/
  name : String
  ne_empty : name ≠ ""
  ne_users : name ≠ "BUILTIN\\Users"

/-- `whoami` runs and prints the name of the user. -/
def User.NamedBy (me : User) (whoami : Outcome) : Prop :=
  whoami.error = none ∧ ∃ text, fromUtf8 whoami.output.stdout = some text ∧
    String.ofList (Str.trim text.toList) = me.name

theorem accountOf_eq_iff (me : User) (whoami : Outcome) :
    accountOf (whoamiAnswer whoami) = me.name ↔ me.NamedBy whoami := by
  unfold accountOf whoamiAnswer Disk.plain User.NamedBy
  -- every branch that falls back names the group, which is not the user
  cases herror : whoami.error with
  | some e => simp [Except.toOption, me.ne_users.symm]
  | none =>
    cases htext : fromUtf8 whoami.output.stdout with
    | none => simp [Except.toOption, htext, me.ne_users.symm]
    | some text =>
      by_cases hempty : String.ofList (Str.trim text.toList) = ""
      · simp [Except.toOption, htext, hempty, Option.filter_some, me.ne_users.symm, me.ne_empty]
      · simp [Except.toOption, htext, hempty, Option.filter_some]

/-- If the file contains a byte of the key, only the user has access to it. -/
def Private (me : User) (keyPem path : Bytes) (disk : Disk) : Prop :=
  ∀ file, disk path = some file → (∃ b ∈ file.content, b ∈ keyPem) →
    ∀ account ∈ file.acl, account = utf8 me.name

/-- The file is empty. -/
def Blank (path : Bytes) (disk : Disk) : Prop :=
  ∀ file, disk path = some file → file.content = []

/-- Only the account has access to the file. -/
def Locked (account : String) (path : Bytes) (disk : Disk) : Prop :=
  ∀ file, disk path = some file → ∀ a ∈ file.acl, a = utf8 account

theorem Blank.private {path : Bytes} {disk : Disk} (h : Blank path disk) (me : User)
    (keyPem : Bytes) : Private me keyPem path disk := by
  rintro file hfile ⟨b, hb, -⟩
  rw [h file hfile] at hb
  cases hb

theorem Locked.private {me : User} {path : Bytes} {disk : Disk} (h : Locked me.name path disk)
    (keyPem : Bytes) : Private me keyPem path disk :=
  fun file hfile _ => h file hfile

theorem private_of_fresh {me : User} {keyPem path : Bytes} {disk : Disk} (h : disk path = none) :
    Private me keyPem path disk := by
  intro file hfile
  rw [h] at hfile
  cases hfile

/-- The operation leaves the permissions as they are. -/
def KeepsAcl : KeyFileOp → Prop
  | .createNew _ => False
  | .status cmd => cmd.program ≠ "icacls"
  | _ => True

/-- Whoever has access to a file afterwards had it before. -/
theorem acl_of_keepsAcl {o : KeyFileOp} (h : KeepsAcl o) {outcome : Outcome} {disk : Disk}
    {path : Bytes} {file : DiskFile} (hfile : (Disk.step o outcome disk).2 path = some file) :
    ∃ file', disk path = some file' ∧ file.acl = file'.acl := by
  cases o with
  | createNew p => exact h.elim
  | writeAll p bytes =>
    simp only [Disk.step_writeAll] at hfile
    by_cases hp : path = p
    · subst hp
      rw [Disk.alter_self, Option.map_eq_some_iff] at hfile
      obtain ⟨file', hfile', rfl⟩ := hfile
      exact ⟨file', hfile', rfl⟩
    · rw [Disk.alter_of_ne hp] at hfile
      exact ⟨file, hfile, rfl⟩
  | removeFile p =>
    rw [Disk.removeFile_disk] at hfile
    split at hfile
    · by_cases hp : path = p
      · subst hp
        rw [Function.update_self] at hfile
        cases hfile
      · rw [Function.update_of_ne hp] at hfile
        exact ⟨file, hfile, rfl⟩
    · exact ⟨file, hfile, rfl⟩
  | status cmd =>
    -- a program other than `icacls` leaves the disk alone
    have hsame : (Disk.step (.status cmd) outcome disk).2 = disk := by
      rw [Disk.step]
      split
      · rfl
      · cases outcome.error with
        | some e => rfl
        | none => exact congrArg Prod.snd (if_neg h)
    rw [hsame] at hfile
    exact ⟨file, hfile, rfl⟩
  | output cmd =>
    rw [Disk.step] at hfile
    split at hfile
    · exact ⟨file, hfile, rfl⟩
    · exact ⟨file, hfile, rfl⟩
  | openWrite p => exact ⟨file, hfile, rfl⟩
  | flush p => exact ⟨file, hfile, rfl⟩
  | syncAll p => exact ⟨file, hfile, rfl⟩
  | metadata p => exact ⟨file, hfile, rfl⟩

/-- From the writing of the key on, the permissions stay as they are. -/
theorem uses_writeKey (ioText : IoError → String) (args : SshArgs) (path keyPem : Bytes) :
    ((TempKeyFile.writeKey path keyPem).bind (TempKeyFile.scope ioText args)).Uses KeepsAcl := by
  have hio : ∀ x : Except IoError Unit, (Prog.ofExcept (ofIo x) : KeyFileProg Unit).Uses KeepsAcl :=
    fun x => Prog.uses_ofExcept _
  refine Prog.uses_bind ?_ fun file => Prog.Uses.thenDrop ?_ ?_
  · simp only [TempKeyFile.writeKey, Prog.bind_eq, Prog.perform_bind]
    exact ⟨trivial, fun r => Prog.uses_bind (hio r) fun _ => ⟨trivial, fun r =>
      Prog.uses_bind (hio r) fun _ => ⟨trivial, fun r => Prog.uses_bind (hio r) fun _ => trivial⟩⟩⟩
  · simp only [TempKeyFile.use, Prog.bind_eq, Prog.perform_bind]
    refine ⟨?_, fun r => Prog.uses_bind ?_ fun _ => trivial⟩
    · show (appendCommonSshArgs _ args).program ≠ "icacls"
      rw [appendCommonSshArgs_program]
      show "ssh" ≠ "icacls"
      decide
    · cases r <;> trivial
  · -- the destructor overwrites and removes the file
    simp only [TempKeyFile.drop, TempKeyFile.wipe, Prog.bind_eq, Prog.perform_bind]
    refine ⟨trivial, fun metadata => Prog.uses_bind ?_ fun _ => ⟨trivial, fun _ => trivial⟩⟩
    beta_reduce
    cases Except.toOption metadata with
    | none => trivial
    | some len =>
      refine ⟨trivial, fun opened => ?_⟩
      beta_reduce
      cases Except.toOption opened with
      | none => trivial
      | some _ => exact ⟨trivial, fun _ => ⟨trivial, fun _ => trivial⟩⟩

/-- In every run, `whoami` turns out this way. -/
def Answers (whoami : Outcome) : KeyFileOp → Outcome → Disk → Prop
  | .output _, outcome, _ => outcome = whoami
  | _, _, _ => True

section Run

variable {ioText : IoError → String} {tempDir : Bytes} {rngBytes : U8Array 8} {args : SshArgs}
variable {me : User} {keyPem path : Bytes} {whoami : Outcome}

/-- Once only the user has access to the file, the key is private. -/
theorem keeps_writeKey {disk : Disk} (h : Locked me.name path disk) :
    ((TempKeyFile.writeKey path keyPem).bind (TempKeyFile.scope ioText args)).Satisfies Disk.step
      (.keeping (Answers whoami) (Private me keyPem path)) (fun _ _ => True) disk := by
  have hkept : ((TempKeyFile.writeKey path keyPem).bind (TempKeyFile.scope ioText args)).Satisfies
      Disk.step (.keeping (Answers whoami) (Private me keyPem path))
      (fun _ => Locked me.name path) disk := by
    refine Prog.Satisfies.of_invariant (uses_writeKey ioText args path keyPem) ?_ ?_ h
    · rintro s _ hs rfl
      exact hs
    · intro o c d ho hd _
      -- access is only lost from here on
      have hnext : Locked me.name path (Disk.step o c d).2 := by
        intro file hfile
        obtain ⟨file', hfile', hacl⟩ := acl_of_keepsAcl ho hfile
        rw [hacl]
        exact hd file' hfile'
      exact ⟨fun _ => hnext.private keyPem, hnext⟩
  exact hkept.mono fun _ _ _ => trivial

/-- While the file is empty, there is nothing to protect. -/
theorem keeps_refuse {disk : Disk} (h : Blank path disk) (f : TempKeyFile → KeyFileProg Unit) :
    ((TempKeyFile.refuse path).bind f).Satisfies Disk.step
      (.keeping (Answers whoami) (Private me keyPem path)) (fun _ _ => True) disk := by
  rintro _ rfl c -
  refine ⟨fun _ => Blank.private ?_ me keyPem, fun _ _ => trivial⟩
  intro file hfile
  rw [Disk.removeFile_disk] at hfile
  split at hfile
  · rw [Function.update_self] at hfile
    cases hfile
  · exact h file hfile

/-- When `icacls` names the user or does not succeed, the key is private from the creation of the
file on. -/
theorem keeps_secure {disk : Disk} {file : DiskFile} (hfile : disk path = some file)
    (hempty : file.content = []) (hpath : path ≠ [])
    (h : Lockable path (accountOf (whoamiAnswer whoami)) → me.NamedBy whoami) :
    ((TempKeyFile.secure path keyPem).bind (TempKeyFile.scope ioText args)).Satisfies Disk.step
      (.keeping (Answers whoami) (Private me keyPem path)) (fun _ _ => True) disk := by
  have hblank : Blank path disk := by
    intro file' hfile'
    rw [hfile] at hfile'
    rw [← Option.some.inj hfile', hempty]
  simp only [TempKeyFile.secure, whoamiWindows, Prog.bind_eq, Prog.perform_bind, Prog.op_bind,
    Prog.pure_eq, Prog.pure_bind]
  rintro _ rfl w (rfl : w = whoami)
  refine ⟨id, ?_⟩
  simp only [Disk.step_whoami]
  rintro _ rfl icacls -
  by_cases hlocks : Locks path w icacls
  · obtain ⟨hlockable, herror, hsuccess⟩ := hlocks
    rw [Disk.step_icacls_of_lockable icacls hlockable herror hsuccess hpath hfile]
    -- the file belongs to the user before anything is written into it
    have hlocked : Locked me.name path (disk.alter path fun f =>
        { f with acl := [utf8 (accountOf (whoamiAnswer w))] }) := by
      intro file' hfile'
      rw [Disk.alter_self, hfile] at hfile'
      rw [← Option.some.inj hfile', (accountOf_eq_iff me w).mpr (h hlockable)]
      simp
    exact ⟨fun _ => hlocked.private keyPem, keeps_writeKey hlocked⟩
  · have hrefused := Disk.step_icacls_of_not_locks disk hlocks
    -- the permissions may be anything now, but the file is empty and goes away
    have hstill : Blank path
        (Disk.step (.status (icaclsCommand path (accountOf (whoamiAnswer w)))) icacls disk).2 := by
      intro file' hfile'
      have hcontent := Disk.content_status (icaclsCommand path (accountOf (whoamiAnswer w))) icacls
        disk path
      rw [hfile', hfile] at hcontent
      rw [Option.some.inj hcontent, hempty]
    refine ⟨fun _ => hstill.private me keyPem, ?_⟩
    simp only [hrefused, Bool.not_false, if_true]
    exact keeps_refuse hstill _

/-- A session under a new name keeps the key private when `icacls` names the user or does not
succeed. -/
theorem keeps_runSshWindows {disk : Disk}
    (hfresh : disk (keyFilePath tempDir rngBytes) = none)
    (h : Lockable (keyFilePath tempDir rngBytes) (accountOf (whoamiAnswer whoami)) →
      me.NamedBy whoami) :
    (runSshWindows ioText tempDir rngBytes args keyPem).Satisfies Disk.step
      (.keeping (Answers whoami) (Private me keyPem (keyFilePath tempDir rngBytes)))
      (fun _ _ => True) disk := by
  have hpath := keyFilePath_ne_nil tempDir rngBytes
  rw [runSshWindows, TempKeyFile.create]
  simp only [Prog.bind_eq, Prog.perform_bind, Prog.op_bind, Prog.bind_assoc]
  generalize keyFilePath tempDir rngBytes = path at *
  rintro _ rfl createNew -
  -- the file is created, and empty, or the session ends here
  cases herror : createNew.error with
  | some e =>
    have hstep : Disk.step (.createNew path) createNew disk = (.error e, disk) := by
      simp [Disk.step, herror]
    rw [hstep]
    exact ⟨id, fun _ _ => trivial⟩
  | none =>
    have hstep : Disk.step (.createNew path) createNew disk =
        (.ok (), Function.update disk path (some ⟨[], createNew.acl⟩)) := by
      simp [Disk.step, herror, hfresh]
    rw [hstep]
    have hblank : Blank path (Function.update disk path (some ⟨[], createNew.acl⟩)) := by
      intro file hfile
      rw [Function.update_self] at hfile
      rw [← Option.some.inj hfile]
    refine ⟨fun _ => hblank.private me keyPem, ?_⟩
    exact keeps_secure (Function.update_self ..) rfl hpath h

/-- A run in which `whoami` turns out this way and everything else succeeds, up to the writing of
the key. -/
def writingOutcomes (whoami : Outcome) : List Outcome := [{}, whoami, {}, {}, {}]

/-- In that run, if `icacls` can be run, the key is written into a file of the account that was
named. -/
theorem drive_writingOutcomes (ioText : IoError → String) (args : SshArgs) (keyPem : Bytes)
    (hlockable : Lockable (keyFilePath tempDir rngBytes) (accountOf (whoamiAnswer whoami))) :
    (runSshWindows ioText tempDir rngBytes args keyPem).Meets Disk.step (Answers whoami)
        (writingOutcomes whoami) (fun _ => none) ∧
      (Prog.drive Disk.step (writingOutcomes whoami)
        (runSshWindows ioText tempDir rngBytes args keyPem, fun _ => none)).2
          (keyFilePath tempDir rngBytes) =
        some { content := keyPem, acl := [utf8 (accountOf (whoamiAnswer whoami))] } := by
  have hpath := keyFilePath_ne_nil tempDir rngBytes
  rw [runSshWindows, TempKeyFile.create, TempKeyFile.secure, whoamiWindows, TempKeyFile.writeKey]
  simp only [Prog.bind_eq, Prog.perform_bind, Prog.op_bind, Prog.bind_assoc, Prog.pure_eq,
    Prog.pure_bind]
  generalize keyFilePath tempDir rngBytes = path at *
  -- the file is created
  obtain ⟨created, hcreate, hcreated⟩ : ∃ created : Disk,
      Disk.step (.createNew path) {} (fun _ => none) = (.ok (), created) ∧
        created path = some ⟨[], []⟩ :=
    ⟨_, rfl, Function.update_self ..⟩
  -- its permissions are restricted
  obtain ⟨locked, hicacls, hlocked⟩ : ∃ locked : Disk,
      Disk.step (.status (icaclsCommand path (accountOf (whoamiAnswer whoami)))) {} created =
          (.ok true, locked) ∧
        locked path = some ⟨[], [utf8 (accountOf (whoamiAnswer whoami))]⟩ := by
    refine ⟨_, Disk.step_icacls_of_lockable {} hlockable rfl rfl hpath hcreated, ?_⟩
    rw [Disk.alter_self, hcreated]
    rfl
  -- the key is written
  have hopen : Disk.step (.openWrite path) {} locked = (.ok (), locked) :=
    Disk.step_openWrite hlocked {}
  have hwrite : Disk.step (.writeAll path keyPem) {} locked =
      (.ok (), locked.alter path (.overwrite keyPem)) :=
    Disk.step_writeAll path keyPem {} locked
  simp only [writingOutcomes, Prog.Meets, Prog.drive_cons, Prog.drive_nil, Prog.advance, hcreate,
    Disk.step_whoami, hicacls, hopen, hwrite, ofIo_ok, Prog.ofExcept_ok, Prog.pure_bind,
    Prog.op_bind, Except.toOption, Option.getD_some, Bool.not_true, Bool.false_eq_true, if_false]
  refine ⟨⟨trivial, rfl, trivial, trivial, trivial, trivial⟩, ?_⟩
  rw [Disk.alter_self, hlocked, Option.map_some, DiskFile.overwrite, List.drop_nil, List.append_nil]

/-- The key is private. In every state of every run under a new name in which `whoami` turns out
this way, only the current user has access to a file with bytes of the key, if and only if `whoami`
has printed the current user, or there is no key, or `icacls` cannot be run on the file. -/
theorem private_iff (me : User) (whoami : Outcome) :
    (∀ disk cs, disk (keyFilePath tempDir rngBytes) = none →
      (runSshWindows ioText tempDir rngBytes args keyPem).Meets Disk.step (Answers whoami) cs disk →
        Private me keyPem (keyFilePath tempDir rngBytes)
          (Prog.drive Disk.step cs (runSshWindows ioText tempDir rngBytes args keyPem, disk)).2) ↔
      me.NamedBy whoami ∨ keyPem = [] ∨
        ¬Lockable (keyFilePath tempDir rngBytes) (accountOf (whoamiAnswer whoami)) := by
  constructor
  · intro h
    by_contra hnot
    obtain ⟨hnamed, hkey, hlockable⟩ : ¬me.NamedBy whoami ∧ keyPem ≠ [] ∧
        Lockable (keyFilePath tempDir rngBytes) (accountOf (whoamiAnswer whoami)) := by
      simpa [not_or] using hnot
    -- a run in which all else succeeds writes the key into a file of another account
    obtain ⟨hmeets, hfile⟩ := drive_writingOutcomes ioText args keyPem hlockable
    obtain ⟨b, hb⟩ := List.exists_mem_of_ne_nil keyPem hkey
    have haccount := h _ _ rfl hmeets _ hfile ⟨b, hb, hb⟩ _ (List.mem_singleton_self _)
    exact hnamed ((accountOf_eq_iff me whoami).mp (utf8_injective haccount))
  · rintro (hnamed | hkey | hlockable) disk cs hfresh hmeets
    · exact (keeps_runSshWindows hfresh fun _ => hnamed).drive_keeping hmeets
        (private_of_fresh hfresh)
    · rintro file - ⟨b, -, hb⟩
      rw [hkey] at hb
      cases hb
    · exact (keeps_runSshWindows hfresh fun h => absurd h hlockable).drive_keeping hmeets
        (private_of_fresh hfresh)

end Run

/-- When `whoami` cannot be run, the key is written into a file of the group of all users. -/
theorem key_readable_by_all :
    ∃ (me : User) (cs : List Outcome) (tempDir : Bytes) (rngBytes : U8Array 8),
      (runSshWindows (fun _ => "") tempDir rngBytes { target := "host" } (utf8 "key")).Meets
          Disk.step (Answers { error := some .notFound }) cs (fun _ => none) ∧
        (Prog.drive Disk.step cs
          (runSshWindows (fun _ => "") tempDir rngBytes { target := "host" } (utf8 "key"),
            fun _ => none)).2 (keyFilePath tempDir rngBytes) =
          some { content := utf8 "key", acl := [utf8 "BUILTIN\\Users"] } ∧
        ¬Private me (utf8 "key") (keyFilePath tempDir rngBytes)
          (Prog.drive Disk.step cs
            (runSshWindows (fun _ => "") tempDir rngBytes { target := "host" } (utf8 "key"),
              fun _ => none)).2 := by
  let rngBytes : U8Array 8 := ⟨[0, 1, 2, 3, 4, 5, 6, 7], rfl⟩
  have hlockable : Lockable (keyFilePath (utf8 "T\\") rngBytes)
      (accountOf (whoamiAnswer { error := some .notFound })) := ⟨by decide, by decide⟩
  obtain ⟨hmeets, hfile⟩ :=
    drive_writingOutcomes (fun _ => "") { target := "host" } (utf8 "key") hlockable
  -- the user is `pc\me`, and the file names the group
  refine ⟨⟨"pc\\me", by decide, by decide⟩, _, utf8 "T\\", rngBytes, hmeets, hfile, fun h => ?_⟩
  have haccount := h _ hfile ⟨107, by decide, by decide⟩ _ (List.mem_singleton_self _)
  exact absurd haccount (by decide)

end Cry.Ssh
