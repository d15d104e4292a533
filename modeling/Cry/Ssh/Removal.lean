import Cry.Ssh.KeyFile

/-!
# The key file is removed

The destructor of `TempKeyFile` removes the file, and so does `create` when `icacls` fails. Between
these two, once `icacls` has succeeded and before there is a `TempKeyFile`, an error leaves the file
behind, with the part of the key that has been written.

## Main results

* `removed_iff`: when removing does not fail, there is no key file after the session exactly when
  there was none before and the session is not left in between.
-/

namespace Cry.Ssh

open Rust Effects
open Cli (SshArgs)

/-- Removing a file does not fail. -/
def Removes : KeyFileOp → Outcome → Disk → Prop
  | .removeFile _, outcome, _ => outcome.error = none
  | _, _, _ => True

instance Removes.decidable : ∀ o outcome disk, Decidable (Removes o outcome disk)
  | .removeFile _, outcome, _ => inferInstanceAs (Decidable (outcome.error = none))
  | .createNew _, _, _ | .openWrite _, _, _ | .writeAll _ _, _, _ | .flush _, _, _
  | .syncAll _, _, _ | .metadata _, _, _ | .output _, _, _ | .status _, _, _ => .isTrue trivial

theorem removeFile_self {path : Bytes} {outcome : Outcome} {disk : Disk}
    (h : Removes (.removeFile path) outcome disk) :
    (Disk.step (.removeFile path) outcome disk).2 path = none := by
  have herror : outcome.error = none := h
  rw [Disk.removeFile_disk, if_pos herror, Function.update_self]

/-- The destructor removes the file, whether or not it could be overwritten. -/
theorem removes_drop (file : TempKeyFile) (disk : Disk) :
    file.drop.Satisfies Disk.step (.alone Removes) (fun _ d => d file.path = none) disk := by
  have hwipe : file.wipe.Satisfies Disk.step (.alone Removes) (fun _ _ => True) disk :=
    Prog.satisfies_alone Removes _ _
  refine hwipe.bind (fun _ d _ => ?_) fun e => e.elim
  rintro _ rfl outcome houtcome
  refine ⟨trivial, ?_⟩
  rintro _ rfl
  exact removeFile_self houtcome

/-- A session whose key file is in scope removes it. -/
theorem removes_scope (ioText : IoError → String) (file : TempKeyFile) (args : SshArgs)
    (disk : Disk) :
    (file.scope ioText args).Satisfies Disk.step (.alone Removes) (fun _ d => d file.path = none)
      disk := by
  refine (Prog.satisfies_alone Removes (file.use ioText args) disk).thenDrop fun _ d _ => ?_
  exact (removes_drop file d).mono fun _ d' h u hu => (show d' = u from hu) ▸ h

/-- An empty file whose permissions could not be restricted is removed. -/
theorem removes_refuse (path : Bytes) (f : TempKeyFile → KeyFileProg Unit) (disk : Disk) :
    ((TempKeyFile.refuse path).bind f).Satisfies Disk.step (.alone Removes)
      (fun _ d => d path = none) disk := by
  rintro _ rfl outcome houtcome
  refine ⟨trivial, ?_⟩
  rintro _ rfl
  exact removeFile_self houtcome

/-- What is left of a run ends without the file exactly when none of the next `n` calls fails. -/
def RemovedUnless (n : ℕ) (path : Bytes) (x : KeyFileProg Unit) (disk : Disk) : Prop :=
  ∀ cs r, x.Meets Disk.step Removes cs disk →
    (Prog.drive Disk.step cs (x, disk)).1.returned = some r →
    ((Prog.drive Disk.step cs (x, disk)).2 path = none ↔
      ∀ outcome ∈ cs.take n, outcome.error = none)

/-- A call whose failure ends the run and leaves the file. -/
theorem RemovedUnless.op {n : ℕ} {path : Bytes} {o : KeyFileOp}
    {k : KeyFileRes o → KeyFileProg Unit} {disk : Disk}
    (hfail : ∀ c : Outcome, c.error ≠ none →
      (∃ e, k (Disk.step o c disk).1 = .throw e) ∧ (Disk.step o c disk).2 path ≠ none)
    (hok : ∀ c : Outcome, c.error = none →
      RemovedUnless n path (k (Disk.step o c disk).1) (Disk.step o c disk).2) :
    RemovedUnless (n + 1) path (.op o k) disk := by
  intro cs r hmeets hret
  obtain ⟨c, cs, rfl⟩ := Prog.exists_cons_of_returned hret
  rw [List.take_succ_cons, List.forall_mem_cons]
  -- by the outcome of this call: it goes on, or the run ends here
  by_cases herror : c.error = none
  · exact (hok c herror cs r hmeets.2 hret).trans (and_iff_right herror).symm
  · obtain ⟨⟨e, hthrow⟩, hleft⟩ := hfail c herror
    refine iff_of_false ?_ fun h => herror h.1
    rw [Prog.drive_cons]
    show ¬(Prog.drive Disk.step cs (k (Disk.step o c disk).1, (Disk.step o c disk).2)).2 path = none
    rw [hthrow, Prog.drive_throw]
    exact hleft

/-- From the opening of the locked file on, it is removed exactly when none of the three operations
fails by which the key gets into it. -/
theorem removedUnless_writeKey (ioText : IoError → String) (args : SshArgs) (keyPem : Bytes)
    {path : Bytes} {file : DiskFile} {disk : Disk} (hfile : disk path = some file) :
    RemovedUnless 3 path
      ((TempKeyFile.writeKey path keyPem).bind (TempKeyFile.scope ioText args)) disk := by
  simp only [TempKeyFile.writeKey, Prog.bind_eq, Prog.perform_bind, Prog.op_bind]
  have herror : ∀ {c : Outcome}, c.error ≠ none → ∃ e, c.error = some e :=
    Option.ne_none_iff_exists'.mp
  -- the file is opened
  refine .op (fun c hc => ?_) fun c hc => ?_
  · obtain ⟨e, he⟩ := herror hc
    rw [Disk.step_openWrite hfile, he]
    exact ⟨⟨.err (.io e), rfl⟩, by simp [hfile]⟩
  rw [Disk.step_openWrite hfile, hc]
  -- the key is written, or a part of it
  refine .op (fun c hc => ?_) fun c hc => ?_
  · obtain ⟨e, he⟩ := herror hc
    rw [Disk.step_writeAll, he]
    exact ⟨⟨.err (.io e), rfl⟩, by simp [hfile]⟩
  rw [Disk.step_writeAll, hc]
  -- the file is flushed
  refine .op (fun c hc => ?_) fun c hc => ?_
  · obtain ⟨e, he⟩ := herror hc
    rw [Disk.step_flush, he]
    exact ⟨⟨.err (.io e), rfl⟩, by simp [hfile]⟩
  rw [Disk.step_flush, hc]
  -- there is a destructor from here on
  intro cs r hmeets hret
  refine iff_of_true ?_ (by simp)
  exact (removes_scope ioText { path } args _).drive_returned hmeets hret

/-- By the outcomes of `whoami`, of `icacls` and of the operations after it, a run is left by an
error after the permissions of the file have been restricted and before there is a `TempKeyFile`: of
the three operations that follow, which open the file, write it and flush it, one fails. -/
def Strands (path : Bytes) (cs : List Outcome) : Prop :=
  ∃ whoami icacls later, cs = whoami :: icacls :: later ∧ Locks path whoami icacls ∧
    ∃ outcome ∈ later.take 3, outcome.error ≠ none

theorem strands_cons {path : Bytes} {whoami icacls : Outcome} {later : List Outcome} :
    Strands path (whoami :: icacls :: later) ↔
      Locks path whoami icacls ∧ ∃ outcome ∈ later.take 3, outcome.error ≠ none := by
  constructor
  · rintro ⟨_, _, _, heq, h⟩
    simp only [List.cons.injEq] at heq
    obtain ⟨rfl, rfl, rfl⟩ := heq
    exact h
  · exact fun h => ⟨whoami, icacls, later, rfl, h⟩

section Run

variable {ioText : IoError → String} {tempDir : Bytes} {rngBytes : U8Array 8} {args : SshArgs}
variable {keyPem path : Bytes} {disk : Disk} {cs : List Outcome} {r : Except Stop Unit}

/-- From the creation of the file on, it is removed unless the run is left in between. -/
theorem removed_secure_iff {file : DiskFile} (hfile : disk path = some file) (hpath : path ≠ [])
    (hmeets : ((TempKeyFile.secure path keyPem).bind (TempKeyFile.scope ioText args)).Meets
      Disk.step Removes cs disk)
    (hret : (Prog.drive Disk.step cs ((TempKeyFile.secure path keyPem).bind
      (TempKeyFile.scope ioText args), disk)).1.returned = some r) :
    (Prog.drive Disk.step cs ((TempKeyFile.secure path keyPem).bind
      (TempKeyFile.scope ioText args), disk)).2 path = none ↔ ¬Strands path cs := by
  simp only [TempKeyFile.secure, whoamiWindows, Prog.bind_eq, Prog.perform_bind, Prog.op_bind,
    Prog.pure_eq, Prog.pure_bind] at hmeets hret ⊢
  obtain ⟨whoami, cs, rfl⟩ := Prog.exists_cons_of_returned hret
  rw [Prog.drive_cons] at hret ⊢
  replace hmeets := hmeets.2
  simp only [Prog.advance, Disk.step_whoami] at hmeets hret ⊢
  obtain ⟨icacls, later, rfl⟩ := Prog.exists_cons_of_returned hret
  rw [strands_cons, Prog.drive_cons] at *
  replace hmeets := hmeets.2
  simp only [Prog.advance] at hmeets hret ⊢
  by_cases hlocks : Locks path whoami icacls
  · obtain ⟨hlockable, herror, hsuccess⟩ := hlocks
    rw [Disk.step_icacls_of_lockable icacls hlockable herror hsuccess hpath hfile] at hmeets hret ⊢
    have hkept : disk.alter path (fun f => { f with
        acl := [utf8 (accountOf (whoamiAnswer whoami))] }) path =
          some { file with acl := [utf8 (accountOf (whoamiAnswer whoami))] } := by
      rw [Disk.alter_self, hfile]
      rfl
    -- the permissions are restricted, and the three operations follow
    refine (removedUnless_writeKey ioText args keyPem hkept later r hmeets hret).trans ?_
    constructor
    · rintro hall ⟨-, outcome, hmem, hne⟩
      exact hne (hall outcome hmem)
    · intro h outcome hmem
      by_contra hne
      exact h ⟨⟨hlockable, herror, hsuccess⟩, outcome, hmem, hne⟩
  · -- `icacls` has failed, and the empty file is removed right away
    have hrefused := Disk.step_icacls_of_not_locks disk hlocks
    simp only [hrefused, Bool.not_false, if_true] at hmeets hret ⊢
    refine iff_of_true ?_ fun h => hlocks h.1
    exact (removes_refuse path _ _).drive_returned hmeets hret

/-- The key file is removed. Once the session has returned, with a result or with an error, there is
no file under its name, if and only if there was none before and the run, once the file has been
created, is not left between the restriction of its permissions and the construction of the
guard. -/
theorem removed_iff
    (hmeets : (runSshWindows ioText tempDir rngBytes args keyPem).Meets Disk.step Removes cs disk)
    (hret : (Prog.drive Disk.step cs
      (runSshWindows ioText tempDir rngBytes args keyPem, disk)).1.returned = some r) :
    (Prog.drive Disk.step cs (runSshWindows ioText tempDir rngBytes args keyPem, disk)).2
        (keyFilePath tempDir rngBytes) = none ↔
      disk (keyFilePath tempDir rngBytes) = none ∧
        ∀ createNew later, cs = createNew :: later → createNew.error = none →
          ¬Strands (keyFilePath tempDir rngBytes) later := by
  rw [runSshWindows, TempKeyFile.create] at hmeets hret ⊢
  simp only [Prog.bind_eq, Prog.perform_bind, Prog.op_bind, Prog.bind_assoc] at hmeets hret ⊢
  have hpath := keyFilePath_ne_nil tempDir rngBytes
  generalize keyFilePath tempDir rngBytes = path at hpath hmeets hret ⊢
  obtain ⟨createNew, later, rfl⟩ := Prog.exists_cons_of_returned hret
  rw [Prog.drive_cons] at hret ⊢
  replace hmeets := hmeets.2
  simp only [Prog.advance] at hret ⊢
  cases hcreate : createNew.error with
  | some e =>
    have hstep : Disk.step (.createNew path) createNew disk = (.error e, disk) := by
      simp [Disk.step, hcreate]
    -- the file was not created, and the path is as it was
    simp only [hstep, ofIo_error, Prog.ofExcept_error, Prog.throw_bind, Prog.drive_throw]
    refine (and_iff_left ?_).symm
    rintro _ _ heq hnone
    obtain ⟨rfl, -⟩ := List.cons.inj heq
    rw [hcreate] at hnone
    cases hnone
  | none =>
    cases hdisk : disk path with
    | some file =>
      have hstep : Disk.step (.createNew path) createNew disk =
          (.error Disk.alreadyExists, disk) := by
        simp [Disk.step, hcreate, hdisk]
      -- `create_new` refuses, and the file of someone else stays
      simp [hstep, hdisk]
    | none =>
      have hstep : Disk.step (.createNew path) createNew disk =
          (.ok (), Function.update disk path (some ⟨[], createNew.acl⟩)) := by
        simp [Disk.step, hcreate, hdisk]
      simp only [hstep, ofIo_ok, Prog.ofExcept_ok, Prog.pure_bind] at hmeets hret ⊢
      refine (removed_secure_iff (Function.update_self ..) hpath hmeets hret).trans ?_
      constructor
      · rintro h
        refine ⟨by trivial, fun _ _ heq _ => ?_⟩
        obtain ⟨-, rfl⟩ := List.cons.inj heq
        exact h
      · exact fun h => h.2 createNew later rfl hcreate

end Run

/-- A name for the key file, as the random number generator may yield it. -/
def someRng : U8Array 8 := ⟨[0, 1, 2, 3, 4, 5, 6, 7], rfl⟩

/-- Outcomes under which `whoami` prints a user, `icacls` succeeds, and the next operation opens the
file again. -/
def lockedOutcomes : List Outcome :=
  [{ acl := [utf8 "BUILTIN\\Users"] },
    { output := { success := true, stdout := utf8 "pc\\me\r\n" } }, {}, {}]

/-- A session in which nothing fails. -/
theorem removed_of_ok :
    (Prog.drive Disk.step (lockedOutcomes ++ List.replicate 8 ({} : Outcome))
      (runSshWindows (fun _ => "") (utf8 "T\\") someRng { target := "host" } (utf8 "key"),
        fun _ => none)).2 (keyFilePath (utf8 "T\\") someRng) = none := by
  refine (removed_iff (r := .ok ()) (by decide) rfl).mpr ⟨rfl, ?_⟩
  have hnone : ∀ outcome ∈ lockedOutcomes ++ List.replicate 8 ({} : Outcome),
      outcome.error = none := by decide
  rintro createNew _ heq - ⟨whoami, icacls, later, rfl, -, outcome, hmem, hne⟩
  refine hne (hnone outcome ?_)
  rw [heq]
  simp [List.mem_of_mem_take hmem]

/-- When the disk is full in the middle of the key, what was written of it stays. -/
theorem leaves_part_of_key :
    ∃ cs : List Outcome,
      (runSshWindows (fun _ => "") (utf8 "T\\") someRng { target := "host" } (utf8 "key")).Meets
          Disk.step Removes cs (fun _ => none) ∧
        (Prog.drive Disk.step cs
          (runSshWindows (fun _ => "") (utf8 "T\\") someRng { target := "host" } (utf8 "key"),
            fun _ => none)).1.returned = some (.error (.err (.io (.other 28)))) ∧
        (Prog.drive Disk.step cs
          (runSshWindows (fun _ => "") (utf8 "T\\") someRng { target := "host" } (utf8 "key"),
            fun _ => none)).2 (keyFilePath (utf8 "T\\") someRng) =
          some { content := utf8 "ke", acl := [utf8 "pc\\me"] } :=
  ⟨lockedOutcomes ++ [{ error := some (.other 28), written := 2 }], by decide, by rfl, by decide⟩

end Cry.Ssh
