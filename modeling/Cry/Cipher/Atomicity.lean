import Cry.Cipher.Files

/-!
# What a command leaves behind

A command that runs alone, on any file system and under any failures.

Up to the creation of the temporary file a command changes nothing. From then on it changes only
that file, until it publishes it or removes it. What goes wrong in between is cleaned up; what goes
wrong after that, or meets a file that happened to have the temporary name, is not.

## Main results

* `prog_satisfies`: what a command has changed when it returns;
* `error_atomicity`: a command that returns an error leaves the output as it was and no temporary
  file, unless the rename fails or the output cannot be asked for its size after it;
* `frame`: a command changes nothing but its output, unless a file has the temporary name.
-/

namespace Cry

open Rust Effects Fs

variable (P : Primitives)

/-- Steps that do no harm to a file that had the temporary name before the run, and that publish
and clean up when they are meant to. -/
def Harmless (fs₀ : Fs) (cmd : Command) : FsOp → Choice → Fs → Prop
  | .create _, c, _ => c.fails = none → fs₀.names cmd.tmp = none
  | .rename _ _, c, _ => c.fails = none
  | .removeFile _, c, fs =>
    if c.fails = none then fs₀.names cmd.tmp = none
    else fs.content cmd.tmp = fs₀.content cmd.tmp
  | _, _, _ => True

instance (fs₀ : Fs) (cmd : Command) (o : FsOp) (c : Choice) (fs : Fs) :
    Decidable (Harmless fs₀ cmd o c fs) :=
  match o with
  | .create _ => inferInstanceAs (Decidable (_ → _))
  | .rename _ _ => inferInstanceAs (Decidable (_ = _))
  | .removeFile _ => inferInstanceAs (Decidable
      (if c.fails = none then fs₀.names cmd.tmp = none
        else fs.content cmd.tmp = fs₀.content cmd.tmp))
  | .pathExists _ | .metadata _ | .openFile _ | .fileMetadata _ | .readAt _ _ _
  | .writeAt _ _ _ | .fillBytes _ => .isTrue trivial

/-- The steps from the rename on succeed: the rename itself, and the request for the size of an
output that has changed. -/
def Publishes (fs₀ : Fs) (cmd : Command) : FsOp → Choice → Fs → Prop
  | .rename _ _, c, _ => c.fails = none
  | .metadata p, c, fs =>
    p = cmd.output → c.fails ≠ none → fs.content p = fs₀.content p
  | _, _, _ => True

instance (fs₀ : Fs) (cmd : Command) (o : FsOp) (c : Choice) (fs : Fs) :
    Decidable (Publishes fs₀ cmd o c fs) :=
  match o with
  | .rename _ _ => inferInstanceAs (Decidable (_ = _))
  | .metadata _ => inferInstanceAs (Decidable (_ → _ → _))
  | .create _ | .removeFile _ | .pathExists _ | .openFile _ | .fileMetadata _ | .readAt _ _ _
  | .writeAt _ _ _ | .fillBytes _ => .isTrue trivial

/-- `fs::remove_file` itself does not fail. -/
def Removes : FsOp → Choice → Fs → Prop
  | .removeFile _, c, _ => c.fails = none
  | _, _, _ => True

instance (o : FsOp) (c : Choice) (fs : Fs) : Decidable (Removes o c fs) :=
  match o with
  | .removeFile _ => inferInstanceAs (Decidable (_ = _))
  | .create _ | .rename _ _ | .pathExists _ | .metadata _ | .openFile _ | .fileMetadata _
  | .readAt _ _ _ | .writeAt _ _ _ | .fillBytes _ => .isTrue trivial

/-- The closure of a command has failed before it changed anything, or it has made the temporary
file and left all others alone. -/
def Closed (fs₀ : Fs) (tmp : Path) (r : Except Stop Unit) (fs : Fs) : Prop :=
  (fs = fs₀ ∧ r ≠ .ok ()) ∨
    fs₀.names tmp = none ∧ fs.names tmp ≠ none ∧ ∀ p, p ≠ tmp → Keeps p fs₀ fs

/-- A command that has returned has left everything but its output as it was, and under `D` also
the output, if it returned an error. -/
def Settled (D : Prop) (fs₀ : Fs) (cmd : Command) (r : Except Stop Unit) (fs : Fs) : Prop :=
  r ≠ .error .panic → (∀ p, p ≠ cmd.output → fs.content p = fs₀.content p) ∧
    (D → r ≠ .ok () → fs.content cmd.output = fs₀.content cmd.output)

theorem settled_refl (D : Prop) (fs₀ : Fs) (cmd : Command) (r : Except Stop Unit) :
    Settled D fs₀ cmd r fs₀ :=
  fun _ => ⟨fun _ _ => rfl, fun _ _ => rfl⟩

section Alone

variable {P} {A : FsOp → Choice → Fs → Prop} {fs₀ : Fs}

/-- The closure of a command creates the temporary file only where there is none, and from then
on changes nothing else. -/
theorem writeOutput_satisfies {tmp : Path} {fuel input : ℕ} {reader : ReadBuf}
    {body : StreamProg Stop UInt64} {chunkCount : UInt64}
    (hA : ∀ c fs, A (.create tmp) c fs → c.fails = none → fs₀.names tmp = none) :
    (writeOutput fuel tmp input reader body chunkCount).Satisfies exec (.alone A)
      (Closed fs₀ tmp) fs₀ := by
  simp only [writeOutput, Prog.bind_eq, Prog.perform_bind]
  rintro _ rfl c hc
  refine ⟨trivial, ?_⟩
  cases hfails : c.fails with
  | some e =>
    simp only [exec, Choice.orFail, hfails, orIo_error, Prog.throw_bind]
    rintro _ rfl
    -- `create` has failed, and there is no file to write
    exact .inl ⟨rfl, by simp⟩
  | none =>
    simp only [exec, Choice.orFail, hfails, orIo_ok, Prog.pure_bind]
    have hfree := hA c _ hc hfails
    -- from here on only the new file is written, and its name stays
    refine (Prog.Satisfies.of_invariant uses_writeBody
      (I := fun t => t.names tmp = some (fs₀.create tmp).1 ∧ ∀ p, p ≠ tmp → Keeps p fs₀ t)
      ?_ ?_ ?_).mono ?_
    · rintro s _ hs rfl
      exact hs
    · rintro o c s ho ⟨hname, hkeeps⟩ -
      refine ⟨trivial, ?_⟩
      cases o with
      | readAt i off cap =>
        rw [exec_of_readOnly (by trivial)]
        exact ⟨hname, hkeeps⟩
      | writeAt i off buf =>
        obtain rfl := Option.some.inj ho
        cases hc : c.fails with
        | some e =>
          rw [exec_of_fails (by simp [hc])]
          exact ⟨hname, hkeeps⟩
        | none =>
          simp only [exec, Choice.orFail, hc]
          exact ⟨hname, fun p hp => (hkeeps p hp).trans
            (keeps_write fun h => hp (s.inj h hname))⟩
      | _ => exact ho.elim
    · exact ⟨by rw [names_create, if_pos rfl], fun p hp => keeps_create hp⟩
    · rintro r t ⟨hname, hkeeps⟩
      exact .inr ⟨hfree, by simp [hname], hkeeps⟩

/-- Publishing or cleaning up after the closure leaves only the output changed. -/
theorem publish_satisfies (cmd : Command) {D : Prop} {closure : FsProg Stop Unit}
    (hA : ∀ o c fs, A o c fs → Harmless fs₀ cmd o c fs)
    (hD : D → ∀ c fs, A (.metadata cmd.output) c fs → c.fails ≠ none →
      fs.content cmd.output = fs₀.content cmd.output)
    (hclosure : closure.Satisfies exec (.alone A) (Closed fs₀ cmd.tmp) fs₀) :
    (publish cmd.tmp cmd.output closure).Satisfies exec (.alone A) (Settled D fs₀ cmd) fs₀ := by
  have hne := cmd.tmp_ne_output
  rw [publish, Prog.bind_eq]
  refine Prog.Satisfies.bind (Prog.Satisfies.attempt (Q := fun r t => ∃ r', r = .ok r' ∧
    Closed fs₀ cmd.tmp r' t) (hclosure.mono fun r t h => ⟨r, rfl, h⟩)) ?_ (by simp)
  rintro r fs ⟨_, heq, hclosed⟩
  obtain rfl := Except.ok.inj heq
  match r with
  | .ok () =>
    obtain ⟨-, hok⟩ | ⟨hfree, hmade, hkeeps⟩ := hclosed
    · exact absurd rfl hok
    · obtain ⟨i, hi⟩ := Option.ne_none_iff_exists'.mp hmade
      simp only [Prog.bind_eq, Prog.perform_bind]
      rintro _ rfl c hc
      have hfails : c.fails = none := hA _ _ _ hc
      simp only [exec, Choice.orFail, hfails, hi, orIo_ok, Prog.pure_bind]
      -- every path but the output is as it was
      have hothers : ∀ p, p ≠ cmd.output →
          (fs.rename cmd.tmp cmd.output).content p = fs₀.content p := by
        intro p hp
        by_cases hptmp : p = cmd.tmp
        · rw [hptmp, content_eq_none.mpr hfree, content_eq_none, names_rename hi, if_neg hne,
            if_pos rfl]
        · exact ((hkeeps p hptmp).trans (keeps_rename hptmp hp)).content_eq
      refine ⟨trivial, ?_⟩
      rintro _ rfl c hc
      rw [exec_of_readOnly (by trivial)]
      refine ⟨trivial, Prog.Satisfies.ofExcept_bind ?_ ?_⟩
      · rintro n hn _ rfl
        exact fun _ => ⟨hothers, by simp⟩
      · rintro e hres _ rfl -
        refine ⟨hothers, fun hd _ => hD hd c _ hc fun hnone => ?_⟩
        -- the output exists, so only the system can have failed the request
        have hout : (fs.rename cmd.tmp cmd.output).content cmd.output = some (fs.data i) := by
          rw [content, names_rename hi, if_pos rfl, Option.map_some, data_rename]
        simp [exec, Choice.orFail, hnone, hout, Except.mapError] at hres
  | .error (.err e) =>
    simp only [Prog.bind_eq, Prog.perform_bind]
    rintro _ rfl c hc
    refine ⟨trivial, ?_⟩
    rintro _ rfl -
    have hharm := hA _ _ _ hc
    obtain ⟨rfl, -⟩ | ⟨hfree, hmade, hkeeps⟩ := hclosed
    · -- nothing was changed, so there is nothing to remove
      have hsame : (exec (.removeFile cmd.tmp) c fs).2 = fs := by
        by_cases hfails : c.fails = none
        · simp only [Harmless, if_pos hfails] at hharm
          simp [exec, Choice.orFail, hfails, hharm]
        · exact exec_of_fails hfails
      rw [hsame]
      exact ⟨fun _ _ => rfl, fun _ _ => rfl⟩
    · have hfails : c.fails = none := by
        by_contra hfails
        simp only [Harmless, if_neg hfails] at hharm
        rw [content_eq_none.mpr hfree, content_eq_none] at hharm
        exact hmade hharm
      obtain ⟨i, hi⟩ := Option.ne_none_iff_exists'.mp hmade
      have hothers : ∀ p, (fs.remove cmd.tmp).content p = fs₀.content p := by
        intro p
        by_cases hptmp : p = cmd.tmp
        · rw [hptmp, content_eq_none.mpr hfree, content_eq_none, names_remove, if_pos rfl]
        · exact ((hkeeps p hptmp).trans (keeps_remove hptmp)).content_eq
      simp only [exec, Choice.orFail, hfails, hi]
      exact ⟨fun p _ => hothers p, fun _ _ => hothers _⟩
  | .error .panic =>
    rintro _ rfl hpanic
    exact absurd rfl hpanic

/-- A command alone leaves only its output changed. -/
theorem prog_satisfies {fuel : ℕ} {cmd : Command} {D : Prop}
    (hA : ∀ o c fs, A o c fs → Harmless fs₀ cmd o c fs)
    (hD : D → ∀ c fs, A (.metadata cmd.output) c fs → c.fails ≠ none →
      fs.content cmd.output = fs₀.content cmd.output) :
    (cmd.prog P fuel).Satisfies exec (.alone A) (Settled D fs₀ cmd) fs₀ := by
  have hrely : ∀ s t : Fs, s = fs₀ → (Contract.alone A).rely s t → t = fs₀ := by
    rintro s _ hs rfl
    exact hs
  have hfail : ∀ e t, t = fs₀ → Settled D fs₀ cmd (.error e) t := by
    rintro e _ rfl
    exact settled_refl D _ cmd _
  have hcreate : ∀ c fs, A (.create cmd.tmp) c fs → c.fails = none → fs₀.names cmd.tmp = none :=
    fun c fs h => hA _ c fs h
  cases cmd with
  | encrypt plainPath cipherPath passphrase algorithm force =>
    refine (satisfies_of_readOnly uses_refuseOverwrite hrely rfl).bind ?_ hfail
    rintro _ _ rfl
    -- up to the header nothing is written, so an error leaves the files as they were
    refine (satisfies_of_readOnly uses_encryptHeader hrely rfl).bind ?_ hfail
    rintro ⟨key, header⟩ _ rfl
    refine publish_satisfies (.encrypt plainPath cipherPath passphrase algorithm force)
      hA hD ?_
    simp only [Prog.bind_eq, Prog.perform_bind]
    -- the closure opens the input before it creates the temporary file
    refine satisfies_readOnly trivial hrely ?_ rfl
    rintro res _ rfl
    refine .ofExcept_bind (fun plainFile _ => writeOutput_satisfies hcreate) ?_
    rintro e - _ rfl
    exact .inl ⟨rfl, by simp⟩
  | decrypt plainPath cipherPath passphrase force =>
    refine (satisfies_of_readOnly uses_refuseOverwrite hrely rfl).bind ?_ hfail
    rintro _ _ rfl
    refine (satisfies_of_readOnly uses_decryptHeader hrely rfl).bind ?_ hfail
    rintro ⟨cipherFile, reader, key, header⟩ _ rfl
    exact publish_satisfies (.decrypt plainPath cipherPath passphrase force) hA hD
      (writeOutput_satisfies hcreate)

end Alone

/-! ## Error atomicity -/

/-- A command that returns an error has left the output path as it was and no temporary file, in
every run that starts without a temporary file and in which `remove_file` does not fail, provided
that the rename does not fail, nor the request for the size of an output that has changed. -/
theorem error_atomicity {fuel : ℕ} {cmd : Command} {fs₀ : Fs} {cs : List Choice} {e : CryError}
    (htmp : fs₀.names cmd.tmp = none)
    (hremove : (cmd.prog P fuel).Meets exec Removes cs fs₀)
    (hpublish : (cmd.prog P fuel).Meets exec (Publishes fs₀ cmd) cs fs₀)
    (herr : (cmd.runAlone P fuel cs fs₀).1.returned = some (.error (.err e))) :
    (cmd.runAlone P fuel cs fs₀).2.content cmd.output = fs₀.content cmd.output ∧
      (cmd.runAlone P fuel cs fs₀).2.names cmd.tmp = none := by
  have hspec : (cmd.prog P fuel).Satisfies exec
      (.alone fun o c fs => Removes o c fs ∧ Publishes fs₀ cmd o c fs)
      (Settled True fs₀ cmd) fs₀ := by
    refine prog_satisfies ?_ ?_
    · rintro o c fs ⟨hr, hp⟩
      cases o with
      | create p => exact fun _ => htmp
      | rename p q => exact hp
      | removeFile p => exact (if_pos hr).mpr htmp
      | _ => trivial
    · exact fun _ c fs h => h.2 rfl
  have hmeets := hremove.and hpublish fun _ _ _ h h' => And.intro h h'
  -- the temporary path is not the output, so it is among the files left alone
  obtain ⟨hothers, hout⟩ := hspec.drive_returned hmeets herr (by simp)
  refine ⟨hout trivial (by simp), ?_⟩
  rw [← content_eq_none, Command.runAlone, hothers _ cmd.tmp_ne_output, content_eq_none]
  exact htmp

namespace Examples

/-- The command that encrypts `a` to `a.cry`. -/
def encryptA : Command := .encrypt ⟨[], utf8 "a"⟩ ⟨[], utf8 "a.cry"⟩ [] .aes256Gcm false

/-- An operation that the system does not fail. -/
def served : Choice := {}

/-- An operation that the system fails. -/
def failing : Choice := { fails := some (.other 5) }

/-- Seven operations that succeed, up to the write of the output. -/
def upToWrite : List Choice := List.replicate 7 served

end Examples

open Examples

/-- Of an encryption whose write fails nothing is left. -/
theorem error_atomicity_write :
    (encryptA.runAlone transparent 3 (upToWrite ++ [failing, failing, served])
        (Fs.ofFile encryptA.input [])).2.content encryptA.output =
      (Fs.ofFile encryptA.input []).content encryptA.output ∧
    (encryptA.runAlone transparent 3 (upToWrite ++ [failing, failing, served])
        (Fs.ofFile encryptA.input [])).2.names encryptA.tmp = none :=
  error_atomicity transparent (e := .io (.other 5)) (by decide +kernel) (by decide +kernel)
    (by decide +kernel) (by decide +kernel)

/-- An encryption whose rename fails returns an error and leaves its temporary file. -/
theorem rename_failure_leaves_tmp :
    (Fs.ofFile encryptA.input []).names encryptA.tmp = none ∧
      (encryptA.prog transparent 3).Meets exec Removes (upToWrite ++ [served, failing])
        (Fs.ofFile encryptA.input []) ∧
      (encryptA.runAlone transparent 3 (upToWrite ++ [served, failing])
        (Fs.ofFile encryptA.input [])).1.returned = some (.error (.err (.io (.other 5)))) ∧
      (encryptA.runAlone transparent 3 (upToWrite ++ [served, failing])
        (Fs.ofFile encryptA.input [])).2.names encryptA.tmp ≠ none := by
  decide +kernel

/-! ## Other files -/

/-- A command that has returned has changed no path but its output, provided that no step creates
or removes a file at the temporary path where one was before the run, that the rename does not
fail, and that `remove_file` does not fail on a file the run has made. -/
theorem frame {fuel : ℕ} {cmd : Command} {fs₀ : Fs} {cs : List Choice} {r : Except Stop Unit}
    (hharmless : (cmd.prog P fuel).Meets exec (Harmless fs₀ cmd) cs fs₀)
    (hret : (cmd.runAlone P fuel cs fs₀).1.returned = some r) (hr : r ≠ .error .panic) {p : Path}
    (hp : p ≠ cmd.output) :
    (cmd.runAlone P fuel cs fs₀).2.content p = fs₀.content p := by
  have hspec : (cmd.prog P fuel).Satisfies exec (.alone (Harmless fs₀ cmd))
      (Settled False fs₀ cmd) fs₀ :=
    prog_satisfies (fun _ _ _ h => h) False.elim
  exact (hspec.drive_returned hharmless hret hr).1 p hp

/-- Encrypting `a` changes only `a.cry`. -/
theorem frame_encryptA :
    (encryptA.runAlone transparent 3 (upToWrite ++ [served, served, served])
        (Fs.ofFile encryptA.input [])).2.content encryptA.input =
      (Fs.ofFile encryptA.input []).content encryptA.input :=
  frame transparent (r := .ok ()) (by decide +kernel) (by decide +kernel) (by decide +kernel)
    (by decide +kernel)

/-- Encrypting `a.cry.tmp`, of one byte, to `a.cry`, with no failure of the system, returns an
error and deletes the input. -/
theorem input_deleted :
    let cmd : Command :=
      .encrypt ⟨[], utf8 "a.cry.tmp"⟩ ⟨[], utf8 "a.cry"⟩ [] .aes256Gcm false
    let fs₀ := Fs.ofFile cmd.input [1]
    let cs : List Choice := List.replicate 9 served
    cmd.input ≠ cmd.output ∧
      (cmd.runAlone transparent 3 cs fs₀).1.returned =
        some (.error (.err (.truncated 1 0))) ∧
      (cmd.runAlone transparent 3 cs fs₀).2.content cmd.input ≠ fs₀.content cmd.input := by
  decide +kernel

end Cry
