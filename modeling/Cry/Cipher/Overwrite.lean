import Cry.Cipher.Isolation

/-!
# The overwrite guard

Without `--force`, `encrypt_file` and `decrypt_file` look for a file at their output before they
start, and refuse to go on if there is one. What they publish at the end replaces whatever is at the
output by then.

Other commands and other parties may act in between. A command that has passed the guard is
specified against what it relies on, that nobody else makes a file at its output.

## Main results

* `prog_guarded`: a command refuses, or goes on under its contract;
* `overwrite_guard`: a command never replaces a file, and of two commands with one output at most
  one returns `Ok`, unless a file appears at the output between the check and the return.
-/

namespace Cry

open Rust Effects Fs

variable {P : Primitives}

/-! ## Behind the guard -/

/-- The operation does not make a file at the path. -/
def Elsewhere (out : Path) : FsOp → Prop
  | .create p => p ≠ out
  | .rename _ q => q ≠ out
  | _ => True

theorem elsewhere_of_readOnly {out : Path} {o : FsOp} (ho : o.ReadOnly) : Elsewhere out o := by
  cases o <;> trivial

/-- Where there was no file there is none after an operation that does not make it. -/
theorem exec_elsewhere {out : Path} {o : FsOp} (ho : Elsewhere out o) (c : Choice) {fs : Fs}
    (hfs : fs.names out = none) : (exec o c fs).2.names out = none := by
  by_cases hfails : c.fails = none
  · cases o with
    | create p =>
      simp only [exec, Choice.orFail, hfails]
      rw [names_create, if_neg (Ne.symm ho), hfs]
    | writeAt i off buf =>
      simp only [exec, Choice.orFail, hfails]
      exact hfs
    | rename p q =>
      cases hp : fs.names p with
      | none => simpa only [exec, Choice.orFail, hfails, hp] using hfs
      | some i =>
        simp only [exec, Choice.orFail, hfails, hp]
        -- the old name goes, and the new one is not `out`
        rw [names_rename hp, if_neg (Ne.symm ho), hfs, ite_self]
    | removeFile p =>
      cases hp : fs.names p with
      | none => simpa only [exec, Choice.orFail, hfails, hp] using hfs
      | some i =>
        simp only [exec, Choice.orFail, hfails, hp]
        rw [names_remove, hfs, ite_self]
    | _ => rwa [exec_of_readOnly (by trivial)]
  · rwa [exec_of_fails hfails]

/-- A command relies on nobody making a file at its output and, if `stays`, on nobody removing one.
It leaves a file at its output alone. -/
def guarded (out : Path) (stays : Prop) : Contract FsOp Choice Fs where
  allowed _ _ _ := True
  rely s t := (s.names out = none → t.names out = none) ∧
    (stays → s.names out ≠ none → t.names out ≠ none)
  guar s t := s.names out ≠ none → Keeps out s t
  rely_refl _ := ⟨id, fun _ => id⟩
  rely_trans h h' := ⟨h'.1 ∘ h.1, fun hs => h'.2 hs ∘ h.2 hs⟩
  guar_refl s _ := .refl _ s

/-- A command that has returned `Ok` has made its output. -/
def Published (out : Path) (stays : Prop) (r : Except Stop Unit) (fs : Fs) : Prop :=
  stays → r = .ok () → fs.names out ≠ none

theorem published_error (out : Path) (stays : Prop) (e : Stop) (fs : Fs) :
    Published out stays (.error e) fs :=
  fun _ h => by cases h

section Guarded

variable {out : Path} {stays : Prop} {fs : Fs}

/-- Operations that do not make the output may be done where there is none. -/
theorem satisfies_elsewhere {ε α : Type} {x : FsProg ε α} (hx : x.Uses (Elsewhere out))
    (hfs : fs.names out = none) :
    x.Satisfies exec (guarded out stays) (fun _ t => t.names out = none) fs :=
  Prog.Satisfies.of_invariant hx (fun _ _ hs ht => ht.1 hs)
    (fun _ c _ ho hs _ => ⟨fun h => absurd hs h, exec_elsewhere ho c hs⟩) hfs

/-- Publishing makes the output where there is none. -/
theorem publish_guarded {tmp : Path} {closure : FsProg Stop Unit}
    (hclosure : closure.Uses (Elsewhere out)) (hfs : fs.names out = none) :
    (publish tmp out closure).Satisfies exec (guarded out stays) (Published out stays) fs := by
  rw [publish, Prog.bind_eq]
  refine Prog.Satisfies.bind (Prog.Satisfies.attempt (Q := fun _ t => t.names out = none)
    (satisfies_elsewhere hclosure hfs)) ?_ fun e t _ => published_error out stays e t
  intro r s hs
  cases r with
  | ok u =>
    simp only [Prog.bind_eq, Prog.perform_bind]
    intro t ht c _
    refine ⟨fun h => absurd (ht.1 hs) h, .ofExcept_bind (fun u hres => ?_)
      fun e _ t _ => published_error out stays e t⟩
    -- a rename that succeeds has made the output
    have hmade : (exec (.rename tmp out) c t).2.names out ≠ none := by
      cases hfails : c.fails with
      | some e => simp [exec, Choice.orFail, hfails, Except.mapError] at hres
      | none =>
        cases hi : t.names tmp with
        | none => simp [exec, Choice.orFail, hfails, hi, Except.mapError] at hres
        | some i => simp [exec, Choice.orFail, hfails, hi, names_rename hi]
    refine satisfies_readOnly (I := fun u => stays → u.names out ≠ none) trivial
      (fun u v hu huv hs => huv.2 hs (hu hs)) ?_ fun _ => hmade
    exact fun res u hu => .ofExcept_bind (fun n _ v huv hs _ => huv.2 hs (hu hs))
      fun e _ v _ => published_error out stays e v
  | error e =>
    cases e with
    | err e =>
      simp only [Prog.bind_eq, Prog.perform_bind]
      intro t ht c _
      exact ⟨fun h => absurd (ht.1 hs) h, fun u _ => published_error out stays _ u⟩
    | panic => exact fun t _ => published_error out stays _ t

theorem uses_writeOutput {tmp : Path} (htmp : tmp ≠ out) {fuel input : ℕ} {reader : ReadBuf}
    {body : StreamProg Stop UInt64} {chunkCount : UInt64} :
    (writeOutput fuel tmp input reader body chunkCount).Uses (Elsewhere out) := by
  simp only [writeOutput, Prog.bind_eq, Prog.perform_bind]
  refine ⟨htmp, fun res => Prog.uses_bind (Prog.uses_ofExcept _) fun file => ?_⟩
  refine uses_writeBody.mono fun o ho => ?_
  cases o <;> trivial

/-- Without `--force` the guard refuses when there is a file. -/
theorem refuseOverwrite_bind (outPath : Path) (rest : FsProg Stop Unit) :
    ((refuseOverwrite outPath false).bind fun _ => rest) =
      .op (.pathExists outPath) fun present : Bool =>
        if present then .throw (.err (.fileExists outPath.display)) else rest :=
  congrArg (Prog.op (FsOp.pathExists outPath)) (funext fun present : Bool => by
    cases present <;> rfl)

/-- A command without `--force` starts with the check. If there is a file at its output it refuses,
and otherwise it goes on under its contract. -/
theorem prog_guarded (fuel : ℕ) {cmd : Command} (hforce : cmd.force = false) :
    ∃ rest : FsProg Stop Unit,
      cmd.prog P fuel = .op (.pathExists cmd.output) (fun present : Bool =>
        if present then .throw (.err (.fileExists cmd.output.display)) else rest) ∧
      ∀ stays fs, fs.names cmd.output = none → rest.Satisfies exec (guarded cmd.output stays)
        (Published cmd.output stays) fs := by
  have hne := cmd.tmp_ne_output
  -- after the check both commands derive a key, write the temporary file, and publish it
  cases cmd with
  | encrypt plainPath cipherPath passphrase algorithm force =>
    obtain rfl : force = false := hforce
    refine ⟨_, refuseOverwrite_bind cipherPath _, fun stays fs hfs => ?_⟩
    refine (satisfies_elsewhere (uses_encryptHeader.mono fun o => elsewhere_of_readOnly)
      hfs).bind ?_ fun e t _ => published_error _ stays e t
    rintro ⟨key, header⟩ t ht
    refine publish_guarded (Prog.uses_bind ⟨trivial, fun _ => trivial⟩ fun res => ?_) ht
    exact Prog.uses_bind (Prog.uses_ofExcept _) fun plainFile => uses_writeOutput hne
  | decrypt plainPath cipherPath passphrase force =>
    obtain rfl : force = false := hforce
    refine ⟨_, refuseOverwrite_bind plainPath _, fun stays fs hfs => ?_⟩
    refine (satisfies_elsewhere (uses_decryptHeader.mono fun o => elsewhere_of_readOnly)
      hfs).bind ?_ fun e t _ => published_error _ stays e t
    rintro ⟨cipherFile, reader, key, header⟩ t ht
    exact publish_guarded (uses_writeOutput hne) ht

/-- A command under its contract publishes only where there is no file: it could not leave one
alone. -/
theorem absent_of_publishing {ε α : Type} {tmp : Path} (htmp : tmp ≠ out)
    {k : Except OsError Unit → FsProg ε α} {Q : Except ε α → Fs → Prop}
    (h : (Prog.op (.rename tmp out) k : FsProg ε α).Satisfies exec (guarded out stays) Q fs) :
    fs.names out = none := by
  by_contra hpresent
  -- others may put a file at `tmp`; then the rename would replace the output
  have hmade : (fs.create tmp).2.names tmp = some (fs.create tmp).1 := by
    rw [names_create, if_pos rfl]
  have hout : (fs.create tmp).2.names out = fs.names out := by
    rw [names_create, if_neg htmp.symm]
  obtain ⟨hkeeps, -⟩ := h (fs.create tmp).2 ⟨fun h => absurd h hpresent, fun _ _ => hout ▸ hpresent⟩
    {} trivial
  have hsame := (hkeeps (hout ▸ hpresent)).1
  simp only [exec, Choice.orFail, hmade] at hsame
  rw [names_rename hmade, if_pos rfl] at hsame
  exact htmp ((fs.create tmp).2.inj hmade hsame.symm)

end Guarded

/-! ## Interleaved commands -/

section Interleaved

variable {ι η : Type} [DecidableEq ι] (env : η → Fs → Fs)

/-- The step does not disturb program `i`, whose output is `out`: the system does not fail its
check, and between its check and its return nobody else makes a file at its output. -/
def Undisturbed (out : Path) (i : ι) (cfg : Config ι FsOp FsRes Stop Unit Fs)
    (e : Event ι Choice η) : Prop :=
  (e.actor = some i → (cfg.procs i).started = false → ∀ c ∈ e.choice, c.fails = none) ∧
    (e.actor ≠ some i → (cfg.procs i).started = true → (cfg.procs i).prog.returned = none →
      cfg.shared.names out = none → (Config.next exec env e cfg).shared.names out = none)

instance (out : Path) (i : ι) (cfg : Config ι FsOp FsRes Stop Unit Fs) (e : Event ι Choice η) :
    Decidable (Undisturbed env out i cfg e) :=
  inferInstanceAs (Decidable (_ ∧ _))

/-- The step does not remove a file at the path. -/
def Remains (out : Path) (cfg : Config ι FsOp FsRes Stop Unit Fs) (e : Event ι Choice η) : Prop :=
  cfg.shared.names out ≠ none → (Config.next exec env e cfg).shared.names out ≠ none

instance (out : Path) (cfg : Config ι FsOp FsRes Stop Unit Fs) (e : Event ι Choice η) :
    Decidable (Remains env out cfg e) :=
  inferInstanceAs (Decidable (_ → _))

/-- The step, if program `i` takes it and there is a file at its output, leaves the file alone, and
if it is the check or publishes, the program returns an error. -/
def Spares (cmd : Command) (i : ι) (cfg : Config ι FsOp FsRes Stop Unit Fs)
    (e : Event ι Choice η) : Prop :=
  e.actor = some i → cfg.shared.names cmd.output ≠ none →
    Keeps cmd.output cfg.shared (Config.next exec env e cfg).shared ∧
      ((cfg.procs i).started = false ∨
          (∃ k, (cfg.procs i).prog = .op (.rename cmd.tmp cmd.output) k) →
        ∃ err, ((Config.next exec env e cfg).procs i).prog.returned = some (.error err))

/-- A program that has not started, or goes on under its contract. -/
def Watched (P : Primitives) (fuel : ℕ) (cmd : Command) (stays : Prop) (fs : Fs)
    (p : Process FsOp FsRes Stop Unit) : Prop :=
  p.started = false ∧ p.prog = cmd.prog P fuel ∨
    p.started = true ∧ p.prog.Satisfies exec (guarded cmd.output stays)
      (Published cmd.output stays) fs

/-- A program that has not started, or has returned an error. -/
def Idle (p : Process FsOp FsRes Stop Unit) : Prop :=
  p.started = false ∨ ∃ err, p.prog.returned = some (.error err)

variable {env} {fuel : ℕ} {cmd : Command} {stays : Prop} {i : ι}
  {cfg : Config ι FsOp FsRes Stop Unit Fs} {e : Event ι Choice η}

/-- Only a started program can have returned. -/
theorem Watched.started (hforce : cmd.force = false) {fs : Fs}
    {p : Process FsOp FsRes Stop Unit} (h : Watched P fuel cmd stays fs p) {r : Except Stop Unit}
    (hret : p.prog.returned = some r) :
    p.started = true ∧ Published cmd.output stays r fs := by
  obtain ⟨-, hprog⟩ | ⟨hstarted, hspec⟩ := h
  · obtain ⟨rest, hrest, -⟩ := prog_guarded (P := P) fuel hforce
    rw [hprog, hrest] at hret
    cases hret
  · exact ⟨hstarted, hspec.returned hret⟩

/-- The check finds the file that is there. -/
theorem check_next (hforce : cmd.force = false) (hprog : (cfg.procs i).prog = cmd.prog P fuel)
    {c : Choice} (hfails : c.fails = none) (hpresent : cfg.shared.names cmd.output ≠ none) :
    ((Config.next exec env (.run i c) cfg).procs i).prog.returned =
      some (.error (.err (.fileExists cmd.output.display))) := by
  obtain ⟨rest, hrest, -⟩ := prog_guarded (P := P) fuel hforce
  obtain ⟨f, hf⟩ := Option.ne_none_iff_exists'.mp hpresent
  simp [Config.next, hprog, hrest, Prog.advance, exec, hfails, hf, Prog.returned]

/-- A step that does not disturb a program leaves it watched. -/
theorem Watched.next (hforce : cmd.force = false)
    (h : Watched P fuel cmd stays cfg.shared (cfg.procs i))
    (hundisturbed : Undisturbed env cmd.output i cfg e)
    (hremains : stays → Remains env cmd.output cfg e) :
    Watched P fuel cmd stays (Config.next exec env e cfg).shared
      ((Config.next exec env e cfg).procs i) := by
  by_cases hactor : e.actor = some i
  · obtain ⟨c, rfl⟩ := Event.eq_run hactor
    refine .inr ⟨by simp only [Config.next, Function.update_self], ?_⟩
    obtain ⟨hnew, hprog⟩ | ⟨-, hspec⟩ := h
    · obtain ⟨rest, hrest, hguarded⟩ := prog_guarded (P := P) fuel hforce
      -- the check itself: it sees whether there is an output
      have hfails := hundisturbed.1 hactor hnew c rfl
      cases hout : cfg.shared.names cmd.output with
      | none =>
        simp only [Config.next, Function.update_self, hprog, hrest, Prog.advance, exec, hfails,
          hout]
        exact hguarded stays _ hout
      | some f =>
        simp only [Config.next, Function.update_self, hprog, hrest, Prog.advance, exec, hfails,
          hout]
        exact fun t _ => published_error _ stays _ t
    · simp only [Config.next, Function.update_self]
      refine (hspec.advance ?_).2
      cases (cfg.procs i).prog <;> trivial
  · rw [Config.procs_next_of_ne hactor]
    obtain hnew | ⟨hstarted, hspec⟩ := h
    · exact .inl hnew
    refine .inr ⟨hstarted, ?_⟩
    cases hret : (cfg.procs i).prog.returned with
    | none => exact hspec.of_rely ⟨hundisturbed.2 hactor hstarted hret, hremains⟩
    | some r =>
      -- what has returned relies only on its output staying
      exact .of_returned hret fun t ht hs hr =>
        ht.2 hs (hremains hs (hspec.returned hret hs hr))

/-- The steps of a watched program leave a file at its output alone. -/
theorem Watched.spares (hforce : cmd.force = false)
    (h : Watched P fuel cmd stays cfg.shared (cfg.procs i))
    (hundisturbed : Undisturbed env cmd.output i cfg e) : Spares env cmd i cfg e := by
  intro hactor hpresent
  obtain ⟨c, rfl⟩ := Event.eq_run hactor
  obtain ⟨hnew, hprog⟩ | ⟨hstarted, hspec⟩ := h
  · refine ⟨?_, fun _ => ⟨_, check_next hforce hprog (hundisturbed.1 hactor hnew c rfl) hpresent⟩⟩
    obtain ⟨rest, hrest, -⟩ := prog_guarded (P := P) fuel hforce
    simp only [Config.next, hprog, hrest, Prog.advance, exec]
    exact .refl _ _
  · refine ⟨?_, ?_⟩
    · refine (hspec.advance (c := c) ?_).1 hpresent
      cases (cfg.procs i).prog <;> trivial
    · -- a program that is about to publish under its contract has no file at its output
      rintro (hnew | ⟨k, hprog⟩)
      · exact absurd (hnew.symm.trans hstarted) (by simp)
      · rw [hprog] at hspec
        exact absurd (absent_of_publishing cmd.tmp_ne_output hspec) hpresent

/-- An idle program stays idle while there is a file at its output. -/
theorem Idle.next (hforce : cmd.force = false) (hidle : Idle (cfg.procs i))
    (h : Watched P fuel cmd stays cfg.shared (cfg.procs i))
    (hundisturbed : Undisturbed env cmd.output i cfg e)
    (hpresent : cfg.shared.names cmd.output ≠ none) :
    Idle ((Config.next exec env e cfg).procs i) := by
  by_cases hactor : e.actor = some i
  · obtain ⟨c, rfl⟩ := Event.eq_run hactor
    refine .inr ?_
    obtain ⟨hnew, hprog⟩ | ⟨hstarted, -⟩ := h
    · exact ⟨_, check_next hforce hprog (hundisturbed.1 hactor hnew c rfl) hpresent⟩
    · -- it has returned an error, and a step of it changes nothing
      obtain hnew | ⟨err, hret⟩ := hidle
      · exact absurd (hnew.symm.trans hstarted) (by simp)
      · refine ⟨err, ?_⟩
        cases hprog : (cfg.procs i).prog with
        | throw e => simpa [Config.next, hprog, Prog.advance] using hprog ▸ hret
        | _ => simp [hprog, Prog.returned] at hret
  · rwa [Config.procs_next_of_ne hactor]

/-- A program whose output someone else makes is idle: it is not between its check and its
return, and it has not returned `Ok`. -/
theorem Watched.idle (hforce : cmd.force = false)
    (h : Watched P fuel cmd True cfg.shared (cfg.procs i))
    (hundisturbed : Undisturbed env cmd.output i cfg e) (hactor : e.actor ≠ some i)
    (habsent : cfg.shared.names cmd.output = none)
    (hmade : (Config.next exec env e cfg).shared.names cmd.output ≠ none) :
    Idle (cfg.procs i) := by
  -- before its check, in its run, after `Ok`, or after an error
  cases hstarted : (cfg.procs i).started with
  | false => exact .inl hstarted
  | true =>
    cases hret : (cfg.procs i).prog.returned with
    | none => exact absurd (hundisturbed.2 hactor hstarted hret habsent) hmade
    | some r =>
      cases r with
      | ok u => exact absurd habsent ((h.started hforce hret).2 trivial rfl)
      | error err => exact .inr ⟨err, hret⟩

/-- Of two programs with one output at least one is idle once there is a file at the output. -/
def OneIdle (P : Primitives) (fuel : ℕ) (cmd cmd' : Command) (i j : ι)
    (cfg : Config ι FsOp FsRes Stop Unit Fs) : Prop :=
  Watched P fuel cmd True cfg.shared (cfg.procs i) ∧
    Watched P fuel cmd' True cfg.shared (cfg.procs j) ∧
      (cfg.shared.names cmd.output ≠ none → Idle (cfg.procs i) ∨ Idle (cfg.procs j))

theorem OneIdle.next {cmd' : Command} {j : ι} (hij : i ≠ j) (hforce : cmd.force = false)
    (hforce' : cmd'.force = false) (hsame : cmd.output = cmd'.output)
    (h : OneIdle P fuel cmd cmd' i j cfg) (hi : Undisturbed env cmd.output i cfg e)
    (hj : Undisturbed env cmd'.output j cfg e) (hremains : Remains env cmd.output cfg e) :
    OneIdle P fuel cmd cmd' i j (Config.next exec env e cfg) := by
  obtain ⟨hwi, hwj, hidle⟩ := h
  refine ⟨hwi.next hforce hi fun _ => hremains,
    hwj.next hforce' hj fun _ => hsame ▸ hremains, fun hmade => ?_⟩
  by_cases habsent : cfg.shared.names cmd.output = none
  · -- the step makes the output, and one of the two does not take it
    by_cases hactor : e.actor = some i
    · have hother : e.actor ≠ some j := fun h => hij (Option.some.inj (hactor.symm.trans h))
      rw [Config.procs_next_of_ne hother]
      exact .inr (hwj.idle hforce' hj hother (hsame ▸ habsent) (hsame ▸ hmade))
    · rw [Config.procs_next_of_ne hactor]
      exact .inl (hwi.idle hforce hi hactor habsent hmade)
  · exact (hidle habsent).imp (fun h => h.next hforce hwi hi habsent)
      fun h => h.next hforce' hwj hj (hsame ▸ habsent)

/-- A command without `--force` that is not disturbed leaves a file at its output alone, in any
interleaving with other commands and other parties. Of two such commands with one output, when no
step removes the file there, at most one returns `Ok`. -/
theorem overwrite_guard {cmds : ι → Command} {fs₀ : Fs} {es : List (Event ι Choice η)} :
    (∀ i, (cmds i).force = false →
      Config.Along exec env (Undisturbed env (cmds i).output i) es (sideBySide P fuel cmds fs₀) →
        Config.Along exec env (Spares env (cmds i) i) es (sideBySide P fuel cmds fs₀)) ∧
    ∀ i j, i ≠ j → (cmds i).force = false → (cmds j).force = false →
      (cmds i).output = (cmds j).output →
      Config.Along exec env (Undisturbed env (cmds i).output i) es (sideBySide P fuel cmds fs₀) →
      Config.Along exec env (Undisturbed env (cmds j).output j) es (sideBySide P fuel cmds fs₀) →
      Config.Along exec env (Remains env (cmds i).output) es (sideBySide P fuel cmds fs₀) →
        ¬(((Config.exec exec env es (sideBySide P fuel cmds fs₀)).procs i).prog.returned =
            some (.ok ()) ∧
          ((Config.exec exec env es (sideBySide P fuel cmds fs₀)).procs j).prog.returned =
            some (.ok ())) := by
  constructor
  · intro i hforce hundisturbed
    exact Config.Along.of_invariant
      (I := fun cfg => Watched P fuel (cmds i) False cfg.shared (cfg.procs i))
      (fun cfg e h hu => h.next hforce hu False.elim) (fun cfg e h hu => h.spares hforce hu)
      (.inl ⟨rfl, rfl⟩) hundisturbed
  · rintro i j hij hforce hforce' hsame hi hj hremains ⟨hreti, hretj⟩
    obtain ⟨hwi, hwj, hidle⟩ := Config.exec_invariant (I := OneIdle P fuel (cmds i) (cmds j) i j)
      (fun cfg e h hP => h.next hij hforce hforce' hsame hP.1.1 hP.1.2 hP.2)
      ⟨.inl ⟨rfl, rfl⟩, .inl ⟨rfl, rfl⟩, fun _ => .inl (.inl rfl)⟩ ((hi.and hj).and hremains)
    -- the first has returned `Ok`, so there is a file, and one of the two is idle
    obtain ⟨hsi, hpub⟩ := hwi.started hforce hreti
    obtain ⟨hsj, -⟩ := hwj.started hforce' hretj
    obtain (hnew | ⟨err, herr⟩) | (hnew | ⟨err, herr⟩) := hidle (hpub trivial rfl)
    · exact absurd (hnew.symm.trans hsi) (by simp)
    · exact absurd (herr.symm.trans hreti) (by simp)
    · exact absurd (hnew.symm.trans hsj) (by simp)
    · exact absurd (herr.symm.trans hretj) (by simp)

end Interleaved

namespace Examples

/-- The commands that encrypt `a` to `a.cry` under two algorithms. -/
def sameOutput (i : Bool) : Command :=
  .encrypt ⟨[], utf8 "a"⟩ ⟨[], utf8 "a.cry"⟩ []
    (if i then .chaCha20Poly1305 else .aes256Gcm) false

/-- The second command checks, then the first runs to its end. -/
def checkThenRun : List (Event Bool Choice Empty) :=
  .run true {} :: List.replicate 10 (.run false {})

/-- The first command runs to its end, then the second. -/
def oneByOne : List (Event Bool Choice Empty) :=
  List.replicate 10 (.run false {}) ++ List.replicate 10 (.run true {})

end Examples

open Examples

/-- One after the other, the two commands do not both return `Ok`. -/
theorem overwrite_guard_oneByOne :
    ¬(((runSideBySide transparent 3 sameOutput oneByOne emptyA).procs false).prog.returned =
        some (.ok ()) ∧
      ((runSideBySide transparent 3 sameOutput oneByOne emptyA).procs true).prog.returned =
        some (.ok ())) :=
  overwrite_guard.2 false true (by decide) (by decide) (by decide) (by decide) (by decide +kernel)
    (by decide +kernel) (by decide +kernel)

/-- When the second command has checked before the first runs, both return `Ok`, and the second
replaces the output of the first. -/
theorem check_then_run_replaces :
    (∀ i, (sameOutput i).force = false) ∧ (sameOutput false).output = (sameOutput true).output ∧
      ((runSideBySide transparent 3 sameOutput checkThenRun emptyA).procs false).prog.returned =
        some (.ok ()) ∧
      ((runSideBySide transparent 3 sameOutput
        (checkThenRun ++ List.replicate 9 (.run true {})) emptyA).procs true).prog.returned =
          some (.ok ()) ∧
      (runSideBySide transparent 3 sameOutput checkThenRun emptyA).shared.content
        (sameOutput true).output ≠ none ∧
      (runSideBySide transparent 3 sameOutput
        (checkThenRun ++ List.replicate 9 (.run true {})) emptyA).shared.content
          (sameOutput true).output ≠
        (runSideBySide transparent 3 sameOutput checkThenRun emptyA).shared.content
          (sameOutput true).output := by
  decide +kernel

end Cry
