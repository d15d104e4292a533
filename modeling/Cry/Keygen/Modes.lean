import Cry.Keygen.Coherence

/-!
# The permissions of key files

On Unix every file has permissions. A file that is made gets those of `std::fs::write`, `0666`,
without the bits of the umask, and a file that is overwritten keeps the ones it has. Of the writers
of private keys only the one for the hexadecimal key of an identity sets the permissions afterwards.

The permissions ride along with the file system of the commands: an operation gives the same answer
and does the same to the contents as without them.

## Main results

* `run_of_runModes`: without the permissions, a run is a run on the file system alone;
* `mode_of_run`: the permissions after a script that completes;
* `ownerOnly_iff`: exactly when a successful run leaves all its private keys to their owner.
-/

namespace Cry

open Rust Effects

namespace Keygen

/-! ## The file system with permissions -/

/-- The files, and the permissions of those that there are. -/
structure ModeState extends KeyState where
  /-- The permissions of the file at a path, where there is one. -/
  modes : String → ℕ
  /-- The bits that a new file does not get. -/
  umask : ℕ

namespace ModeState

/-- The permissions of a new file: `0666` without the bits of the umask. -/
def created (st : ModeState) : ℕ := 0o666 - (0o666 &&& st.umask)

/-- Serve one operation. A write where there is no file gives the file that it makes the permissions
of a new one. -/
def serve : (o : KeyOp) → ModeState → KeyRes o × ModeState
  | .pathExists path, st =>
    let (r, after) := KeyState.serve (.pathExists path) st.toKeyState
    (r, { st with toKeyState := after })
  | .write path content, st =>
    let (r, after) := KeyState.serve (.write path content) st.toKeyState
    (r, { st with
      toKeyState := after
      modes := if st.files path = none then Function.update st.modes path st.created
        else st.modes })
  | .setPermissions path mode, st =>
    let (r, after) := KeyState.serve (.setPermissions path mode) st.toKeyState
    (r, { st with
      toKeyState := after
      modes := match r with
        | .ok _ => Function.update st.modes path mode
        | .error _ => st.modes })

/-- The permissions at a path, if there is a file. -/
def mode (st : ModeState) (path : String) : Option ℕ := (st.files path).map fun _ => st.modes path

/-- The permissions change nothing about an operation. -/
theorem serve_toKeyState (o : KeyOp) (st : ModeState) :
    KeyState.serve o st.toKeyState = ((st.serve o).1, (st.serve o).2.toKeyState) := by
  cases o <;> rfl

end ModeState

/-- Run a program on files with permissions: the result and the files at the end. -/
def KeyProg.runModes {α : Type} (p : KeyProg α) (st : ModeState) :
    Option (Except Stop α × ModeState) :=
  Prog.run ModeState.serve p st

/-- Without the permissions, a run is a run on the file system alone. -/
theorem run_of_runModes {α : Type} (p : KeyProg α) (st : ModeState) :
    p.run st.files st.schedule = (p.runModes st).map fun x => (x.1, x.2.files) := by
  have hrun : Prog.run KeyState.serve p st.toKeyState =
      (p.runModes st).map fun x => (x.1, x.2.toKeyState) :=
    Prog.run_map ModeState.serve ModeState.toKeyState ModeState.serve_toKeyState p st
  show (Prog.run KeyState.serve p st.toKeyState).map (fun x => (x.1, x.2.files)) = _
  rw [hrun, Option.map_map]
  rfl

/-! ## The permissions after a script -/

/-- A step that succeeds changes the permissions as it says. -/
theorem mode_of_step {force : Bool} {step : KeyStep} {st st' : ModeState}
    (hrun : (stepProg force step).runModes st = some (.ok (), st')) :
    st'.umask = st.umask ∧
      ∀ path, st'.mode path = Script.attrAfter st.created path [step] (st.mode path) := by
  cases step with
  | guard k =>
    -- a check that passes has only used up its outcome
    have hguard : (stepProg force (.guard k)).runModes st =
        (if ((st.serve (.pathExists k)).1 && !force) = true then Prog.throw (.err (.fileExists k))
          else Prog.pure () : KeyProg Unit).runModes (st.serve (.pathExists k)).2 := rfl
    have hsame : (st.serve (.pathExists k)).2.files = st.files := by
      simp only [ModeState.serve, KeyState.serve]
      cases st.schedule.headD none <;> rfl
    rw [hguard] at hrun
    split at hrun
    · cases hrun
    · obtain rfl := (Prod.mk.inj (Option.some.inj hrun)).2
      refine ⟨rfl, fun path => ?_⟩
      rw [ModeState.mode, hsame]
      rfl
  | write k v =>
    simp only [stepProg, fsWrite, KeyProg.runModes, Prog.bind_eq, Prog.perform_bind, Prog.run_op,
      ModeState.serve, KeyState.serve] at hrun
    cases hhead : st.schedule.headD none with
    | some f =>
      simp only [hhead] at hrun
      cases hrun
    | none =>
      simp only [hhead] at hrun
      obtain rfl := (Prod.mk.inj (Option.some.inj hrun)).2
      refine ⟨rfl, fun path => ?_⟩
      simp only [ModeState.mode, Script.attrAfter]
      by_cases hpath : k = path
      · subst hpath
        cases hold : st.files k <;> simp
      · have hne : path ≠ k := Ne.symm hpath
        cases hold : st.files k <;> simp [hpath, Function.update_of_ne hne]
  | touch t =>
    simp only [stepProg, setPermissions, KeyProg.runModes, Prog.bind_eq, Prog.perform_bind,
      Prog.run_op, ModeState.serve, KeyState.serve] at hrun
    cases hhead : st.schedule.headD none with
    | some f =>
      simp only [hhead] at hrun
      cases hrun
    | none =>
      simp only [hhead] at hrun
      obtain rfl := (Prod.mk.inj (Option.some.inj hrun)).2
      refine ⟨rfl, fun path => ?_⟩
      simp only [ModeState.mode, Script.attrAfter]
      by_cases hpath : t.1 = path
      · subst hpath
        simp [Function.comp_def]
      · simp [hpath, Function.update_of_ne (Ne.symm hpath)]
  | stop e => cases hrun

/-- After a script that completes, a file has the permissions that the steps give. -/
theorem mode_of_run {force : Bool} {steps : List KeyStep} {st st' : ModeState}
    (hrun : (scriptProg force steps).runModes st = some (.ok (), st')) (path : String) :
    st'.mode path = Script.attrAfter st.created path steps (st.mode path) := by
  -- induction on the script, of which every step succeeds
  induction steps generalizing st with
  | nil =>
    obtain rfl : st = st' := (Prod.mk.inj (Option.some.inj hrun)).2
    rfl
  | cons step steps ih =>
    rw [scriptProg, KeyProg.runModes, Prog.run_bind, Prog.andThen_eq_ok] at hrun
    obtain ⟨⟨⟩, mid, hstep, hrest⟩ := hrun
    obtain ⟨humask, hmode⟩ := mode_of_step hstep
    have hcreated : mid.created = st.created := by rw [ModeState.created, humask, ModeState.created]
    rw [ih hrest, hmode, hcreated, ← Script.attrAfter_append, List.singleton_append]

/-! ## The permissions after a command -/

/-- The files that hold a private key. -/
def KeyFile.IsPrivate : KeyFile → Prop
  | .priv => True
  | .openssh => True
  | .pub => False
  | .opensshPub => False

namespace Call

variable {K : KeyPrimitives} (P : Primitives)

/-- The algorithm. -/
def algo : Call K → KeyAlgorithm
  | keygen args _ _ _ => args.algo
  | derive args _ _ _ => args.algo

/-- Nothing changes permissions after a computation when nothing that may follow it does. -/
theorem untouched_afterwards {α : Type} {x : Except Stop α} {steps : α → List KeyStep}
    (h : ∀ a, Script.Untouched (steps a)) : Script.Untouched (afterwards x steps) := by
  cases x with
  | ok a => exact h a
  | error e => simp [afterwards, Script.Untouched]

/-- The OpenSSH files are written with the permissions they happen to have. -/
theorem opensshSteps_untouched (sshDraw : K.Draw) (id : Crydna.Identity) (privPath : String)
    (opensshPassphrase : Option Bytes) (comment : String) :
    Script.Untouched (opensshSteps K sshDraw id privPath opensshPassphrase comment) := by
  cases opensshPassphrase with
  | none => simp [opensshSteps, Script.Untouched]
  | some passphrase =>
    rw [opensshSteps]
    cases fromUtf8 passphrase with
    | none => simp [Script.Untouched]
    | some passphrase =>
      exact Script.untouched_cons (by simp)
        (untouched_afterwards fun pem => by simp [Script.Untouched])

/-- Without an identity, a command sets no permissions. -/
theorem body_untouched {call : Call K} (halgo : call.algo ≠ .ed25519) :
    Script.Untouched (call.body P) := by
  cases call with
  | keygen args opensshPassphrase draw sshDraw =>
    simp only [algo] at halgo
    simp only [body]
    cases h : args.algo with
    | ed25519 => exact absurd h halgo
    | aes256Gcm => simp [Script.Untouched]
    | rsa =>
      refine untouched_afterwards fun priv => untouched_afterwards fun pem => ?_
      exact Script.untouched_cons (by simp)
        (untouched_afterwards fun publicPem => by simp [Script.Untouched])
  | derive args passphrase opensshPassphrase sshDraw =>
    simp only [algo] at halgo
    simp only [body]
    cases h : args.algo with
    | ed25519 => exact absurd h halgo
    | aes256Gcm => exact untouched_afterwards fun okm => by simp [Script.Untouched]
    | rsa => simp [Script.Untouched]

/-- For an identity, a command writes the private key and sets its permissions, and then sets no
more. -/
theorem body_of_ed25519 {call : Call K} (halgo : call.algo = .ed25519)
    (hstop : ∀ e, .stop e ∉ call.body P) :
    ∃ content rest, Script.Untouched rest ∧ call.body P =
      .guard (privPath call.base) :: .write (privPath call.base) content ::
        .touch (privPath call.base, 0o600) :: rest := by
  have hrest : ∀ (sshDraw : K.Draw) (id : Crydna.Identity) (base : Bytes) (openssh : Bool)
      (opensshPassphrase : Option Bytes) (comment : String),
      Script.Untouched (.guard (pubPath base) ::
        .write (pubPath base) (hexEncode (K.verifyingKey id.signingKey).val) ::
          if openssh then opensshSteps K sshDraw id (privPath base) opensshPassphrase comment
            else []) := by
    intro sshDraw id base openssh opensshPassphrase comment
    refine Script.untouched_cons (by simp) (Script.untouched_cons (by simp) ?_)
    cases openssh with
    | false => simp [Script.Untouched]
    | true => exact opensshSteps_untouched sshDraw id _ opensshPassphrase comment
  cases call with
  | keygen args opensshPassphrase draw sshDraw =>
    simp only [algo] at halgo
    simp only [body, base, halgo]
    exact ⟨_, _, hrest _ _ _ _ _ _, rfl⟩
  | derive args passphrase opensshPassphrase sshDraw =>
    simp only [algo] at halgo
    simp only [body, base, halgo] at hstop ⊢
    obtain ⟨id, -, hsteps⟩ := afterwards_of_stop_notMem hstop
    rw [hsteps]
    exact ⟨_, _, hrest _ _ _ _ _ _, rfl⟩

/-- What a command in which nothing fails makes of the permissions of an output: those of the
private key of an identity are set, and all others are what the write gives. -/
theorem attrAfter_body {call : Call K} (hstop : ∀ e, .stop e ∉ call.body P) {path : String}
    (hout : path ∈ call.outputs) (fresh : ℕ) (m : Option ℕ) :
    Script.attrAfter fresh path (call.body P) m =
      some (if path = privPath call.base ∧ call.algo = .ed25519 then 0o600 else m.getD fresh) := by
  obtain ⟨-, -, houtputs, -⟩ := body_writes P hstop
  rw [← houtputs] at hout
  by_cases halgo : call.algo = .ed25519
  · obtain ⟨content, rest, hrest, hbody⟩ := body_of_ed25519 P halgo hstop
    rw [hbody, Script.writes, Script.writes, Script.writes, List.map_cons] at hout
    rw [hbody, Script.attrAfter, Script.attrAfter, Script.attrAfter,
      Script.attrAfter_of_untouched hrest]
    by_cases hpath : path = privPath call.base
    · -- set, and kept by every later write
      simp [hpath, halgo]
    · have hmem : path ∈ (Script.writes rest).map Prod.fst := by simpa [hpath] using hout
      simp [hmem, hpath, Ne.symm hpath]
  · rw [Script.attrAfter_of_untouched (body_untouched P halgo), if_pos hout]
    simp [halgo]

/-- A successful run leaves every private key file that it has written to its owner alone if and
only if every one of them for which it sets no permissions, that is, each but the private key file
of an identity, had these permissions before, or was not there and is made with them under the
umask. -/
theorem ownerOnly_iff (call : Call K) (st st' : ModeState)
    (hrun : (call.prog P).runModes st = some (.ok (), st')) :
    (∀ f : KeyFile, f.IsPrivate → f.path call.base ∈ call.outputs →
        st'.mode (f.path call.base) = some 0o600) ↔
      ∀ f : KeyFile, f.IsPrivate → f.path call.base ∈ call.outputs →
        (f.path call.base = privPath call.base → call.algo ≠ .ed25519) →
          (st.mode (f.path call.base)).getD st.created = 0o600 := by
  have hstop : ∀ e, .stop e ∉ call.body P := by
    have hplain := run_of_runModes (call.prog P) st
    rw [hrun, Option.map_some] at hplain
    exact (ok_of_run P hplain).1
  rw [prog_eq, script] at hrun
  have hmode : ∀ path ∈ call.outputs, st'.mode path = some (if path = privPath call.base ∧
      call.algo = .ed25519 then 0o600 else (st.mode path).getD st.created) := by
    intro path hout
    rw [mode_of_run hrun, Script.attrAfter_append, Script.attrAfter_guards,
      attrAfter_body P hstop hout]
  refine forall_congr' fun f => imp_congr_right fun _ => forall_congr' fun hout => ?_
  rw [hmode _ hout, Option.some.injEq]
  by_cases hset : f.path call.base = privPath call.base ∧ call.algo = .ed25519
  · rw [if_pos hset]
    exact ⟨fun _ hne => absurd hset.2 (hne hset.1), fun _ => rfl⟩
  · rw [if_neg hset]
    exact ⟨fun h _ => h, fun h => h fun hpath halgo => hset ⟨hpath, halgo⟩⟩

/-- An empty directory, under a umask. -/
def emptyDirectory (umask : ℕ) : ModeState where
  files _ := none
  modes _ := 0
  umask := umask

/-- Under the umask `077`, an AES key is readable by its owner only. -/
theorem ownerOnly_umask077 :
    ∃ st', ((transparentKeygen { algo := .aes256Gcm } 7).prog transparent).runModes
        (emptyDirectory 0o077) = some (.ok (), st') ∧
      st'.mode (privPath (utf8 "k")) = some 0o600 := by
  refine ⟨_, rfl, ?_⟩
  refine (ownerOnly_iff transparent (transparentKeygen { algo := .aes256Gcm } 7)
    (emptyDirectory 0o077) _ rfl).mpr (fun f _ _ _ => ?_) .priv trivial (by decide)
  rfl

/-- Under the usual umask `022`, everyone may read an AES key, and with `--force` everyone may write
to the file of an RSA key that everyone could write to before. -/
theorem readable_by_all :
    (∃ st', ((transparentKeygen { algo := .aes256Gcm } 7).prog transparent).runModes
        (emptyDirectory 0o022) = some (.ok (), st') ∧
      st'.mode (privPath (utf8 "k")) = some 0o644) ∧
      ∃ st', ((transparentKeygen { algo := .rsa, bits := 2, force := true } 7).prog
          transparent).runModes { emptyDirectory 0o077 with
            files := fun _ => some [], modes := fun _ => 0o666 } = some (.ok (), st') ∧
        st'.mode (privPath (utf8 "k")) = some 0o666 := by
  refine ⟨⟨_, rfl, ?_⟩, ⟨_, rfl, ?_⟩⟩
  · decide
  · decide

end Call

end Keygen

end Cry
