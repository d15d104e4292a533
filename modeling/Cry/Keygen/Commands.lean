import Cry.Keygen.Files
import Mathlib.Data.List.Nodup

/-!
# Runs of `keygen` and `derive`

Each command checks all paths it is going to write before it makes a key, and some of the writers
check their path once more. The four paths of a base are different, so the later checks never find
a file of the same run. The files are written in place, and nothing undoes a write when a later
step fails. A check that fails itself lets the run go on, over whatever file there is.

## Main results

* `nodup_keyFiles`: the key files of a base have four different paths;
* `Call.prog_eq`: a command is a script that guards its outputs and goes on with its body;
* `Call.run_eq`: what a run does, in terms of that script;
* `Call.no_overwrite_iff`: exactly when a run without `--force` overwrites nothing, whatever the
  files that there are may hold;
* `Call.all_or_nothing_iff`: exactly when a failed run leaves the key files as they were, whatever
  they may hold.
-/

namespace Cry

open Rust Effects

namespace Keygen

/-! ## Paths -/

/-- The path of the private key of a base. -/
def privPath (base : Bytes) : String := display base ++ ".cry_id"

/-- The path of the public key of a base. -/
def pubPath (base : Bytes) : String := display base ++ ".cry_pub_id"

/-- The paths of all key files of a base. -/
def keyFiles (base : Bytes) : List String :=
  [privPath base, pubPath base, opensshPath (privPath base), opensshPubPath (privPath base)]

/-- What is appended to a base. -/
def suffixes : List String :=
  [".cry_id", ".cry_pub_id", ".cry_id.openssh_id", ".cry_id.openssh_pub"]

theorem keyFiles_eq_map (base : Bytes) : keyFiles base = suffixes.map (display base ++ ·) := by
  simp only [keyFiles, privPath, pubPath, opensshPath, opensshPubPath, String.append_assoc,
    suffixes, List.map_cons, List.map_nil]
  rfl

/-- The key files of a base have four different paths. -/
theorem nodup_keyFiles (base : Bytes) : (keyFiles base).Nodup := by
  rw [keyFiles_eq_map]
  refine List.Nodup.map (fun a b hab => ?_) (by decide)
  have hlist := congrArg String.toList hab
  rw [String.toList_append, String.toList_append, List.append_cancel_left_eq] at hlist
  exact String.toList_inj.mp hlist

/-- One run of `keygen` or `derive`: its arguments, and what the random number generator yields. -/
inductive Call (K : KeyPrimitives)
  /-- `keygen`. -/
  | keygen (args : KeygenArgs) (opensshPassphrase : Option Bytes) (draw sshDraw : K.Draw)
  /-- `derive`. -/
  | derive (args : DeriveArgs) (passphrase : Bytes) (opensshPassphrase : Option Bytes)
      (sshDraw : K.Draw)

namespace Call

variable {K : KeyPrimitives} (P : Primitives)

/-- The base of the paths. -/
def base : Call K → Bytes
  | keygen args _ _ _ => args.output
  | derive args _ _ _ => args.output

/-- Whether overwriting is allowed. -/
def force : Call K → Bool
  | keygen args _ _ _ => args.force
  | derive args _ _ _ => args.force

/-- The command. -/
def prog : Call K → KeyProg Unit
  | keygen args opensshPassphrase draw sshDraw =>
    Keygen.keygen K draw sshDraw args opensshPassphrase
  | derive args passphrase opensshPassphrase sshDraw =>
    Keygen.derive P K sshDraw args passphrase opensshPassphrase

/-- The paths that an algorithm writes. -/
def outputsOf (base : Bytes) (algo : KeyAlgorithm) (openssh : Bool) : List String :=
  match algo with
  | .ed25519 =>
    if openssh then keyFiles base else [privPath base, pubPath base]
  | .aes256Gcm => [privPath base]
  | .rsa => [privPath base, pubPath base]

/-- The paths that the command writes. The RSA arm of `derive` is disabled and writes none. -/
def outputs : Call K → List String
  | keygen args _ _ _ => outputsOf args.output args.algo args.openssh
  | derive args _ _ _ =>
    if args.algo = .rsa then [] else outputsOf args.output args.algo args.openssh

/-- What the command does after its checks. -/
def body : Call K → List KeyStep
  | keygen args opensshPassphrase draw sshDraw =>
    match args.algo with
    | .ed25519 =>
      identitySteps K sshDraw { signingKey := K.generate draw } (privPath args.output)
        (pubPath args.output) args.openssh opensshPassphrase args.comment
    | .aes256Gcm =>
      [.guard (privPath args.output),
        .write (privPath args.output) (hexEncode (K.fillBytes draw).val)]
    | .rsa =>
      afterwards (invalidFormat "RSA generation failed: " (K.rsaNew draw args.bits)) fun priv =>
        afterwards (unwrap (K.toPkcs8Pem priv)) fun pem =>
          .write (privPath args.output) pem ::
            afterwards (unwrap (K.toPublicKeyPem (K.rsaPublic priv))) fun publicPem =>
              [.write (pubPath args.output) publicPem]
  | derive args passphrase opensshPassphrase sshDraw =>
    match args.algo with
    | .ed25519 =>
      afterwards (Crydna.Identity.derive P passphrase args.ns args.keyVersion args.subId)
        fun id => identitySteps K sshDraw id (privPath args.output) (pubPath args.output)
          args.openssh opensshPassphrase args.comment
    | .aes256Gcm =>
      afterwards (deriveAesKey P passphrase args.ns args.keyVersion args.subId) fun okm =>
        [.guard (privPath args.output), .write (privPath args.output) (hexEncode okm.val)]
    | .rsa =>
      [.stop (.err (.invalidFormat "Deterministic RSA derivation is intentionally disabled"))]

private theorem ensureIdentityWritable_eq (base : Bytes) (openssh force : Bool) :
    ensureIdentityWritable (privPath base) (pubPath base) openssh force =
      scriptProg force ((outputsOf base .ed25519 openssh).map .guard) := by
  cases openssh <;>
    simp [ensureIdentityWritable, outputsOf, keyFiles, scriptProg, stepProg, bind_pure_unit]

/-- All steps of the command: the checks of the paths that it writes, and then its body. -/
def script (call : Call K) : List KeyStep := call.outputs.map .guard ++ call.body P

/-- A command guards the paths that it writes, and then goes on with its body. -/
theorem prog_eq (call : Call K) : call.prog P = scriptProg call.force (call.script P) := by
  rw [script]
  cases call with
  | keygen args opensshPassphrase draw sshDraw =>
    rw [scriptProg_append]
    simp only [prog, Keygen.keygen, force, outputs, body]
    cases args.algo with
    | ed25519 =>
      rw [← ensureIdentityWritable_eq, ← writeIdentity_eq]
      rfl
    | aes256Gcm => simp [scriptProg, stepProg, outputsOf, writePrivateKey_eq, names, privPath]
    | rsa =>
      simp [scriptProg, stepProg, outputsOf, names, privPath, pubPath, unwrap, Prog.bind_assoc,
        bind_pure_unit]
  | derive args passphrase opensshPassphrase sshDraw =>
    rw [scriptProg_append]
    simp only [prog, Keygen.derive, force, outputs, body]
    cases args.algo with
    | ed25519 =>
      rw [scriptProg_afterwards]
      simp only [← writeIdentity_eq]
      rw [if_neg (by decide), ← ensureIdentityWritable_eq]
      rfl
    | aes256Gcm =>
      simp [scriptProg, stepProg, outputsOf, writePrivateKey_eq, names, privPath,
        bind_pure_unit]
    | rsa => rfl

/-! ## The scripts -/

private theorem within_afterwards {α : Type} {ks : List String} {x : Except Stop α}
    {steps : α → List KeyStep} (h : ∀ a, Script.Within ks (steps a)) :
    Script.Within ks (afterwards x steps) := by
  cases x with
  | ok a => exact h a
  | error e => simp [afterwards, Script.Within, Step.target]

private theorem orderly_afterwards {α : Type} {x : Except Stop α} {steps : α → List KeyStep}
    (h : ∀ a, Script.Orderly (steps a)) : Script.Orderly (afterwards x steps) := by
  cases x with
  | ok a => exact h a
  | error e => exact List.pairwise_singleton _ _

private theorem orderly_pair {path : String} {content : Bytes} :
    Script.Orderly ([.guard path, .write path content] : List KeyStep) := by
  simp [Script.Orderly]

private theorem opensshSteps_within (K : KeyPrimitives) (sshDraw : K.Draw) (id : Crydna.Identity)
    (privPath : String) (opensshPassphrase : Option Bytes) (comment : String) :
    Script.Within [opensshPath privPath, opensshPubPath privPath]
      (opensshSteps K sshDraw id privPath opensshPassphrase comment) := by
  cases opensshPassphrase with
  | none => simp [opensshSteps, Script.Within, Step.target]
  | some passphrase =>
    rw [opensshSteps]
    cases fromUtf8 passphrase with
    | none => simp [Script.Within, Step.target]
    | some passphrase =>
      refine List.forall_mem_cons.mpr ⟨by simp [Step.target], within_afterwards fun pem => ?_⟩
      simp [Script.Within, Step.target]

private theorem opensshSteps_orderly {K : KeyPrimitives} {sshDraw : K.Draw} {id : Crydna.Identity}
    {privPath : String} {opensshPassphrase : Option Bytes} {comment : String}
    (hne : opensshPath privPath ≠ opensshPubPath privPath) :
    Script.Orderly (opensshSteps K sshDraw id privPath opensshPassphrase comment) := by
  cases opensshPassphrase with
  | none => exact List.pairwise_singleton _ _
  | some passphrase =>
    rw [opensshSteps]
    refine List.pairwise_cons.mpr ⟨fun t _ k v h => by simp at h, ?_⟩
    cases fromUtf8 passphrase with
    | none => exact List.pairwise_singleton _ _
    | some passphrase =>
      refine orderly_afterwards fun pem => ?_
      simp [Script.Orderly, hne.symm]

private theorem identitySteps_within (K : KeyPrimitives) (sshDraw : K.Draw) (id : Crydna.Identity)
    (base : Bytes) (openssh : Bool) (opensshPassphrase : Option Bytes) (comment : String) :
    Script.Within (outputsOf base .ed25519 openssh) (identitySteps K sshDraw id (privPath base)
      (pubPath base) openssh opensshPassphrase comment) := by
  cases openssh with
  | false => simp [identitySteps, outputsOf, Script.Within, Step.target]
  | true =>
    refine .append (by simp [outputsOf, keyFiles, Script.Within, Step.target])
      (.append (by simp [outputsOf, keyFiles, Script.Within, Step.target]) ?_)
    exact (opensshSteps_within K sshDraw id _ opensshPassphrase comment).mono
      (by simp [outputsOf, keyFiles])

private theorem identitySteps_orderly (K : KeyPrimitives) (sshDraw : K.Draw)
    (id : Crydna.Identity) (base : Bytes) (openssh : Bool) (opensshPassphrase : Option Bytes)
    (comment : String) :
    Script.Orderly (identitySteps K sshDraw id (privPath base) (pubPath base) openssh
      opensshPassphrase comment) := by
  have hnodup := nodup_keyFiles base
  simp only [keyFiles, List.nodup_cons, List.mem_cons, List.not_mem_nil, or_false, not_or] at hnodup
  obtain ⟨⟨hpub, hssh, hsshPub⟩, ⟨hssh', hsshPub'⟩, hne, -⟩ := hnodup
  have hopenssh : Script.Within [opensshPath (privPath base), opensshPubPath (privPath base)]
      (if openssh then opensshSteps K sshDraw id (privPath base) opensshPassphrase comment
        else []) := by
    cases openssh with
    | false => simp [Script.Within]
    | true => exact opensshSteps_within K sshDraw id _ opensshPassphrase comment
  -- the private key, then the public key, then the OpenSSH files, each at paths of their own
  refine .append [privPath base] (pubPath base :: [opensshPath (privPath base),
    opensshPubPath (privPath base)]) ?_ (.append [pubPath base] _ ?_ ?_ ?_ hopenssh ?_) ?_ ?_ ?_
  · simp [Script.Orderly]
  · exact orderly_pair
  · cases openssh with
    | false => exact List.Pairwise.nil
    | true => exact opensshSteps_orderly hne
  · simp [Script.Within, Step.target]
  · simp [hssh', hsshPub']
  · simp [Script.Within, Step.target]
  · exact .append (by simp [Script.Within, Step.target]) (hopenssh.mono (by simp))
  · simp [hpub, hssh, hsshPub]

/-- The body of a command guards and writes only its outputs. -/
theorem body_within (call : Call K) : Script.Within call.outputs (call.body P) := by
  cases call with
  | keygen args opensshPassphrase draw sshDraw =>
    simp only [outputs, body]
    cases args.algo with
    | ed25519 => exact identitySteps_within _ _ _ _ _ _ _
    | aes256Gcm => simp [outputsOf, Script.Within, Step.target]
    | rsa =>
      refine within_afterwards fun priv => within_afterwards fun pem => ?_
      refine List.forall_mem_cons.mpr ⟨by simp [outputsOf, Step.target], ?_⟩
      exact within_afterwards fun publicPem => by simp [outputsOf, Script.Within, Step.target]
  | derive args passphrase opensshPassphrase sshDraw =>
    simp only [outputs, body]
    cases args.algo with
    | ed25519 => exact within_afterwards fun id => identitySteps_within _ _ _ _ _ _ _
    | aes256Gcm =>
      exact within_afterwards fun okm => by simp [outputsOf, Script.Within, Step.target]
    | rsa => simp [Script.Within, Step.target]

/-- No path is checked or written again after it was written. -/
theorem body_orderly (call : Call K) : Script.Orderly (call.body P) := by
  cases call with
  | keygen args opensshPassphrase draw sshDraw =>
    simp only [body]
    cases args.algo with
    | ed25519 => exact identitySteps_orderly _ _ _ _ _ _ _
    | aes256Gcm => exact orderly_pair
    | rsa =>
      have hne : privPath args.output ≠ pubPath args.output := by
        have hnodup := nodup_keyFiles args.output
        simp only [keyFiles, List.nodup_cons, List.mem_cons, not_or] at hnodup
        exact hnodup.1.1
      refine orderly_afterwards fun priv => orderly_afterwards fun pem => ?_
      -- RSA keys are written without a check in between, first the private and then the public one
      refine .append [privPath args.output] [pubPath args.output]
        (List.pairwise_singleton _ (Step.write _ pem)) (orderly_afterwards fun publicPem => ?_)
        ?_ (within_afterwards fun publicPem => ?_) ?_
      · exact List.pairwise_singleton _ _
      · simp [Script.Within, Step.target]
      · simp [Script.Within, Step.target]
      · simpa using hne.symm
  | derive args passphrase opensshPassphrase sshDraw =>
    simp only [body]
    cases args.algo with
    | ed25519 => exact orderly_afterwards fun id => identitySteps_orderly _ _ _ _ _ _ _
    | aes256Gcm => exact orderly_afterwards fun okm => orderly_pair
    | rsa => exact List.pairwise_singleton _ _

/-- A command guards and writes only its outputs. -/
theorem script_within (call : Call K) : Script.Within call.outputs (call.script P) := by
  refine .append (fun s hs path hpath => ?_) (body_within P call)
  obtain ⟨k, hk, rfl⟩ := List.mem_map.mp hs
  obtain rfl := Option.some.inj hpath
  exact hk

/-- The checks in front come before all writes. -/
theorem script_orderly (call : Call K) : Script.Orderly (call.script P) := by
  refine List.pairwise_append.mpr ⟨?_, body_orderly P call, ?_⟩
  · exact List.pairwise_map.mpr (List.pairwise_of_forall fun _ _ _ _ h => by cases h)
  · intro s hs t _ k v hk
    obtain ⟨path, -, rfl⟩ := List.mem_map.mp hs
    cases hk

/-- The checks in front write nothing. -/
theorem writes_script (call : Call K) :
    Script.writes (call.script P) = Script.writes (call.body P) := by
  rw [script, Script.writes_append, Script.writes_guards, List.nil_append]

/-- Every output is one of the key files of the base. -/
theorem mem_keyFiles {call : Call K} {path : String} (h : path ∈ call.outputs) :
    path ∈ keyFiles call.base := by
  have hof : ∀ base algo openssh, path ∈ outputsOf base algo openssh → path ∈ keyFiles base := by
    intro base algo openssh hmem
    cases algo <;> cases openssh <;> simp [outputsOf, keyFiles] at hmem ⊢ <;> tauto
  cases call with
  | keygen args _ _ _ => exact hof _ _ _ h
  | derive args _ _ _ =>
    rw [outputs] at h
    by_cases hrsa : args.algo = .rsa
    · simp [hrsa] at h
    · rw [if_neg hrsa] at h
      exact hof _ _ _ h

/-! ## Runs -/

/-- Why a run ends early, if it does: an output that is found and must not be overwritten, or a
write, a change of permissions, or the making or encoding of a key that fails. -/
def failure (call : Call K) (files : Files) (schedule : Script.Schedule IoError) :
    Option (Failure String IoError Stop) :=
  Script.firstFailure (Script.refused call.force files) (call.script P) schedule

/-- What is written up to there, with the part that a failing write leaves. -/
def written (call : Call K) (files : Files) (schedule : Script.Schedule IoError) :
    List (String × Bytes) :=
  Script.made (Script.refused call.force files) (call.script P) schedule

/-- A command goes on to its first failing step, and the files are as it has written them up to
there. -/
theorem run_eq (call : Call K) (files : Files) (schedule : Script.Schedule IoError) :
    (call.prog P).run files schedule =
      some ((Script.result (call.failure P files schedule)).mapError stopOf,
        Script.replay (call.written P files schedule) files) := by
  rw [prog_eq, run_scriptProg, Script.exec_eq (script_orderly P call) schedule fun _ _ => rfl]
  rfl

/-- Where no output exists, the later checks find none either: a run ends early only when a step
fails that is no check. -/
theorem failure_of_free {call : Call K} {files : Files} (schedule : Script.Schedule IoError)
    (h : ∀ path ∈ call.outputs, files path = none) :
    call.failure P files schedule =
      Script.firstFailure (fun _ => false) (call.script P) schedule := by
  refine Script.firstFailure_congr (fun path hpath => ?_) schedule
  rw [Script.refused, h path (script_within P call _ hpath path rfl)]
  rfl

/-- A run that returns `Ok` has no step that gives up, and it has made all its writes. -/
theorem ok_of_run {call : Call K} {files files' : Files} {schedule : Script.Schedule IoError}
    (hrun : (call.prog P).run files schedule = some (.ok (), files')) :
    (∀ e, .stop e ∉ call.body P) ∧ files' = Script.replay (Script.writes (call.body P)) files := by
  rw [run_eq, Option.some.injEq, Prod.mk.injEq] at hrun
  obtain ⟨hresult, rfl⟩ := hrun
  have hfailure : call.failure P files schedule = none := by
    cases hfailure : call.failure P files schedule with
    | none => rfl
    | some e =>
      rw [hfailure] at hresult
      cases hresult
  refine ⟨fun e he => Script.stop_notMem hfailure e (List.mem_append_right _ he), ?_⟩
  rw [written, Script.made_eq_writes hfailure, writes_script]

/-- Only outputs are written. -/
theorem mem_outputs_of_written {call : Call K} {files : Files}
    {schedule : Script.Schedule IoError} {path : String}
    (h : path ∈ (call.written P files schedule).map Prod.fst) : path ∈ call.outputs := by
  obtain ⟨⟨path', content⟩, hmem, rfl⟩ :=
    List.mem_map.mp ((Script.made_keys _ (call.script P) schedule).subset h)
  exact script_within P call _ (Script.mem_writes.mp hmem) _ rfl

/-! ## The first failing step -/

/-- The step is the first one of the run to fail, after the steps `pre` and with the error `e`. -/
def FailsAt (call : Call K) (files : Files) (schedule : Script.Schedule IoError)
    (pre : List KeyStep) (step : KeyStep) (e : CryError) : Prop :=
  (∃ post, call.script P = pre ++ step :: post) ∧
    Script.firstFailure (Script.refused call.force files) pre schedule = none ∧
    ∃ f, step.failure (Script.refused call.force files) (schedule.getD pre.length none) = some f ∧
      stopOf f = .err e

/-- There is no write before the step, and it is no write itself, or one that fails before it has
opened its file. -/
def Early (schedule : Script.Schedule IoError) (pre : List KeyStep) (step : KeyStep) : Prop :=
  Script.writes pre = [] ∧ step.Idle (schedule.getD pre.length none)

/-- A run ends with the error of its first failing step, after what the steps before it have written
and what this step leaves. -/
theorem run_of_failsAt {call : Call K} {files : Files} {schedule : Script.Schedule IoError}
    {pre : List KeyStep} {step : KeyStep} {e : CryError}
    (h : call.FailsAt P files schedule pre step e) :
    (call.prog P).run files schedule = some (.error (.err e),
      Script.replay (Script.writes pre ++ step.leaves (schedule.getD pre.length none)) files) := by
  obtain ⟨⟨post, hscript⟩, hpre, f, hstep, hf⟩ := h
  obtain ⟨hfirst, hmade⟩ := Script.firstFailure_of_split post hpre hstep
  rw [run_eq, failure, written, hscript, hfirst, hmade]
  simp only [Script.result, Except.mapError, hf]

/-- A run that returns an error has a first failing step. -/
theorem failsAt_of_run {call : Call K} {files files' : Files} {schedule : Script.Schedule IoError}
    {e : CryError} (hrun : (call.prog P).run files schedule = some (.error (.err e), files')) :
    ∃ pre step, call.FailsAt P files schedule pre step e := by
  rw [run_eq, Option.some.injEq, Prod.mk.injEq] at hrun
  obtain ⟨hresult, -⟩ := hrun
  cases hfailure : call.failure P files schedule with
  | none =>
    rw [hfailure] at hresult
    cases hresult
  | some f =>
    rw [hfailure] at hresult
    obtain ⟨pre, step, post, hscript, hpre, hstep⟩ := Script.exists_firstFailure hfailure
    exact ⟨pre, step, ⟨post, hscript⟩, hpre, f, hstep, Except.error.inj hresult⟩

/-- A step that fails early leaves nothing behind. -/
theorem run_of_early {call : Call K} {files : Files} {schedule : Script.Schedule IoError}
    {pre : List KeyStep} {step : KeyStep} {e : CryError}
    (h : call.FailsAt P files schedule pre step e) (hearly : Early schedule pre step) :
    (call.prog P).run files schedule = some (.error (.err e), files) := by
  rw [run_of_failsAt P h, hearly.1, Step.leaves_of_idle hearly.2]
  rfl

/-- The files are at the same paths, whatever they hold. -/
def SameNames (files files' : Files) : Prop := ∀ path, files' path = none ↔ files path = none

/-- What a run refuses, and so where it fails, depends on where there are files only. -/
theorem SameNames.refused_eq {files files' : Files} (h : SameNames files files') (force : Bool) :
    Script.refused force files' = Script.refused force files := by
  funext path
  have hsome : (files' path).isSome = (files path).isSome := by
    rw [Bool.eq_iff_iff, Option.isSome_iff_ne_none, Option.isSome_iff_ne_none, Ne, h path]
  rw [Script.refused, Script.refused, hsome]

theorem SameNames.failsAt_iff {call : Call K} {files files' : Files} (h : SameNames files files')
    {schedule : Script.Schedule IoError} {pre : List KeyStep} {step : KeyStep} {e : CryError} :
    call.FailsAt P files' schedule pre step e ↔ call.FailsAt P files schedule pre step e := by
  rw [FailsAt, FailsAt, h.refused_eq]

/-- A run that does not fail early changes some output, if only the files hold something else than
what it has written by then. -/
theorem exists_changed {call : Call K} {files : Files} {schedule : Script.Schedule IoError}
    {pre : List KeyStep} {step : KeyStep} {e : CryError}
    (h : call.FailsAt P files schedule pre step e) (hlate : ¬Early schedule pre step) :
    ∃ files₁, SameNames files files₁ ∧ ∃ files',
      (call.prog P).run files₁ schedule = some (.error (.err e), files') ∧
        ∃ path ∈ call.outputs, files' path ≠ files₁ path := by
  have hrun := run_of_failsAt P h
  set ws := Script.writes pre ++ step.leaves (schedule.getD pre.length none) with hws
  obtain ⟨⟨path, content⟩, hmem⟩ : ∃ w, w ∈ ws := by
    rcases not_and_or.mp hlate with hpre | hidle
    · obtain ⟨w, hw⟩ := List.exists_mem_of_ne_nil _ hpre
      exact ⟨w, List.mem_append_left _ hw⟩
    · obtain ⟨w, hw⟩ := Step.exists_leaves_of_not_idle hidle
      exact ⟨w, List.mem_append_right _ hw⟩
  -- the writes are those of the run, so they are to different outputs
  have hmade : ws = call.written P files schedule := by
    obtain ⟨⟨post, hscript⟩, hpre, f, hstep, -⟩ := h
    rw [written, hscript, (Script.firstFailure_of_split post hpre hstep).2]
  have hnodup : (ws.map Prod.fst).Nodup := hmade ▸ (script_orderly P call).nodup_made _ schedule
  have hout : path ∈ call.outputs := by
    rw [hmade] at hmem
    exact mem_outputs_of_written P (List.mem_map_of_mem hmem)
  -- where there is a file, it held one byte more
  let files₁ : Files := fun p =>
    if p = path then (files p).map fun _ => content ++ [0] else files p
  have hnames : SameNames files files₁ := by
    intro p
    by_cases hp : p = path <;> simp [files₁, hp]
  refine ⟨files₁, hnames, _, run_of_failsAt P ((hnames.failsAt_iff P).mpr h), path, hout, ?_⟩
  rw [← hws, Script.replay_of_mem hnodup hmem]
  cases hold : files path <;> simp [files₁, hold]

/-! ## What is overwritten -/

/-- The check of an output that exists is answered, and not itself failing. -/
def Answered (call : Call K) (files : Files) (schedule : Script.Schedule IoError) : Prop :=
  ∃ i path, call.outputs[i]? = some path ∧ files path ≠ none ∧ schedule.getD i none = none

/-- A run that may not overwrite and has an answer is refused before it has written anything. -/
theorem exists_early_of_answered {call : Call K} (hforce : call.force = false) {files : Files}
    {schedule : Script.Schedule IoError} (h : call.Answered files schedule) :
    ∃ pre step e, call.FailsAt P files schedule pre step e ∧ Early schedule pre step := by
  obtain ⟨i, path, hout, hsome, hanswer⟩ := h
  have hrefused : Script.refused call.force files path = true := by
    simp [Script.refused, hforce, Option.isSome_iff_ne_none, hsome]
  cases hfirst : Script.firstFailure (Script.refused call.force files)
      (call.outputs.map .guard : List KeyStep) schedule with
  | none =>
    -- the check of the path would not have failed
    have hguard : (call.outputs.map .guard : List KeyStep)[i]? = some (.guard path) := by
      rw [List.getElem?_map, hout, Option.map_some]
    have hpass := Script.failure_eq_none_of_getElem? hfirst hguard
    rw [hanswer, Step.failure, hrefused] at hpass
    cases hpass
  | some f =>
    obtain ⟨before, k, after, hsplit, rfl, hpre, hstep⟩ :=
      Script.exists_firstFailure_guards hfirst
    have hscript : call.script P = before.map .guard ++
        .guard k :: (after.map .guard ++ call.body P) := by
      rw [script, hsplit, List.map_append, List.map_cons, List.append_assoc, List.cons_append]
    rw [← before.length_map (.guard : String → KeyStep)] at hstep
    exact ⟨_, .guard k, .fileExists k, ⟨⟨_, hscript⟩, hpre, _, hstep, rfl⟩,
      Script.writes_guards before, fun _ _ hw => by cases hw⟩

/-- No overwriting without `--force`, exactly. Let the arguments, the schedule of failures and the
paths that exist be given, and the contents of the existing files be anything. A run keeps the
content of every file, returns an error and changes nothing when one of its outputs exists, and
completes when none does and no step fails, its later checks notwithstanding, if and only if none of
its outputs exists, or the first check of one that exists is answered, or at least the first step
that fails does so with an error and before the first write has opened its file. -/
theorem no_overwrite_iff (call : Call K) (hforce : call.force = false) (files : Files)
    (schedule : Script.Schedule IoError) :
    (∀ files₁, SameNames files files₁ →
      ∃ r files', (call.prog P).run files₁ schedule = some (r, files') ∧
        (∀ path, files₁ path ≠ none → files' path = files₁ path) ∧
        ((∃ path ∈ call.outputs, files₁ path ≠ none) →
          (∃ e, r = .error (.err e)) ∧ files' = files₁) ∧
        ((∀ path ∈ call.outputs, files₁ path = none) →
          Script.firstFailure (fun _ => false) (call.script P) schedule = none → r = .ok ())) ↔
      (∀ path ∈ call.outputs, files path = none) ∨ call.Answered files schedule ∨
        ∃ pre step e, call.FailsAt P files schedule pre step e ∧ Early schedule pre step := by
  rw [or_iff_right_of_imp (exists_early_of_answered P hforce)]
  constructor
  · intro h
    by_contra hnot
    obtain ⟨htaken, hlate⟩ := not_or.mp hnot
    obtain ⟨path, hpath, hsome⟩ : ∃ path ∈ call.outputs, files path ≠ none := by
      simpa using htaken
    have hexists : ∀ files₁, SameNames files files₁ → ∃ path ∈ call.outputs, files₁ path ≠ none :=
      fun files₁ hnames => ⟨path, hpath, fun hnone => hsome ((hnames path).mp hnone)⟩
    -- the run returns an error, whose step is not early
    obtain ⟨r, files', hrun, -, hkept, -⟩ := h files fun _ => .rfl
    obtain ⟨⟨e, rfl⟩, -⟩ := hkept (hexists files fun _ => .rfl)
    obtain ⟨pre, step, hfails⟩ := failsAt_of_run P hrun
    obtain ⟨files₁, hnames, files'', hrun', path', -, hne⟩ :=
      exists_changed P hfails fun hearly => hlate ⟨pre, step, e, hfails, hearly⟩
    obtain ⟨r', _, hrun'', -, hkept', -⟩ := h files₁ hnames
    rw [hrun', Option.some.injEq, Prod.mk.injEq] at hrun''
    obtain ⟨-, rfl⟩ := hrun''
    exact hne (congrFun (hkept' (hexists files₁ hnames)).2 path')
  · rintro hcond files₁ hnames
    by_cases hnone : ∀ path ∈ call.outputs, files₁ path = none
    · refine ⟨_, _, run_eq P call files₁ schedule, fun path hsome => ?_, ?_, fun _ hok => ?_⟩
      · -- a file that there was is no output, and only outputs are written
        exact Script.replay_of_notMem
          (fun hmem => hsome (hnone path (mem_outputs_of_written P hmem))) files₁
      · rintro ⟨path, hpath, hsome⟩
        exact absurd (hnone path hpath) hsome
      · rw [failure_of_free P schedule hnone, hok]
        rfl
    · obtain hfree | ⟨pre, step, e, hfails, hearly⟩ := hcond
      · exact absurd (fun path hpath => (hnames path).mpr (hfree path hpath)) hnone
      · have hrun := run_of_early P ((hnames.failsAt_iff P).mpr hfails) hearly
        exact ⟨_, _, hrun, fun _ _ => rfl, fun _ => ⟨⟨e, rfl⟩, rfl⟩, fun h => absurd h hnone⟩

/-- A run of `keygen` with transparent keys. -/
def transparentKeygen (args : KeygenArgs) (draw : UInt8) : Call transparentKeys :=
  .keygen args (some (utf8 "pw")) draw draw

/-- A public key without its private key. -/
def publicKeyOnly : Files :=
  Function.update (fun _ => none) (pubPath (utf8 "k")) (some (utf8 "old"))

/-- The public key is left alone, although the check of the private key fails. -/
theorem no_overwrite_publicKeyOnly :
    ∃ r files', ((transparentKeygen {} 7).prog transparent).run publicKeyOnly
        [some ⟨.other 5, none⟩] = some (r, files') ∧
      (∃ e, r = .error (.err e)) ∧ files' = publicKeyOnly := by
  have hsome : publicKeyOnly (pubPath (utf8 "k")) ≠ none := by decide
  obtain ⟨r, files', hrun, -, hkept, -⟩ := (no_overwrite_iff transparent (transparentKeygen {} 7)
    rfl publicKeyOnly [some ⟨.other 5, none⟩]).mpr (.inr (.inl ⟨1, _, rfl, hsome, rfl⟩))
      publicKeyOnly fun _ => .rfl
  exact ⟨r, files', hrun, hkept ⟨_, by decide, hsome⟩⟩

/-- Without `--force`, a private RSA key is overwritten when the one check of its path fails. -/
theorem overwritten_unchecked :
    ∃ (call : Call transparentKeys) (files : Files) (schedule : Script.Schedule IoError)
      (files' : Files), call.force = false ∧ files (privPath call.base) = some (utf8 "old") ∧
        (call.prog transparent).run files schedule = some (.ok (), files') ∧
        files' (privPath call.base) ≠ files (privPath call.base) := by
  refine ⟨transparentKeygen { algo := .rsa, bits := 2 } 7,
    Function.update (fun _ => none) (privPath (utf8 "k")) (some (utf8 "old")),
    [some ⟨.other 5, none⟩], _, rfl, ?_, run_eq transparent _ _ _, ?_⟩
  · decide
  · decide

/-- All or nothing, exactly. Let the arguments, the schedule of failures and the paths that exist be
given, and the contents of the existing files be anything. A run that returns an error leaves every
key file of its base as it was if and only if the first step that fails with an error does so before
the first write has opened its file. -/
theorem all_or_nothing_iff (call : Call K) (files : Files) (schedule : Script.Schedule IoError) :
    (∀ files₁, SameNames files files₁ →
      ∃ r files', (call.prog P).run files₁ schedule = some (r, files') ∧
        ∀ e, r = .error (.err e) → ∀ path ∈ keyFiles call.base, files' path = files₁ path) ↔
      ∀ pre step e, call.FailsAt P files schedule pre step e → Early schedule pre step := by
  constructor
  · intro h pre step e hfails
    by_contra hlate
    obtain ⟨files₁, hnames, files', hrun, path, hpath, hne⟩ := exists_changed P hfails hlate
    obtain ⟨r, _, hrun', hkept⟩ := h files₁ hnames
    rw [hrun, Option.some.injEq, Prod.mk.injEq] at hrun'
    obtain ⟨rfl, rfl⟩ := hrun'
    exact hne (hkept e rfl path (mem_keyFiles hpath))
  · intro hearly files₁ hnames
    refine ⟨_, _, run_eq P call files₁ schedule, fun e hr => ?_⟩
    obtain ⟨pre, step, hfails⟩ := failsAt_of_run P ((run_eq P call files₁ schedule).trans
      (congrArg (fun r => some (r, _)) hr))
    have hrun := run_of_early P hfails
      (hearly pre step e ((hnames.failsAt_iff P).mp hfails))
    rw [run_eq, Option.some.injEq, Prod.mk.injEq] at hrun
    rw [hrun.2]
    exact fun _ _ => rfl

/-- With `--force`, a write of the public key that fails at opening its file leaves a new private
key beside the old public key. -/
theorem not_all_or_nothing :
    ∃ (call : Call transparentKeys) (files : Files) (schedule : Script.Schedule IoError)
      (files' : Files) (e : CryError),
      (call.prog transparent).run files schedule = some (.error (.err e), files') ∧
        files' (privPath call.base) ≠ files (privPath call.base) ∧
        files' (pubPath call.base) = files (pubPath call.base) := by
  refine ⟨transparentKeygen { force := true } 7, fun _ => some (utf8 "old"),
    List.replicate 6 none ++ [some ⟨.other 13, none⟩], _, .io (.other 13),
    run_eq transparent _ _ _, ?_, ?_⟩
  · decide
  · decide

end Call

end Keygen

end Cry
