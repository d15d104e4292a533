import Cry.Effects.Serial
import Cry.Keygen.Commands

/-!
# Runs of `keygen` and `derive` side by side

Several runs share the files, in any interleaving of their checks, writes and changes of
permissions, and each of these may fail, the checks by finding nothing. A run checks all its outputs
first and writes them later, so another run can come in between.

Between runs with different outputs this makes no difference: whatever the interleaving, the runs
might as well have been one after the other, in any order. Runs that share outputs may overwrite
what one of them has just written, but without `--force` nothing that was there before them, as
long as the checks of it do not fail.

## Main results

* `run_of_drive`: a run step by step is a run under the outcomes of its steps;
* `serializable`: runs with different outputs are as if one after the other;
* `interleaved_no_overwrite`: no interleaving without `--force` overwrites an old file.
-/

namespace Cry

open Rust Effects

namespace Keygen

/-! ## Steps -/

/-- Serve one operation under an outcome. -/
def keyStep (o : KeyOp) (c : Option (Fault IoError)) (files : Files) : KeyRes o × Files :=
  ((KeyState.serve o ⟨files, [c]⟩).1, (KeyState.serve o ⟨files, [c]⟩).2.files)

/-- A check that fails finds nothing, and none changes anything. -/
@[simp] theorem keyStep_pathExists (path : String) (c : Option (Fault IoError)) (files : Files) :
    keyStep (.pathExists path) c files = ((files path).isSome && c.isNone, files) := by
  cases c <;> simp [keyStep, KeyState.serve]

/-- A step takes the next outcome of a schedule. -/
theorem serve_eq_keyStep (o : KeyOp) (c : Option (Fault IoError)) (files : Files)
    (schedule : Script.Schedule IoError) :
    KeyState.serve o ⟨files, c :: schedule⟩ =
      ((keyStep o c files).1, ⟨(keyStep o c files).2, schedule⟩) := by
  cases o <;> cases c <;> rfl

/-- A run step by step that has ended is a run under the outcomes of its steps. -/
theorem run_of_drive {α : Type} {p : KeyProg α} {files : Files}
    {cs : List (Option (Fault IoError))} {r : Except Stop α}
    (hr : (Prog.drive keyStep cs (p, files)).1.returned = some r) :
    ∃ schedule : Script.Schedule IoError, schedule.Sublist cs ∧
      p.run files schedule = some (r, (Prog.drive keyStep cs (p, files)).2) := by
  -- induction on the outcomes; those after the end of the program are not used
  induction cs generalizing p files with
  | nil =>
    refine ⟨[], .refl _, ?_⟩
    cases p with
    | pure a => exact congrArg some (Prod.ext (Option.some.inj hr) rfl)
    | throw e => exact congrArg some (Prod.ext (Option.some.inj hr) rfl)
    | op o k => cases hr
    | diverge => cases hr
  | cons c cs ih =>
    obtain ⟨schedule, hsub, hrun⟩ := ih hr
    cases p with
    | op o k =>
      refine ⟨c :: schedule, hsub.cons_cons c, ?_⟩
      rw [KeyProg.run, Prog.run_op, serve_eq_keyStep]
      exact hrun
    | _ => exact ⟨schedule, hsub.cons c, hrun⟩

/-! ## Paths -/

/-- The operation looks at no path but these, and writes no other. Permissions are not contents. -/
def About (paths : List String) : KeyOp → Prop
  | .pathExists path => path ∈ paths
  | .write path _ => path ∈ paths
  | .setPermissions _ _ => True

/-- The contents at the paths. -/
def contents (paths : List String) (files : Files) : { path // path ∈ paths } → Option Bytes :=
  fun path => files path

theorem contents_eq_iff {paths : List String} {files files' : Files} :
    contents paths files = contents paths files' ↔ ∀ path ∈ paths, files path = files' path := by
  rw [funext_iff, Subtype.forall]
  rfl

/-- An operation about other paths changes nothing at a path. -/
theorem keyStep_of_notMem {paths : List String} {path : String} (hpath : path ∉ paths) {o : KeyOp}
    (ho : About paths o) (c : Option (Fault IoError)) (files : Files) :
    (keyStep o c files).2 path = files path := by
  cases o with
  | pathExists p => rw [keyStep_pathExists]
  | write p content =>
    have hne : path ≠ p := fun h => hpath (h ▸ ho)
    rcases c with _ | ⟨e, _ | n⟩ <;> simp [keyStep, KeyState.serve, hne]
  | setPermissions p mode => cases c <;> rfl

/-- Operations about some paths are over the contents at these. -/
theorem part_contents (paths : List String) :
    Part keyStep (About paths) (contents paths) where
  answer o c s t ho hst := by
    rw [contents_eq_iff] at hst
    cases o with
    | pathExists path => rw [keyStep_pathExists, keyStep_pathExists, hst path ho]
    | write path content => cases c <;> rfl
    | setPermissions path mode => cases c <;> rfl
  effect o c s t ho hst := by
    rw [contents_eq_iff] at hst ⊢
    intro path hpath
    cases o with
    | pathExists p => simpa only [keyStep_pathExists] using hst path hpath
    | write p content =>
      rcases c with _ | ⟨e, _ | n⟩ <;>
        simp [keyStep, KeyState.serve, Function.update_apply, hst path hpath]
    | setPermissions p mode => cases c <;> exact hst path hpath

/-- Operations about some paths leave the contents at others alone. -/
theorem avoids_contents {paths paths' : List String} (h : ∀ path ∈ paths', path ∉ paths) :
    Avoids keyStep (About paths) (contents paths') := fun _ c files ho =>
  contents_eq_iff.mpr fun path hpath => keyStep_of_notMem (h path hpath) ho c files

theorem uses_scriptProg {paths : List String} {steps : List KeyStep} (force : Bool)
    (h : Script.Within paths steps) : (scriptProg force steps).Uses (About paths) := by
  induction steps with
  | nil => trivial
  | cons s steps ih =>
    obtain ⟨hs, hsteps⟩ := List.forall_mem_cons.mp h
    refine Prog.uses_bind ?_ fun _ => ih hsteps
    cases s with
    | guard path =>
      refine ⟨hs path rfl, fun taken => ?_⟩
      simp only [Prog.pure_bind]
      split <;> trivial
    | write path content => exact ⟨hs path rfl, fun r => Prog.uses_ofExcept _⟩
    | touch t => exact ⟨trivial, fun r => Prog.uses_ofExcept _⟩
    | stop e => trivial

namespace Call

variable {K : KeyPrimitives} (P : Primitives)

/-- A command is about its outputs. -/
theorem uses_prog (call : Call K) : (call.prog P).Uses (About call.outputs) := by
  rw [prog_eq]
  exact uses_scriptProg call.force (script_within P call)

/-! ## One after the other -/

/-- Runs one after the other, each under its schedule: their results and the files at the end. -/
def runInOrder : List (Call K × Script.Schedule IoError) → Files →
    Option (List (Except Stop Unit) × Files)
  | [], files => some ([], files)
  | (call, schedule) :: runs, files => do
    let (r, files) ← (call.prog P).run files schedule
    let (rs, files) ← runInOrder runs files
    return (r :: rs, files)

variable {P}

/-- A run changes no path but its outputs. -/
theorem drive_of_notMem {call : Call K} {path : String} (hpath : path ∉ call.outputs)
    (cs : List (Option (Fault IoError))) (files : Files) :
    (Prog.drive keyStep cs (call.prog P, files)).2 path = files path :=
  Avoids.drive (V := fun files : Files => files path)
    (fun _ c files ho => keyStep_of_notMem hpath ho c files) (uses_prog P call) cs files

variable {ι : Type}

/-- Runs with different outputs that end when each is alone with the files end in the same way when
they come one after the other. -/
theorem exists_runInOrder {calls : ι → Call K}
    (hdisjoint : ∀ i j, i ≠ j → ∀ path ∈ (calls i).outputs, path ∉ (calls j).outputs)
    (cs : ι → List (Option (Fault IoError))) {r : ι → Except Stop Unit} {files : Files}
    {order : List ι} (hnodup : order.Nodup)
    (hended : ∀ i ∈ order,
      (Prog.drive keyStep (cs i) ((calls i).prog P, files)).1.returned = some (r i))
    {files₁ : Files}
    (hsame : ∀ i ∈ order, ∀ path ∈ (calls i).outputs, files₁ path = files path) :
    ∃ runs : List (ι × Script.Schedule IoError), runs.map Prod.fst = order ∧
      (∀ p ∈ runs, p.2.Sublist (cs p.1)) ∧
      ∃ files', runInOrder P (runs.map fun p => (calls p.1, p.2)) files₁ =
          some (order.map r, files') ∧
        (∀ i ∈ order, ∀ path ∈ (calls i).outputs,
          files' path = (Prog.drive keyStep (cs i) ((calls i).prog P, files)).2 path) ∧
        ∀ path, (∀ i ∈ order, path ∉ (calls i).outputs) → files' path = files₁ path := by
  -- induction on the order: the first run finds its outputs as they are, and the others do not
  -- notice it
  induction order generalizing files₁ with
  | nil => exact ⟨[], rfl, by simp, files₁, rfl, by simp, fun _ _ => rfl⟩
  | cons i order ih =>
    obtain ⟨hi, hnodup⟩ := List.nodup_cons.mp hnodup
    obtain ⟨hended, hendeds⟩ := List.forall_mem_cons.mp hended
    obtain ⟨hsame, hsames⟩ := List.forall_mem_cons.mp hsame
    obtain ⟨hprog, hview⟩ := (part_contents (calls i).outputs).drive (uses_prog P (calls i))
      (contents_eq_iff.mpr hsame) (cs i)
    rw [← hprog] at hended
    obtain ⟨schedule, hsub, hrun⟩ := run_of_drive hended
    obtain ⟨runs, hruns, hsubs, files', hin, hout, hrest⟩ := ih hnodup hendeds
      fun j hj path hpath =>
        (drive_of_notMem (hdisjoint j i (fun h => hi (h ▸ hj)) path hpath) _ _).trans
          (hsames j hj path hpath)
    refine ⟨(i, schedule) :: runs, congrArg (i :: ·) hruns, List.forall_mem_cons.mpr ⟨hsub, hsubs⟩,
      files', ?_, List.forall_mem_cons.mpr ⟨fun path hpath => ?_, hout⟩, fun path hpath => ?_⟩
    · rw [List.map_cons, runInOrder, hrun]
      exact congrArg (fun x => x.bind fun a => some (r i :: a.1, a.2)) hin
    · rw [hrest path fun j hj => hdisjoint i j (fun h => hi (h ▸ hj)) path hpath]
      exact contents_eq_iff.mp hview path hpath
    · obtain ⟨hpath, hpaths⟩ := List.forall_mem_cons.mp hpath
      rw [hrest path hpaths, drive_of_notMem hpath]

/-! ## Side by side -/

variable {η : Type} [DecidableEq ι]

/-- Runs side by side, before the first step of any. -/
def sideBySide (P : Primitives) (calls : ι → Call K) (files : Files) :
    Config ι KeyOp KeyRes Stop Unit Files where
  shared := files
  procs i := { started := false, prog := (calls i).prog P }

/-- What has become of runs side by side, and of what others do in between. -/
def runSideBySide (P : Primitives) (env : η → Files → Files) (calls : ι → Call K)
    (es : List (Event ι (Option (Fault IoError)) η)) (files : Files) :
    Config ι KeyOp KeyRes Stop Unit Files :=
  Config.exec keyStep env es (sideBySide P calls files)

/-- Runs with different outputs, side by side with others that leave these outputs alone, might as
well have been one after the other. Whatever the interleaving and whatever fails in it, the runs
that have ended give in any order the results that they gave, under outcomes of their own steps, and
leave the same contents in their outputs and no others changed. -/
theorem serializable (P : Primitives) (env : η → Files → Files) (calls : ι → Call K)
    (hdisjoint : ∀ i j, i ≠ j → ∀ path ∈ (calls i).outputs, path ∉ (calls j).outputs)
    (hothers : ∀ i e s, ∀ path ∈ (calls i).outputs, env e s path = s path)
    (es : List (Event ι (Option (Fault IoError)) η)) (files : Files) (r : ι → Except Stop Unit)
    (order : List ι) (hnodup : order.Nodup)
    (hended : ∀ i ∈ order,
      ((runSideBySide P env calls es files).procs i).prog.returned = some (r i)) :
    ∃ runs : List (ι × Script.Schedule IoError), runs.map Prod.fst = order ∧
      (∀ p ∈ runs, p.2.Sublist (Event.choicesOf p.1 es)) ∧
      ∃ files', runInOrder P (runs.map fun p => (calls p.1, p.2)) files =
          some (order.map r, files') ∧
        (∀ i ∈ order, ∀ path ∈ (calls i).outputs,
          (runSideBySide P env calls es files).shared path = files' path) ∧
        ∀ path, (∀ i ∈ order, path ∉ (calls i).outputs) → files' path = files path := by
  have huses : ∀ i, ((sideBySide P calls files).procs i).prog.Uses (About (calls i).outputs) :=
    fun i => uses_prog P (calls i)
  have halone := Config.exec_part (fun i => part_contents (calls i).outputs)
    (fun i j hji => avoids_contents fun path hpath => hdisjoint i j (Ne.symm hji) path hpath)
    (fun i e s => contents_eq_iff.mpr (hothers i e s)) es huses
  obtain ⟨runs, hruns, hsubs, files', hin, hout, hrest⟩ := exists_runInOrder hdisjoint
    (fun i => Event.choicesOf i es) hnodup
    (fun i hi => (congrArg Prog.returned (halone i).1).symm.trans (hended i hi))
    fun _ _ _ _ => rfl
  refine ⟨runs, hruns, hsubs, files', hin, fun i hi path hpath => ?_, hrest⟩
  rw [hout i hi path hpath]
  exact contents_eq_iff.mp (halone i).2 path hpath

/-- Two AES keys, for `k` and for `j`. -/
def twoBases (i : Bool) : Call transparentKeys :=
  transparentKeygen { algo := .aes256Gcm, output := if i then utf8 "j" else utf8 "k" } 7

/-- Each run makes its checks before the other writes. -/
def checksFirst : List (Event Bool (Option (Fault IoError)) Empty) :=
  [.run false none, .run true none, .run true none, .run false none, .run false none,
    .run true none]

/-- The two runs, interleaved, leave what they leave when the second comes first. -/
theorem serializable_twoBases :
    ∃ (runs : List (Bool × Script.Schedule IoError)) (files' : Files),
      runs.map Prod.fst = [true, false] ∧
      runInOrder transparent (runs.map fun p => (twoBases p.1, p.2)) (fun _ => none) =
        some ([.ok (), .ok ()], files') ∧
      ∀ i, (runSideBySide transparent (fun e => e.elim) twoBases checksFirst
          fun _ => none).shared (privPath (twoBases i).base) =
        files' (privPath (twoBases i).base) := by
  obtain ⟨runs, hruns, -, files', hin, hout, -⟩ := serializable transparent
    (fun e : Empty => e.elim) twoBases (by decide +kernel) (fun _ e => e.elim) checksFirst
    (fun _ => none) (fun _ => .ok ()) [true, false] (by decide) (by decide +kernel)
  exact ⟨runs, files', hruns, hin, fun i => hout i (by cases i <;> decide) _
    (by cases i <;> decide +kernel)⟩

/-! ## Shared outputs -/

/-- A check of the path does not fail. -/
def Answers (path : String) : KeyOp → Option (Fault IoError) → Prop
  | .pathExists p, c => p = path → c = none
  | .write _ _, _ => True
  | .setPermissions _ _, _ => True

/-- The contract of a run that leaves a path as it is, and relies on it that others do and that the
checks of the path are answered. -/
def leaving (path : String) : Contract KeyOp (Option (Fault IoError)) Files where
  allowed o c _ := Answers path o c
  rely s t := t path = s path
  guar s t := t path = s path
  rely_refl _ := rfl
  rely_trans h h' := h'.trans h
  guar_refl _ := rfl

/-- Checks among which there is one of a path that is taken end in a refusal. -/
theorem guards_satisfies {path : String} {content : Bytes} {ks : List String}
    (hpath : path ∈ ks) (steps : List KeyStep) {files : Files}
    (hthere : files path = some content) :
    (scriptProg false (ks.map .guard ++ steps)).Satisfies keyStep (leaving path)
      (fun r t => t path = some content ∧ ∃ taken ∈ ks, r = .error (.err (.fileExists taken)))
      files := by
  induction ks generalizing files with
  | nil => cases hpath
  | cons k ks ih =>
    intro t ht c hc
    have hstill : t path = some content := ht.trans hthere
    rw [keyStep_pathExists]
    refine ⟨rfl, ?_⟩
    show (((if (((t k).isSome && c.isNone) && !false) = true then
      Prog.throw (.err (.fileExists k)) else Prog.pure ()).bind
        fun _ => scriptProg false (ks.map .guard ++ steps) : KeyProg Unit)).Satisfies keyStep
          (leaving path) _ t
    by_cases htaken : (((t k).isSome && c.isNone) && !false) = true
    · rw [if_pos htaken]
      exact fun u hu => ⟨hu.trans hstill, k, List.mem_cons_self, rfl⟩
    · rw [if_neg htaken]
      -- the check of the path is answered, so it comes later
      have hne : path ≠ k := by
        rintro rfl
        rw [hc rfl, hstill] at htaken
        exact htaken rfl
      refine (ih ((List.mem_cons.mp hpath).resolve_left hne) hstill).mono ?_
      rintro r u ⟨hu, taken, hmem, hr⟩
      exact ⟨hu, taken, List.mem_cons_of_mem k hmem, hr⟩

/-- A run that may not overwrite a file leaves it as it is, and is refused if it would write it. -/
theorem prog_leaves {call : Call K} {path : String} {content : Bytes}
    (hforce : path ∈ call.outputs → call.force = false) {files : Files}
    (hthere : files path = some content) :
    (call.prog P).Satisfies keyStep (leaving path)
      (fun r t => t path = some content ∧ (path ∈ call.outputs →
        ∃ taken ∈ call.outputs, r = .error (.err (.fileExists taken)))) files := by
  by_cases hpath : path ∈ call.outputs
  · rw [prog_eq, hforce hpath]
    exact (guards_satisfies hpath (call.body P) hthere).mono fun r t h => ⟨h.1, fun _ => h.2⟩
  · refine (Prog.Satisfies.of_invariant (K := leaving path) (I := fun t => t path = some content)
      (uses_prog P call) (fun s t hs ht => ht.trans hs) (fun o c s ho hs _ => ?_) hthere).mono
      fun r t h => ⟨h, fun hmem => absurd hmem hpath⟩
    have hkept := keyStep_of_notMem hpath ho c s
    exact ⟨hkept, hkept.trans hs⟩

/-- If the step is a check of the path, it does not fail. -/
def AnswersPath (path : String) (cfg : Config ι KeyOp KeyRes Stop Unit Files) :
    Event ι (Option (Fault IoError)) η → Prop
  | .run i c => (cfg.procs i).prog.Admits (leaving path) c cfg.shared
  | .other _ => True

/-- Without `--force` no file that was there before the runs is overwritten, whatever they share, as
long as the checks of it do not fail. After any interleaving of runs, of which none that has the
file among its outputs may overwrite, and of steps of others that leave the file alone, where every
check of the file is answered and anything else may fail, the file has its old content, and every
run that has it among its outputs and has ended was refused. -/
theorem interleaved_no_overwrite (P : Primitives) (env : η → Files → Files) (calls : ι → Call K)
    {path : String} {content : Bytes} {files : Files} (hthere : files path = some content)
    (hforce : ∀ i, path ∈ (calls i).outputs → (calls i).force = false)
    (hothers : ∀ e s, env e s path = s path) (es : List (Event ι (Option (Fault IoError)) η))
    (hanswers : Config.Along keyStep env (AnswersPath path) es (sideBySide P calls files)) :
    (runSideBySide P env calls es files).shared path = some content ∧
      ∀ i, path ∈ (calls i).outputs →
        ∀ r, ((runSideBySide P env calls es files).procs i).prog.returned = some r →
          ∃ taken ∈ (calls i).outputs, r = .error (.err (.fileExists taken)) := by
  -- the invariant: the file is as it was, and what is left of every run leaves it so
  let I (cfg : Config ι KeyOp KeyRes Stop Unit Files) : Prop :=
    cfg.shared path = some content ∧ ∀ i, (cfg.procs i).prog.Satisfies keyStep (leaving path)
      (fun r t => t path = some content ∧ (path ∈ (calls i).outputs →
        ∃ taken ∈ (calls i).outputs, r = .error (.err (.fileExists taken)))) cfg.shared
  have hstep : ∀ cfg (e : Event ι (Option (Fault IoError)) η), I cfg → AnswersPath path cfg e →
      I (Config.next keyStep env e cfg) := by
    rintro cfg e ⟨hcontent, hspec⟩ hanswer
    have hfit : Config.Fits env (fun _ => leaving path) cfg e := by
      cases e with
      | run i c => exact hanswer
      | other e => exact fun _ => hothers e _
    have hfits : Config.Along keyStep env (Config.Fits env fun _ => leaving path) [e] cfg :=
      ⟨hfit, trivial⟩
    refine ⟨?_, Config.exec_satisfies (fun _ _ _ _ _ => id) hspec hfits⟩
    cases e with
    | run i c => exact ((hspec i).advance hfit).1.trans hcontent
    | other e => exact (hothers e _).trans hcontent
  have hstart : I (sideBySide P calls files) := ⟨hthere, fun i => prog_leaves (hforce i) hthere⟩
  obtain ⟨hcontent, hspec⟩ := Config.exec_invariant hstep hstart hanswers
  exact ⟨hcontent, fun i hi r hr => ((hspec i).returned hr).2 hi⟩

/-- One of the runs fails to check the private key, and goes on to the public key. -/
def privateCheckFails : List (Event Bool (Option (Fault IoError)) Empty) :=
  [.run false none, .run true (some ⟨.other 5, none⟩), .run true none, .run false none]

/-- Two runs for the pair of that public key leave it alone, and are refused. -/
theorem interleaved_no_overwrite_publicKeyOnly :
    (runSideBySide transparent (fun e => e.elim) (fun i => transparentKeygen { openssh := i } 7)
        privateCheckFails publicKeyOnly).shared (pubPath (utf8 "k")) = some (utf8 "old") ∧
      ∀ r, ((runSideBySide transparent (fun e => e.elim)
          (fun i => transparentKeygen { openssh := i } 7) privateCheckFails
          publicKeyOnly).procs true).prog.returned = some r →
        ∃ taken ∈ keyFiles (utf8 "k"), r = .error (.err (.fileExists taken)) := by
  have hthere : publicKeyOnly (pubPath (utf8 "k")) = some (utf8 "old") := by decide +kernel
  have hanswers : Config.Along keyStep (fun e : Empty => e.elim)
      (AnswersPath (pubPath (utf8 "k"))) privateCheckFails
      (sideBySide transparent (fun i => transparentKeygen { openssh := i } 7) publicKeyOnly) := by
    refine ⟨?_, ?_, ?_, ?_, trivial⟩
    · exact fun _ => rfl
    · -- the check that fails is of another path
      exact fun h => absurd h (by decide +kernel)
    · exact fun _ => rfl
    · exact fun _ => rfl
  obtain ⟨hkept, hrefused⟩ := interleaved_no_overwrite transparent (fun e : Empty => e.elim)
    (fun i => transparentKeygen { openssh := i } 7) hthere (fun _ _ => rfl) (fun e => e.elim)
    privateCheckFails hanswers
  exact ⟨hkept, hrefused true (by decide +kernel)⟩

end Call

end Keygen

end Cry
