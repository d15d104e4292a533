import Cry.Cipher.Publication
import Cry.Cipher.Refinement
import Cry.Effects.Scope

/-!
# Runs that are cut off

A run may be killed at any point, after any failures. What it leaves is its temporary file, or a
whole product at the output, and nothing else. Running the same command again is therefore enough:
the second run ends as if there had not been a first one, or it finds that the first one had done
its work.

## Main results

* `prog_cutOff`: what a run has changed at any point;
* `Effect.recovers`, `Effect.recovers_of_produces`: what the model makes of a store in which a run
  was cut off;
* `crash_recovery`: a command that was cut off and is run again.
-/

namespace Cry

open Rust Effects Fs

variable {P : Primitives}

/-! ## Cut off -/

/-- A run that was cut off has changed at most its temporary file and its output, and at the output
there is what there was or a whole product for the input. -/
def CutOff (P : Primitives) (cmd : Command) (fs₀ fs : Fs) : Prop :=
  (∀ p, p ≠ cmd.tmp → p ≠ cmd.output → Keeps p fs₀ fs) ∧
    (fs.content cmd.output = fs₀.content cmd.output ∨ ∃ W, fs.content cmd.output = some W ∧
      ∃ X, fs₀.content cmd.input = some X ∧ cmd.Produces P X W)

/-- The contract of a command that runs alone, under any failures. -/
def cuttable (P : Primitives) (cmd : Command) (fs₀ : Fs) : Contract FsOp Choice Fs :=
  .keeping (fun _ _ _ => True) (CutOff P cmd fs₀)

theorem publisher_cuttable (P : Primitives) (cmd : Command) (fs₀ : Fs) :
    Publisher (cuttable P cmd fs₀) cmd
      (fun W => ∃ X, fs₀.content cmd.input = some X ∧ cmd.Produces P X W) where
  rely s t h := by
    obtain rfl : s = t := h
    exact .refl _ s
  guar s t hframe hout := by
    intro hs
    refine ⟨fun p hp hpo => (hs.1 p hp hpo).trans (hframe p hp hpo), ?_⟩
    obtain hkeeps | hgood := hout
    · rw [hkeeps.content_eq]
      exact hs.2
    · exact .inr hgood

section CutOff

variable {cmd : Command} {fs₀ : Fs} {fuel : ℕ}

/-- A program that only reads meets this contract as it meets the one of `isolated`. -/
theorem cuttable_of_isolated {α : Type} {x : FsProg Stop α} {Q : Except Stop α → Fs → Prop}
    {fs : Fs} (h : x.Satisfies exec (isolated cmd) Q fs) (huses : x.Uses FsOp.ReadOnly) :
    x.Satisfies exec (cuttable P cmd fs₀) Q fs := by
  refine h.of_uses huses (fun s t hst => ?_) (fun _ _ _ _ => trivial) fun o c s ho => ?_
  · obtain rfl : s = t := hst
    exact (isolated cmd).rely_refl s
  · rw [exec_of_readOnly ho]
    exact (cuttable P cmd fs₀).guar_refl s

/-- The closure of a command, when what the body writes for what is left of the input is a
product. -/
theorem writeOutput_cuttable {input : ℕ} {reader : ReadBuf} {body : StreamProg Stop UInt64}
    {chunkCount : UInt64} (hown : cmd.tmp ≠ cmd.input) (hinput : fs₀.names cmd.input = some input)
    (hbody : body.Careful)
    (hgood : ∀ r₀ st', Supplies (reader.ahead ++ (fs₀.data input).drop reader.off) r₀ →
      body.run { reader := r₀ } = some (.ok chunkCount, st') →
        cmd.Produces P (fs₀.data input) st'.sink.written)
    {fs : Fs} (hfs : Keeps cmd.input fs₀ fs) :
    (writeOutput fuel cmd.tmp input reader body chunkCount).Satisfies exec (cuttable P cmd fs₀)
      (fun r t => r = .ok () → ∃ W, t.content cmd.tmp = some W ∧
        ∃ X, fs₀.content cmd.input = some X ∧ cmd.Produces P X W) fs := by
  have hK := publisher_cuttable P cmd fs₀
  refine writeOutput_publisher hK fun s hs => ?_
  obtain rfl : fs = s := hs
  have hex : Exclusive (cuttable P cmd fs₀) input (some (fs.create cmd.tmp).1) (fs₀.data input)
      (Held fs₀ cmd (some (fs.create cmd.tmp).1)) :=
    { rely := by
        rintro s t hs rfl
        exact ⟨hs, fun _ _ => rfl⟩
      input := fun h => h.1.2 input hinput
      write := fun hi hs off bs =>
        ⟨(hK.owned.write hi (hs.2 _ rfl) off bs).1,
          ((exclusive hown hinput).write hi hs off bs).2⟩ }
  have hmade : Held fs₀ cmd (some (fs.create cmd.tmp).1) (fs.create cmd.tmp).2 := by
    refine ⟨hfs.trans (keeps_create hown.symm), fun i hi => ?_⟩
    rw [names_create, if_pos rfl, hi]
  refine (writeBody_satisfies hex hbody rfl hmade (data_create_self _)).mono ?_
  rintro r t ⟨ht, hres⟩
  refine ⟨ht.2 _ rfl, fun hok => ?_⟩
  obtain ⟨r₀, st', hr₀, hrun, hdata⟩ := hres hok
  rw [hdata]
  exact ⟨fs₀.data input, by rw [content, hinput, Option.map_some], hgood r₀ st' hr₀ hrun⟩

/-- Opening the input gives the file that the path named at the start. -/
theorem openInput_cuttable {α : Type} {f : ℕ → FsProg Stop α} {Q : Except Stop α → Fs → Prop}
    (hf : ∀ input t, fs₀.names cmd.input = some input → Keeps cmd.input fs₀ t →
      (f input).Satisfies exec (cuttable P cmd fs₀) Q t)
    (herr : ∀ e t, Q (.error e) t) {fs : Fs} (hfs : Keeps cmd.input fs₀ fs) :
    (Prog.op (.openFile cmd.input) fun res => (orIo res).bind f).Satisfies exec
      (cuttable P cmd fs₀) Q fs := by
  have hisolated : (Prog.op (.openFile cmd.input) fun res => (orIo res).bind .pure :
      FsProg Stop ℕ).Satisfies exec (isolated cmd) (fun r t => Keeps cmd.input fs₀ t ∧
        ∀ input, r = .ok input → fs₀.names cmd.input = some input) fs := by
    refine openInput_isolated (fun input t hinput ht => ?_) (fun e t ht => ⟨ht, by simp⟩) hfs
    exact fun u hu => ⟨ht.trans hu.1, fun input' heq => Except.ok.inj heq ▸ hinput⟩
  have hopen : (Prog.op (.openFile cmd.input) fun res => (orIo res).bind .pure :
      FsProg Stop ℕ).Satisfies exec (cuttable P cmd fs₀) (fun r t => Keeps cmd.input fs₀ t ∧
        ∀ input, r = .ok input → fs₀.names cmd.input = some input) fs :=
    cuttable_of_isolated hisolated
      ⟨trivial, fun res => Prog.uses_bind (Prog.uses_ofExcept _) fun _ => trivial⟩
  have hsplit : (Prog.op (.openFile cmd.input) fun res => (orIo res).bind f) =
      (Prog.op (.openFile cmd.input) fun res => (orIo res).bind .pure).bind f := by
    simp only [Prog.op_bind, Prog.bind_assoc, Prog.pure_bind]
  rw [hsplit]
  exact hopen.bind (fun input t ht => hf input t (ht.2 input rfl) ht.1) fun e t _ => herr e t

/-- At every point of a run of a command alone, under any failures, the files are as a run that is
cut off there leaves them. -/
theorem prog_cutOff (P : Primitives) (fuel : ℕ) (hown : cmd.tmp ≠ cmd.input) :
    (cmd.prog P fuel).Satisfies exec (cuttable P cmd fs₀) (fun _ _ => True) fs₀ := by
  have hK := publisher_cuttable P cmd fs₀
  have hrely : ∀ s t, Keeps cmd.input fs₀ s → (cuttable P cmd fs₀).rely s t →
      Keeps cmd.input fs₀ t := by
    intro s t hs hst
    obtain rfl : s = t := hst
    exact hs
  cases cmd with
  | encrypt plainPath cipherPath passphrase algorithm force =>
    refine (satisfies_of_readOnly uses_refuseOverwrite hrely (.refl _ fs₀)).bind ?_ (by simp)
    intro _ s hs
    refine (encryptHeader_satisfies (P := P) plainPath passphrase algorithm hrely hs).bind ?_
      (by simp)
    rintro ⟨key, header⟩ t ⟨ht, hres⟩
    obtain ⟨hkey, halgo⟩ := hres key header rfl
    refine publish_publisher hK ?_
    simp only [Prog.bind_eq, Prog.perform_bind]
    refine openInput_cuttable (fun input u hinput hu => ?_) (by simp) ht
    refine writeOutput_cuttable hown hinput careful_encryptBody (fun r₀ st' hr₀ hrun => ?_) hu
    -- the body has read the whole input and sealed a chunking of it
    obtain ⟨ps, cs, hX, hps, hall, hw, hcount⟩ := encryptBody_eq_ok hr₀ hrun
    exact ⟨⟨key, header, ps, cs, hps, hall, hcount⟩, hkey, halgo, hX.symm, hw⟩
  | decrypt plainPath cipherPath passphrase force =>
    refine (satisfies_of_readOnly uses_refuseOverwrite hrely (.refl _ fs₀)).bind ?_ (by simp)
    intro _ s hs
    refine (cuttable_of_isolated (decryptHeader_isolated passphrase hown hs)
      uses_decryptHeader).bind ?_ (by simp)
    rintro ⟨input, reader, key, header⟩ t ⟨ht, hres⟩
    obtain ⟨hinput, raw, hX, hkey, hparse⟩ := hres input reader key header rfl
    refine publish_publisher hK (writeOutput_cuttable hown hinput careful_decryptChunks
      (fun r₀ st' hr₀ hrun => ?_) ht)
    -- the input is the raw header, the frames that opened, and fewer than four bytes
    obtain ⟨cs, ps, hall, hw, hlt, hcount, hframes⟩ :=
      decryptLoop_eq_ok (i := 0) (by norm_num) hrun
    obtain ⟨rest, hrest, hshort⟩ := hframes _ hr₀
    have hwritten : st'.sink.written = ps.flatten := by simpa using hw
    rw [hX, hrest, hwritten]
    refine Command.produces_decrypt hkey hparse hall ?_ hshort
    rw [hcount, UInt64.toNat_ofNat_of_lt' hlt, Nat.zero_add]

end CutOff

/-! ## Run again -/

namespace Command

/-- Where a command that was cut off ends when it is run again: in the effect that it has on the
store before both runs, its temporary file aside, or with an error in a store in which the first run
has done its work. Without `--force` this error is that the output exists. -/
def Recovers (P : Primitives) (cmd : Command) (S : Store) (r : Except Stop Unit) (S' : Store) :
    Prop :=
  (∃ S₁, cmd.Effect P S r S₁ ∧ ∀ p, p ≠ cmd.tmp → S' p = S₁ p) ∨
    ∃ e X W, r = .error e ∧
      (cmd.force = false → e = .err (.fileExists cmd.output.display)) ∧
      S cmd.input = some X ∧ cmd.Produces P X W ∧ S' cmd.output = some W ∧
      ∀ p, p ≠ cmd.tmp → p ≠ cmd.output → S' p = S p

/-- Verdicts on stores that agree up to the temporary file leave stores that do. -/
theorem after_congr {cmd : Command} {S S' : Store} (h : ∀ p, p ≠ cmd.tmp → S' p = S p)
    (v : Verdict) : ∀ p, p ≠ cmd.tmp → cmd.after S' v p = cmd.after S v p := by
  intro p hp
  cases v with
  | refused e => exact h p hp
  | failed e => rw [after, after, Function.update_of_ne hp, Function.update_of_ne hp, h p hp]
  | written W =>
    by_cases hout : p = cmd.output
    · rw [hout, after_output, after_output]
    · rw [after_of_ne cmd S' _ hp hout, after_of_ne cmd S _ hp hout, h p hp]

/-- On a store that only lost or gained a temporary file, a command has the effect that it has
without this change. -/
theorem Effect.recovers {cmd : Command} {S S' S'' : Store} {r : Except Stop Unit}
    (hinput : cmd.input ≠ cmd.tmp) (h : ∀ p, p ≠ cmd.tmp → S' p = S p)
    (heffect : cmd.Effect P S' r S'') : cmd.Recovers P S r S'' := by
  have hmay : cmd.MayWrite S' ↔ cmd.MayWrite S := by
    rw [MayWrite, MayWrite, h _ cmd.tmp_ne_output.symm]
  left
  cases heffect with
  | present hno => exact ⟨S, .present (mt hmay.mpr hno), h⟩
  | missing hyes hnone => exact ⟨S, .missing (hmay.mp hyes) ((h _ hinput).symm.trans hnone), h⟩
  | input hyes hX hv =>
    exact ⟨_, .input (hmay.mp hyes) ((h _ hinput).symm.trans hX) hv, after_congr h _⟩

/-- On a store in which a run has done its work, a command is refused, or fails, or does it
again. -/
theorem Effect.recovers_of_produces {cmd : Command} {S S' S'' : Store} {r : Except Stop Unit}
    {X W : Bytes} (hinput : cmd.input ≠ cmd.tmp) (hio : cmd.input ≠ cmd.output)
    (hframe : ∀ p, p ≠ cmd.tmp → p ≠ cmd.output → S' p = S p) (hX : S cmd.input = some X)
    (hprod : cmd.Produces P X W) (hW : S' cmd.output = some W) (heffect : cmd.Effect P S' r S'') :
    cmd.Recovers P S r S'' := by
  have hX' : S' cmd.input = some X := (hframe _ hinput hio).trans hX
  cases heffect with
  | present hno => exact .inr ⟨_, X, W, rfl, fun _ => rfl, hX, hprod, hW, hframe⟩
  | missing _ hnone =>
    rw [hX'] at hnone
    cases hnone
  | @input X₁ v hyes hX₁ hv =>
    -- the output is there, so it may be overwritten
    have hforce : cmd.force = true := by
      refine hyes.resolve_right fun hnone => ?_
      rw [hW] at hnone
      cases hnone
    have hout : cmd.output ≠ cmd.tmp := cmd.tmp_ne_output.symm
    cases v with
    | refused e =>
      exact .inr ⟨e, X, W, rfl, fun h => by simp [hforce] at h, hX, hprod, hW, hframe⟩
    | failed e =>
      refine .inr ⟨e, X, W, rfl, fun h => by simp [hforce] at h, hX, hprod, ?_, fun p hp hpo => ?_⟩
      · exact (Function.update_of_ne hout _ _).trans hW
      · exact (Function.update_of_ne hp _ _).trans (hframe p hp hpo)
    | written W₁ =>
      have hX₀ : S cmd.input = some X₁ := (hframe _ hinput hio).symm.trans hX₁
      refine .inl ⟨_, .input (.inl hforce) hX₀ hv, fun p hp => ?_⟩
      by_cases hpo : p = cmd.output
      · rw [hpo, after_output, after_output]
      · rw [after_of_ne cmd S' _ hp hpo, after_of_ne cmd S _ hp hpo, hframe p hp hpo]

end Command

/-- Recovery from a crash. A command is killed after any number of its steps, with any failures
among them, and run again, alone, on a system that fails nothing. With enough fuel the second run
ends, and it ends in the effect that the command has on the store before the first run, its
temporary file aside, or it returns an error, without `--force` that the output exists, and the
first run has left a whole product at the output and changed nothing else. -/
theorem crash_recovery (P : Primitives) (cmd : Command) (fs₀ : Fs) (hown : cmd.tmp ≠ cmd.input)
    (hio : cmd.output ≠ cmd.input)
    (hlen : ∀ X, fs₀.content cmd.input = some X → X.length < 2 ^ 64) (fuel₀ : ℕ)
    (cs : List Choice) :
    ∃ N, ∀ fuel, N ≤ fuel → ∀ cs' : ℕ → Choice, (∀ n, (cs' n).Serves) → ∃ n x t r,
      Prog.driveFor exec cs' n
        (cmd.prog P fuel, (Prog.drive exec cs (cmd.prog P fuel₀, fs₀)).2) = (x, t) ∧
        x.returned = some r ∧ cmd.Recovers P fs₀.content r t.content := by
  have hstart : CutOff P cmd fs₀ fs₀ := ⟨fun p _ _ => .refl p fs₀, .inl rfl⟩
  obtain ⟨hframe, hout⟩ := (prog_cutOff P fuel₀ hown).drive_keeping
    (Prog.Meets.of_forall (fun _ _ _ => trivial) cs _ _) hstart
  generalize (Prog.drive exec cs (cmd.prog P fuel₀, fs₀)).2 = fs at hframe hout
  have hinput : fs.content cmd.input = fs₀.content cmd.input :=
    (hframe _ hown.symm hio.symm).content_eq
  have hends : ∃ N, ∀ fuel, N ≤ fuel →
      (cmd.prog P fuel).Ends exec (onReliable cmd) (cmd.Done P fs) fs :=
    prog_ends P hown fun X hX => hlen X (hinput ▸ hX)
  obtain ⟨N, hN⟩ := hends
  refine ⟨N, fun fuel hfuel cs' hcs' => ?_⟩
  obtain ⟨n, r, hr, heffect⟩ := (ends_alone (hN fuel hfuel)).exists_returned fun n _ _ => hcs' n
  refine ⟨n, _, _, r, rfl, hr, ?_⟩
  obtain hsame | ⟨W, hW, X, hX, hprod⟩ := hout
  · refine heffect.recovers hown.symm fun p hp => ?_
    by_cases hpo : p = cmd.output
    · rw [hpo, hsame]
    · exact (hframe p hp hpo).content_eq
  · exact heffect.recovers_of_produces hown.symm hio.symm
      (fun p hp hpo => (hframe p hp hpo).content_eq) hX hprod hW

open Examples in
/-- An encryption of one byte that is killed after its temporary file has been made. -/
theorem crash_recovery_oneByte :
    ∃ fuel n x t r, Prog.driveFor exec (fun _ => {}) n (encryptAB.prog transparent fuel,
        (Prog.drive exec (List.replicate 8 {}) (encryptAB.prog transparent 100, oneByte)).2) =
          (x, t) ∧
      x.returned = some r ∧ encryptAB.Recovers transparent oneByte.content r t.content := by
  have hlen : ∀ X, oneByte.content encryptAB.input = some X → X.length < 2 ^ 64 := by
    intro X hX
    have hone : oneByte.content encryptAB.input = some [7] := by decide +kernel
    obtain rfl := Option.some.inj (hX.symm.trans hone)
    decide
  obtain ⟨N, hN⟩ := crash_recovery transparent encryptAB oneByte (by decide +kernel)
    (by decide +kernel) hlen 100 (List.replicate 8 {})
  exact ⟨N, hN N le_rfl _ fun _ => ⟨rfl, by decide⟩⟩

end Cry
