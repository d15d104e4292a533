import Cry.Cipher.Isolation
import Cry.Cipher.Model

/-!
# Inputs that are refused

A decryption under a wrong passphrase, or of a file whose header is not authentic, ends before
anything has been made: there is no temporary file at any moment, whatever fails.

## Main results

* `Command.refuses_of_readsHeader`: a file whose header is refused is refused;
* `prog_quiet`: a command whose input is refused changes nothing and does not succeed;
* `refused_unseen`: nobody sees that such commands have run.
-/

namespace Cry

open Rust Effects Fs

variable {P : Primitives}

/-- The work on the input never gets as far as the temporary file. -/
def Command.Refuses (P : Primitives) (cmd : Command) (X : Bytes) : Prop :=
  ∀ v, cmd.Gives P X v → ∃ e, v = .refused e

/-- The contract of a command that changes nothing. -/
def quiet (cmd : Command) : Contract FsOp Choice Fs where
  allowed _ _ _ := True
  rely := (isolated cmd).rely
  guar s t := t = s
  rely_refl := (isolated cmd).rely_refl
  rely_trans := (isolated cmd).rely_trans
  guar_refl _ := rfl

/-- A header that is refused is not accepted. -/
theorem ReadsHeader.not_ok {passphrase F t : Bytes} {e : Stop} {key : U8Array 32} {header : Header}
    (h : ReadsHeader P passphrase F (.error e)) :
    ¬ReadsHeader P passphrase F (.ok (key, header, t)) := by
  intro hok
  generalize hF : F = F' at hok
  cases hok with
  | @accepted raw _ _ _ hkey hparse =>
    cases h with
    | short hshort =>
      rw [hF, List.length_append, U8Array.length_val] at hshort
      omega
    | @kdf raw' t' _ hkey' =>
      obtain ⟨hraw, -⟩ := List.append_inj hF (by simp)
      rw [Subtype.ext hraw, hkey] at hkey'
      cases hkey'
    | @refused raw' key' t' _ hkey' hparse' =>
      obtain ⟨hraw, -⟩ := List.append_inj hF (by simp)
      rw [Subtype.ext hraw, hkey] at hkey'
      obtain rfl := Except.ok.inj hkey'
      rw [hraw, hparse] at hparse'
      cases hparse'

/-- So a decryption of a file with such a header is refused. -/
theorem Command.refuses_of_readsHeader {plainPath cipherPath : Path} {passphrase F : Bytes}
    {force : Bool} {e : Stop} (h : ReadsHeader P passphrase F (.error e)) :
    (Command.decrypt plainPath cipherPath passphrase force).Refuses P F := by
  intro v hv
  cases hv with
  | rejected => exact ⟨_, rfl⟩
  | unopened hheader => exact absurd hheader h.not_ok
  | opened hheader => exact absurd hheader h.not_ok

/-- A key for an encryption lets it go on to the chunks. -/
theorem Command.Refuses.no_key {plainPath cipherPath : Path} {passphrase X : Bytes}
    {algorithm : Algorithm} {force : Bool}
    (h : (Command.encrypt plainPath cipherPath passphrase algorithm force).Refuses P X)
    (salt : U8Array 16) (key : U8Array 32) : deriveKey P passphrase salt.val ≠ .ok key := by
  intro hkey
  obtain ⟨x, W, hbody⟩ := exists_sealsBody P key
    (sealedHeader algorithm salt (checksum 12 []) X) (i := 0) (by norm_num) (blocks X)
  cases x with
  | error e =>
    obtain ⟨e', hv⟩ := h _ (.unsealed hkey hbody)
    cases hv
  | ok n =>
    obtain ⟨e', hv⟩ := h _ (.sealed hkey hbody)
    cases hv

/-- A header that is accepted lets a decryption go on to the frames. -/
theorem Command.Refuses.no_header {plainPath cipherPath : Path} {passphrase : Bytes} {force : Bool}
    {raw : U8Array headerLen} {t : Bytes} {key : U8Array 32} {header : Header}
    (h : (Command.decrypt plainPath cipherPath passphrase force).Refuses P (raw.val ++ t))
    (hkey : deriveKey P passphrase (rawSalt raw) = .ok key) :
    Header.parse P key raw.val ≠ some (.ok header) := by
  intro hparse
  obtain ⟨x, W, hbody⟩ := exists_readsBody P key header (i := 0) (by norm_num) t
  cases hx : x.bind (checkCount header.chunkCount) with
  | error e =>
    obtain ⟨e', hv⟩ := h _ (.unopened (.accepted hkey hparse) hbody hx)
    cases hv
  | ok =>
    obtain ⟨e', hv⟩ := h _ (.opened (.accepted hkey hparse) hbody hx)
    cases hv

/-- A command whose input is refused changes nothing, whatever fails, and does not succeed. -/
theorem prog_quiet (fuel : ℕ) {cmd : Command} {fs₀ : Fs} {X : Bytes} (hown : cmd.tmp ≠ cmd.input)
    (hX : fs₀.content cmd.input = some X) (hrefuses : cmd.Refuses P X) :
    (cmd.prog P fuel).Satisfies exec (quiet cmd) (fun r _ => r ≠ .ok ()) fs₀ := by
  have hrely : ∀ s t, Keeps cmd.input fs₀ s → (quiet cmd).rely s t → Keeps cmd.input fs₀ t :=
    fun s t hs hst => hs.trans hst.1
  cases cmd with
  | encrypt plainPath cipherPath passphrase algorithm force =>
    refine (satisfies_of_readOnly uses_refuseOverwrite hrely (.refl _ fs₀)).bind ?_ (by simp)
    rintro _ s hs
    refine (encryptHeader_satisfies (P := P) plainPath passphrase algorithm hrely hs).bind ?_
      (by simp)
    rintro ⟨key, header⟩ t ⟨-, hres⟩
    exact absurd (hres key header rfl).1 (hrefuses.no_key _ _)
  | decrypt plainPath cipherPath passphrase force =>
    refine (satisfies_of_readOnly uses_refuseOverwrite hrely (.refl _ fs₀)).bind ?_ (by simp)
    rintro _ s hs
    refine Prog.Satisfies.bind (K := quiet _) ((decryptHeader_isolated passphrase hown hs).of_uses
      uses_decryptHeader (fun _ _ hst => hst) (fun _ _ _ hc => hc)
        fun o c s ho => exec_of_readOnly ho c s) ?_ (by simp)
    rintro ⟨input, reader, key, header⟩ t ⟨-, hres⟩
    obtain ⟨hinput, raw, hdata, hkey, hparse⟩ := hres input reader key header rfl
    -- the content of the input starts with this header
    rw [content, hinput, Option.map_some, hdata] at hX
    obtain rfl := Option.some.inj hX
    exact absurd hparse (hrefuses.no_header hkey)

section Interleaved

variable {ι η : Type} [DecidableEq ι]

/-- Commands whose inputs are refused leave no trace. Side by side with each other and with others
that leave their paths alone, at every moment of every interleaving and whatever fails, the file
system is what the others alone have made of it, and none of the commands has succeeded. -/
theorem refused_unseen (P : Primitives) {fuel : ℕ} {cmds : ι → Command} {fs₀ : Fs}
    (env : η → Fs → Fs) (hown : ∀ i, (cmds i).tmp ≠ (cmds i).input)
    (hrefuses : ∀ i, ∃ X, fs₀.content (cmds i).input = some X ∧ (cmds i).Refuses P X)
    (hothers : ∀ e s i, Keeps (cmds i).input s (env e s) ∧ Keeps (cmds i).tmp s (env e s) ∧
      Keeps (cmds i).output s (env e s))
    (es : List (Event ι Choice η)) :
    (Config.exec exec env es (sideBySide P fuel cmds fs₀)).shared = Event.others env es fs₀ ∧
      ∀ i, ((Config.exec exec env es (sideBySide P fuel cmds fs₀)).procs i).prog.returned ≠
        some (.ok ()) := by
  have hspec : ∀ i, ((sideBySide P fuel cmds fs₀).procs i).prog.Satisfies exec (quiet (cmds i))
      (fun r _ => r ≠ .ok ()) fs₀ := by
    intro i
    obtain ⟨X, hX, hrefuse⟩ := hrefuses i
    exact prog_quiet fuel (hown i) hX hrefuse
  have hquiet : ∀ i s t, (quiet (cmds i)).guar s t → t = s := fun _ _ _ h => h
  have hfits : Config.Along exec env (Config.Fits env fun i => quiet (cmds i)) es
      (sideBySide P fuel cmds fs₀) := by
    refine Config.along_of_forall (fun cfg e => ?_) es _
    cases e with
    | run j c => exact Prog.admits_of_forall (fun _ _ _ => trivial) c _ _
    | other e => exact fun i => hothers e cfg.shared i
  refine ⟨Config.exec_unseen hquiet hspec hfits, fun i hret => ?_⟩
  have hcompat : ∀ i j, i ≠ j → ∀ s t, (quiet (cmds i)).guar s t → (quiet (cmds j)).rely s t := by
    intro i j _ s t h
    rw [hquiet i s t h]
    exact (quiet (cmds j)).rely_refl s
  exact (Config.exec_satisfies hcompat hspec hfits i).returned hret rfl

end Interleaved

namespace Examples

/-- The header of an empty file, with a tag that is not its own. -/
def forged : Bytes := emptyHeader.preHmacBytes ++ List.replicate 32 0

/-- The file `a` that it makes up. -/
def forgedA : Fs := Fs.ofFile ⟨[], utf8 "a"⟩ forged

/-- The commands that decrypt `a` to two outputs. -/
def decryptTo (i : Bool) : Command :=
  .decrypt ⟨[], if i then utf8 "c" else utf8 "d"⟩ ⟨[], utf8 "a"⟩ [] false

/-- Another party removes `b`. -/
def removeB (_ : Unit) (fs : Fs) : Fs := fs.remove ⟨[], utf8 "b"⟩

/-- The commands start together and are run to their ends. -/
def bothToTheEnd : List (Event Bool Choice Unit) :=
  [.run true {}, .run false {}, .other ()] ++ List.replicate 4 (.run true {}) ++
    List.replicate 4 (.run false {})

end Examples

open Examples in
/-- Two decryptions of a file whose header is not authentic end with that error, and nobody has seen
them. -/
theorem refused_unseen_forgedA :
    (Config.exec exec removeB bothToTheEnd (sideBySide transparent 100 decryptTo forgedA)).shared =
        forgedA.remove ⟨[], utf8 "b"⟩ ∧
      ∀ i, ((Config.exec exec removeB bothToTheEnd
          (sideBySide transparent 100 decryptTo forgedA)).procs i).prog.returned =
        some (.error (.err .headerTampered)) := by
  have hcontent : forgedA.content ⟨[], utf8 "a"⟩ = some (forged ++ []) := by decide +kernel
  have hparse : Header.parse transparent (checksum 32 (emptyHeader.salt.val)) forged =
      some (.error (.err .headerTampered)) := by
    decide +kernel
  have hheader : ReadsHeader transparent [] (forged ++ []) (.error (.err .headerTampered)) :=
    @ReadsHeader.refused _ _ ⟨forged, by decide +kernel⟩ _ _ _ rfl hparse
  have hpaths : ∀ i, (⟨[], utf8 "b"⟩ : Path) ≠ (decryptTo i).input ∧
      (⟨[], utf8 "b"⟩ : Path) ≠ (decryptTo i).tmp ∧
        (⟨[], utf8 "b"⟩ : Path) ≠ (decryptTo i).output := by
    decide +kernel
  refine ⟨(refused_unseen transparent removeB (by decide +kernel)
    (fun i => ⟨_, hcontent, Command.refuses_of_readsHeader hheader⟩)
    (fun _ s i => ⟨keeps_remove (hpaths i).1.symm, keeps_remove (hpaths i).2.1.symm,
      keeps_remove (hpaths i).2.2.symm⟩) _).1, ?_⟩
  decide +kernel

end Cry
