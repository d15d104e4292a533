import Cry.Cipher.Isolation
import Cry.Cipher.Model
import Cry.Rust.Reliable
import Mathlib.Data.Fintype.Order

/-!
# Commands refine their model

The programs of the two commands, with their files, buffers and partial reads and writes, against
the single step of the model. On a reliable system a command ends, whatever its reads and writes
serve and whatever happens to other paths, and its result and its three paths are then as after an
effect of the model on the store at the start.

## Main results

* `prog_ends`: a command ends in an effect of the model;
* `commands_refine`: commands side by side that leave each other's paths alone all end in every fair
  interleaving, each in an effect of the model on the store at the start;
* `ends_alone`: alone, a command takes the whole store to one of the model;
* `encrypt_then_decrypt`: encrypting a file and decrypting the result gives the file back.
-/

namespace Cry

open Rust Effects Fs Framing

variable {P : Primitives}

/-- The contract of a command on a reliable system: it touches what it may touch, and relies on its
three paths being left alone. -/
def onReliable (cmd : Command) : Contract FsOp Choice Fs :=
  { isolated cmd with allowed := fun _ c _ => c.Serves }

theorem reliable_onReliable (cmd : Command) : Reliable (onReliable cmd) := fun _ _ _ h => h

/-- Input and output are as they were. -/
def Untouched (cmd : Command) (fs₀ fs : Fs) : Prop :=
  Keeps cmd.input fs₀ fs ∧ Keeps cmd.output fs₀ fs

/-- Until it publishes its output, a command leaves input and output as they were, and its temporary
path names its own file. -/
def Working (cmd : Command) (fs₀ : Fs) (file : Option ℕ) (fs : Fs) : Prop :=
  Untouched cmd fs₀ fs ∧ ∀ i, file = some i → fs.names cmd.tmp = some i

/-- The paths of a command hold what they hold in the store. -/
def Command.Shows (cmd : Command) (fs : Fs) (S : Store) : Prop :=
  ∀ p, p = cmd.input ∨ p = cmd.tmp ∨ p = cmd.output → fs.content p = S p

/-- A command has ended in an effect of the model. -/
def Command.Done (P : Primitives) (cmd : Command) (fs₀ : Fs) (r : Except Stop Unit) (fs : Fs) :
    Prop :=
  ∃ S, cmd.Effect P fs₀.content r S ∧ cmd.Shows fs S

section Command

variable {cmd : Command} {fs₀ : Fs} {fuel : ℕ}

theorem Untouched.of_rely {s t : Fs} (h : Untouched cmd fs₀ s) (hst : (onReliable cmd).rely s t) :
    Untouched cmd fs₀ t :=
  ⟨h.1.trans hst.1, h.2.trans hst.2.2⟩

/-- What the others do leaves the paths of a command as they are. -/
theorem Command.Shows.of_rely {s t : Fs} {S : Store} (h : cmd.Shows s S)
    (hst : (onReliable cmd).rely s t) : cmd.Shows t S := by
  rintro p hp
  rw [← h p hp]
  obtain rfl | rfl | rfl := hp
  · exact hst.1.content_eq
  · exact hst.2.1.content_eq
  · exact hst.2.2.content_eq

/-- While a command works, it has its input and its temporary file to itself. -/
theorem exclusive_working {input : ℕ} {file : Option ℕ} (hown : cmd.tmp ≠ cmd.input)
    (hinput : fs₀.names cmd.input = some input) :
    Exclusive (onReliable cmd) input file (fs₀.data input) (Working cmd fs₀ file) where
  rely := by
    rintro s t ⟨hkeeps, hname⟩ ⟨hin, htmp, hout⟩
    exact ⟨⟨⟨hkeeps.1.trans hin, hkeeps.2.trans hout⟩, fun i hi => htmp.1.trans (hname i hi)⟩,
      fun i hi => htmp.2 i (hname i hi)⟩
  input h := h.1.1.2 input hinput
  write := by
    rintro s i hi ⟨hkeeps, hname⟩ off bs
    have hothers : ∀ p, p ≠ cmd.tmp → Keeps p s (s.write i off bs) :=
      fun p hp => keeps_write fun h => hp (s.inj h (hname i hi))
    exact ⟨fun p hp _ => hothers p hp, ⟨hkeeps.1.trans (hothers _ hown.symm),
      hkeeps.2.trans (hothers _ cmd.tmp_ne_output.symm)⟩, hname⟩

/-- Writing the body ends. The temporary file then holds what the body has written, and the result
is the one of the body, followed by the comparison of counts. -/
theorem writeBody_ends {K : Contract FsOp Choice Fs} {input file : ℕ} {X R : Bytes}
    {Held : Fs → Prop} (hK : Reliable K) (hex : Exclusive K input (some file) X Held)
    {reader : ReadBuf} {body : StreamProg Stop UInt64} {chunkCount : UInt64}
    {Q : Except Stop UInt64 → Bytes → Prop} (hbody : body.Careful)
    (hR : R = reader.ahead ++ X.drop reader.off)
    (hcomp : body.Computes fuel R [] fun res _ w => Q res w) {fs : Fs} (hfs : Held fs)
    (hempty : fs.data file = []) :
    (writeBody fuel input file reader body chunkCount).Ends exec K (fun r t => Held t ∧
      ∃ res, Q res (t.data file) ∧ r = res.bind (checkCount chunkCount)) fs := by
  have hstart : Buffered X (some file) fs { reader } R [] := by
    refine ⟨hR, fun i hi => ?_⟩
    obtain rfl := Option.some.inj hi
    exact ⟨by rw [hempty]; rfl, by rw [hempty]; rfl⟩
  refine (ends_onFiles hK hex hbody (fun hnone => by cases hnone) hstart hcomp hfs).bind ?_
    (by simp)
  rintro _ t ⟨res, buffers, R', w, heq, ht, hlt, hQ, -, hpending⟩
  obtain rfl := Except.ok.inj heq
  have hw := hpending file rfl
  have hbuf : buffers.writer.buf.length < fuel := by
    refine lt_of_le_of_lt ?_ hlt
    rw [← hw.2, List.length_append]
    exact Nat.le_add_left _ _
  cases res with
  | error e =>
    -- the writer is dropped, which puts the rest of the bytes into the file
    refine (buffers.writer.drop_ends hK hex hbuf ht).bind ?_ (by simp)
    rintro _ u ⟨-, hu, hdata⟩ v hv
    obtain ⟨hHeld, hsame⟩ := hex.rely hu hv
    refine ⟨hHeld, .error e, ?_, rfl⟩
    rwa [hsame file rfl, hdata w hw]
  | ok actualChunks =>
    refine (buffers.writer.flush_ends hK hex hbuf ht).bind ?_ (by simp)
    rintro _ u ⟨writer, heq, hu, hflush⟩
    obtain rfl := Except.ok.inj heq
    obtain ⟨hw', hnil⟩ := hflush w hw
    refine (writer.drop_ends hK hex (by rw [hnil]; exact Nat.zero_lt_of_lt hlt) hu).bind ?_
      (by simp)
    rintro _ v ⟨-, hv, hdata⟩
    rw [ofIo_ok, Prog.ofExcept_ok, Prog.bind_eq, Prog.pure_bind]
    refine Prog.Ends.ofExcept fun y hy => ?_
    obtain ⟨hHeld, hsame⟩ := hex.rely hv hy
    refine ⟨hHeld, .ok actualChunks, ?_, rfl⟩
    rwa [hsame file rfl, hdata w hw']

/-- The closure of a command ends with the temporary file holding what the body has written. -/
theorem writeOutput_ends (cmd : Command) {input : ℕ} (reader : ReadBuf)
    {body : StreamProg Stop UInt64} {chunkCount : UInt64} {Q : Except Stop UInt64 → Bytes → Prop}
    (hown : cmd.tmp ≠ cmd.input) (hinput : fs₀.names cmd.input = some input) (hbody : body.Careful)
    (hcomp : body.Computes fuel (reader.ahead ++ (fs₀.data input).drop reader.off) []
      fun res _ w => Q res w) {fs : Fs} (hfs : Untouched cmd fs₀ fs) :
    (writeOutput fuel cmd.tmp input reader body chunkCount).Ends exec (onReliable cmd)
      (fun r t => Untouched cmd fs₀ t ∧ ∃ res w, Q res w ∧ t.content cmd.tmp = some w ∧
        r = res.bind (checkCount chunkCount)) fs := by
  simp only [writeOutput, Prog.bind_eq, Prog.perform_bind]
  intro s hs c hc
  have hkeeps : ∀ p, p ≠ cmd.tmp → Keeps p s (s.create cmd.tmp).2 := fun p hp => keeps_create hp
  simp only [exec, Choice.orFail, hc.1, orIo_ok, Prog.pure_bind]
  refine ⟨fun p hp _ => hkeeps p hp, ?_⟩
  -- the temporary file is new and empty
  have hfs' := hfs.of_rely hs
  have hmade : Working cmd fs₀ (some (s.create cmd.tmp).1) (s.create cmd.tmp).2 := by
    refine ⟨⟨hfs'.1.trans (hkeeps _ hown.symm), hfs'.2.trans (hkeeps _ cmd.tmp_ne_output.symm)⟩,
      fun i hi => ?_⟩
    rw [names_create, if_pos rfl, hi]
  refine (writeBody_ends (reliable_onReliable cmd) (exclusive_working hown hinput) hbody rfl hcomp
    hmade (data_create_self _)).mono ?_
  rintro r t ⟨⟨ht, hname⟩, res, hQ, hr⟩
  refine ⟨ht, res, _, hQ, ?_, hr⟩
  rw [content, hname _ rfl, Option.map_some]

/-- After the rename, the paths are as the model has them after written bytes. -/
theorem shows_rename {t : Fs} {i : ℕ} (hown : cmd.tmp ≠ cmd.input) (ht : Untouched cmd fs₀ t)
    (hi : t.names cmd.tmp = some i) :
    cmd.Shows (t.rename cmd.tmp cmd.output) (cmd.after fs₀.content (.written (t.data i))) := by
  have hout : (t.rename cmd.tmp cmd.output).content cmd.output = some (t.data i) := by
    rw [content, names_rename hi, if_pos rfl, Option.map_some, data_rename]
  rintro p (rfl | rfl | rfl)
  · by_cases hsame : cmd.input = cmd.output
    · rw [hsame, hout, Command.after_output]
    · rw [Command.after_of_ne cmd _ _ hown.symm hsame,
        (keeps_rename hown.symm hsame).content_eq, ht.1.content_eq]
  · rw [content, names_rename hi, if_neg cmd.tmp_ne_output, if_pos rfl, Command.after,
      Function.update_of_ne cmd.tmp_ne_output, Function.update_self, Option.map_none]
  · rw [hout, Command.after_output]

/-- After the removal, the paths are as the model has them after a failure. -/
theorem shows_remove {t : Fs} (e : Stop) (hown : cmd.tmp ≠ cmd.input) (ht : Untouched cmd fs₀ t) :
    cmd.Shows (t.remove cmd.tmp) (cmd.after fs₀.content (.failed e)) := by
  rintro p (rfl | rfl | rfl)
  · rw [Command.after, Function.update_of_ne hown.symm, (keeps_remove hown.symm).content_eq,
      ht.1.content_eq]
  · rw [content, names_remove, if_pos rfl, Command.after, Function.update_self, Option.map_none]
  · rw [Command.after, Function.update_of_ne cmd.tmp_ne_output.symm,
      (keeps_remove cmd.tmp_ne_output.symm).content_eq, ht.2.content_eq]

/-- An operation of a reliable system that changes nothing, followed by a program that ends. -/
theorem ends_readOnly {α : Type} {Q : Except Stop α → Fs → Prop} {o : FsOp}
    {k : FsRes o → FsProg Stop α} {I : Fs → Prop} (ho : o.ReadOnly)
    (hrely : ∀ s t, I s → (onReliable cmd).rely s t → I t)
    (hk : ∀ c t, c.Serves → I t → (k (exec o c t).1).Ends exec (onReliable cmd) Q t) {fs : Fs}
    (hfs : I fs) : (Prog.op o k).Ends exec (onReliable cmd) Q fs := by
  intro t ht c hc
  rw [exec_of_readOnly ho]
  exact ⟨(isolated cmd).guar_refl t, hk c t hc (hrely _ _ hfs ht)⟩

/-- Publishing ends in an effect of the model, when the closure has left the written bytes in the
temporary file or has failed as the model says. -/
theorem publish_ends (cmd : Command) {X : Bytes} {closure : FsProg Stop Unit}
    (hown : cmd.tmp ≠ cmd.input) (hmay : cmd.MayWrite fs₀.content)
    (hX : fs₀.content cmd.input = some X) {fs : Fs}
    (hclosure : closure.Ends exec (onReliable cmd) (fun r t => Untouched cmd fs₀ t ∧
      ∃ w, t.content cmd.tmp = some w ∧ ((r = .ok () ∧ Command.Gives P cmd X (.written w)) ∨
        ∃ e, r = .error (.err e) ∧ Command.Gives P cmd X (.failed (.err e)))) fs) :
    (publish cmd.tmp cmd.output closure).Ends exec (onReliable cmd) (cmd.Done P fs₀) fs := by
  rw [publish, Prog.bind_eq]
  have hattempt : (closure.attempt : FsProg Stop (Except Stop Unit)).Ends exec (onReliable cmd)
      (fun r t => Untouched cmd fs₀ t ∧ ∃ w r', r = .ok r' ∧ t.content cmd.tmp = some w ∧
        ((r' = .ok () ∧ Command.Gives P cmd X (.written w)) ∨
          ∃ e, r' = .error (.err e) ∧ Command.Gives P cmd X (.failed (.err e)))) fs := by
    refine Prog.Ends.attempt (hclosure.mono ?_)
    rintro r t ⟨ht, w, hw, hr⟩
    exact ⟨ht, w, r, rfl, hw, hr⟩
  refine hattempt.bind ?_ (by simp)
  rintro _ t ⟨ht, w, r, heq, hw, hr⟩
  obtain rfl := Except.ok.inj heq
  obtain ⟨rfl, hgives⟩ | ⟨e, rfl, hgives⟩ := hr
  · simp only [Prog.bind_eq, Prog.perform_bind]
    intro s hs c hc
    have hs' := ht.of_rely hs
    rw [← hs.2.1.content_eq, content, Option.map_eq_some_iff] at hw
    obtain ⟨i, hi, rfl⟩ := hw
    simp only [exec, Choice.orFail, hc.1, hi, orIo_ok, Prog.pure_bind]
    refine ⟨fun p hp hout => keeps_rename hp hout, ?_⟩
    -- after the rename only the size of the output is asked for
    have hmoved := shows_rename hown hs' hi
    refine ends_readOnly (o := .metadata cmd.output) trivial
      (fun u v hu huv => Command.Shows.of_rely hu huv) ?_ hmoved
    intro c' u hc' hu
    have hout := hu cmd.output (.inr (.inr rfl))
    rw [Command.after_output] at hout
    simp only [exec, Choice.orFail, hc'.1, hout, orIo_ok, Prog.pure_bind]
    exact fun v hv => ⟨_, .input hmay hX hgives, hu.of_rely hv⟩
  · simp only [Prog.bind_eq, Prog.perform_bind]
    intro s hs c hc
    have hs' := ht.of_rely hs
    rw [← hs.2.1.content_eq, content, Option.map_eq_some_iff] at hw
    obtain ⟨i, hi, -⟩ := hw
    simp only [exec, Choice.orFail, hc.1, hi]
    exact ⟨fun p hp _ => keeps_remove hp, fun v hv =>
      ⟨_, .input hmay hX hgives, (shows_remove _ hown hs').of_rely hv⟩⟩

/-! ## Before the temporary file is made -/

/-- As long as nobody has touched its paths, a command sees the store at the start. -/
theorem shows_of_rely {t : Fs} (ht : (onReliable cmd).rely fs₀ t) : cmd.Shows t fs₀.content :=
  Command.Shows.of_rely (fun _ _ => rfl) ht

/-- The guard decides by the output. -/
theorem refuseOverwrite_ends {fs : Fs} (hfs : (onReliable cmd).rely fs₀ fs) :
    (refuseOverwrite cmd.output cmd.force).Ends exec (onReliable cmd) (fun r t =>
      (onReliable cmd).rely fs₀ t ∧ ((r = .ok () ∧ cmd.MayWrite fs₀.content) ∨
        r = .error (.err (.fileExists cmd.output.display)) ∧ ¬cmd.MayWrite fs₀.content)) fs := by
  rw [refuseOverwrite, Prog.bind_eq, Prog.perform_bind]
  refine ends_readOnly (o := .pathExists cmd.output) trivial
    (fun s t hs hst => (onReliable cmd).rely_trans hs hst) ?_ hfs
  intro c t hc ht
  have hpresent : (exec (.pathExists cmd.output) c t).1 = (fs₀.content cmd.output).isSome := by
    rw [← ht.2.2.content_eq, content, Option.isSome_map]
    simp [exec, hc.1]
  rw [hpresent]
  by_cases hmay : cmd.MayWrite fs₀.content
  · have hpass : ((fs₀.content cmd.output).isSome && !cmd.force) = false := by
      obtain hforce | hnone := hmay
      · rw [hforce, Bool.not_true, Bool.and_false]
      · rw [hnone, Option.isSome_none, Bool.false_and]
    simp only [hpass, Bool.false_eq_true, if_false]
    exact fun u hu => ⟨(onReliable cmd).rely_trans ht hu, .inl ⟨rfl, hmay⟩⟩
  · have hstop : ((fs₀.content cmd.output).isSome && !cmd.force) = true := by
      rw [Command.MayWrite, not_or, Bool.not_eq_true, ← Ne, ← Option.isSome_iff_ne_none] at hmay
      rw [hmay.1, hmay.2]
      rfl
    simp only [hstop, if_true]
    exact fun u hu => ⟨(onReliable cmd).rely_trans ht hu, .inr ⟨rfl, hmay⟩⟩

/-- A random draw ends with some bytes. -/
theorem fillBytes_bind_ends {len : ℕ} {α : Type} {Q : Except Stop α → Fs → Prop}
    {k : U8Array len → FsProg Stop α}
    (hk : ∀ bs t, (onReliable cmd).rely fs₀ t → (k bs).Ends exec (onReliable cmd) Q t) {fs : Fs}
    (hfs : (onReliable cmd).rely fs₀ fs) :
    ((fillBytes len).bind k).Ends exec (onReliable cmd) Q fs := by
  simp only [fillBytes, Prog.bind_eq, Prog.perform_bind]
  refine ends_readOnly (o := .fillBytes len) trivial
    (fun s t hs hst => (onReliable cmd).rely_trans hs hst) ?_ hfs
  intro c t hc ht
  simp only [exec, Choice.orFail, hc.1]
  exact hk _ t ht

end Command

/-- The header of an encryption commits to the length of the input, under a key that is derived with
the salt that was drawn. -/
theorem encryptHeader_ends {plainPath cipherPath : Path} {passphrase : Bytes}
    {algorithm : Algorithm} {force : Bool} {fs₀ fs : Fs}
    (hfs : (onReliable (.encrypt plainPath cipherPath passphrase algorithm force)).rely fs₀ fs) :
    (encryptHeader P plainPath passphrase algorithm).Ends exec
      (onReliable (.encrypt plainPath cipherPath passphrase algorithm force)) (fun r t =>
        (onReliable (.encrypt plainPath cipherPath passphrase algorithm force)).rely fs₀ t ∧
          ((fs₀.content plainPath = none ∧ r = .error (.err (.io .notFound))) ∨
            ∃ X salt nonce, fs₀.content plainPath = some X ∧
              r = (deriveKey P passphrase salt.val).map fun key =>
                (key, Command.sealedHeader algorithm salt nonce X))) fs := by
  generalize hcmd : Command.encrypt plainPath cipherPath passphrase algorithm force = cmd at hfs ⊢
  have hinput : cmd.input = plainPath := by rw [← hcmd]; rfl
  have htrans : ∀ s t, (onReliable cmd).rely fs₀ s → (onReliable cmd).rely s t →
      (onReliable cmd).rely fs₀ t := fun s t hs hst => (onReliable cmd).rely_trans hs hst
  simp only [encryptHeader, Prog.bind_eq, Prog.perform_bind]
  refine ends_readOnly (o := .metadata plainPath) trivial htrans ?_ hfs
  intro c s hc hs
  have hsame : s.content plainPath = fs₀.content plainPath := hinput ▸ hs.1.content_eq
  cases hX : fs₀.content plainPath with
  | none =>
    rw [hX] at hsame
    simp only [exec, Choice.orFail, hc.1, hsame, orIo_error, Prog.throw_bind]
    exact fun t ht => ⟨htrans _ _ hs ht, .inl ⟨trivial, rfl⟩⟩
  | some X =>
    rw [hX] at hsame
    simp only [exec, Choice.orFail, hc.1, hsame, orIo_ok, Prog.pure_bind]
    refine fillBytes_bind_ends (fun salt t ht => ?_) hs
    refine fillBytes_bind_ends (fun nonce u hu => ?_) ht
    -- the rest is computed
    cases hkey : deriveKey P passphrase salt.val with
    | error e => exact fun v hv => ⟨htrans _ _ hu hv, .inr ⟨X, salt, nonce, rfl, by rw [hkey]; rfl⟩⟩
    | ok key => exact fun v hv => ⟨htrans _ _ hu hv, .inr ⟨X, salt, nonce, rfl, by rw [hkey]; rfl⟩⟩

/-! ## Encryption -/

/-- The body of an encryption writes the header and then what sealing the blocks gives. -/
theorem computes_encryptBody {fuel : ℕ} {key : U8Array 32} {header : Header} {X R W : Bytes}
    {x : Except Stop UInt64} (hR : R = X) (hbody : SealsBody P key header 0 (blocks X) x W)
    (hfuel : 21 * X.length + headerLen < fuel) :
    (encryptBody P fuel header key).Computes fuel R []
      fun res _ w => res = x ∧ w = header.bytes P key ++ W := by
  subst hR
  obtain ⟨hchunking, hflatten⟩ := chunking_blocks R
  have hcount := hchunking.length_le_flatten
  have hlen := hbody.length_le
  rw [hflatten] at hcount hlen
  intro r hr hsize
  rw [← hflatten] at hr
  obtain ⟨r', hrun⟩ := hbody.run hchunking (by norm_num) fuel
    { written := header.bytes P key } hr (by omega) rfl
  refine ⟨x, r', header.bytes P key ++ W, ?_, ?_, rfl, rfl⟩
  · rw [encryptBody, Prog.bind_eq, StreamProg.run_bind, Header.run_write_ok _ _ _ _ _ rfl,
      Prog.andThen_ok]
    exact hrun
  · rw [List.length_append, Header.length_bytes]
    omega

/-- What an encryption gives, read off the outcome of sealing the blocks. -/
theorem gives_of_sealsBody {plainPath cipherPath : Path} {passphrase X W : Bytes}
    {algorithm : Algorithm} {force : Bool} {salt : U8Array 16} {nonce : U8Array 12}
    {key : U8Array 32} {x : Except Stop UInt64} {r : Except Stop Unit}
    (hlen : X.length < 2 ^ 64) (hkey : deriveKey P passphrase salt.val = .ok key)
    (hbody : SealsBody P key (Command.sealedHeader algorithm salt nonce X) 0 (blocks X) x W)
    (hr : r = x.bind (checkCount (Command.sealedHeader algorithm salt nonce X).chunkCount)) :
    (r = .ok () ∧ Command.Gives P (.encrypt plainPath cipherPath passphrase algorithm force) X
      (.written ((Command.sealedHeader algorithm salt nonce X).bytes P key ++ W))) ∨
    ∃ e, r = .error (.err e) ∧
      Command.Gives P (.encrypt plainPath cipherPath passphrase algorithm force) X
        (.failed (.err e)) := by
  obtain ⟨hchunking, hflatten⟩ := chunking_blocks X
  have hcount := hchunking.length_le_flatten
  rw [hflatten] at hcount
  cases x with
  | ok n =>
    -- the blocks are as many as the header commits to
    have hn : n = (Command.sealedHeader algorithm salt nonce X).chunkCount := by
      rw [(hbody.of_ok rfl).1, Nat.zero_add, length_blocks, ← UInt64.toNat_inj,
        Command.sealedHeader, toNat_committedChunks, UInt64.toNat_ofNat_of_lt' hlen,
        UInt64.toNat_ofNat_of_lt']
      rw [length_blocks] at hcount
      exact hcount.trans_lt hlen
    exact .inl ⟨hr.trans (checkCount_eq_ok_iff.mpr hn), .sealed hkey hbody⟩
  | error e =>
    cases e with
    | err e => exact .inr ⟨e, hr, .unsealed hkey hbody⟩
    | panic => exact absurd rfl (hbody.ne_panic (by omega))

/-- On a reliable system an encryption ends in an effect of the model. -/
theorem encryptFile_ends {plainPath cipherPath : Path} {passphrase : Bytes} {algorithm : Algorithm}
    {force : Bool} {fs₀ : Fs} {fuel : ℕ}
    (hown : (Command.encrypt plainPath cipherPath passphrase algorithm force).tmp ≠ plainPath)
    (hlen : ∀ X, fs₀.content plainPath = some X →
      X.length < 2 ^ 64 ∧ 21 * X.length + headerLen < fuel) :
    (encryptFile P fuel plainPath cipherPath passphrase algorithm force).Ends exec
      (onReliable (.encrypt plainPath cipherPath passphrase algorithm force))
      (Command.Done P (.encrypt plainPath cipherPath passphrase algorithm force) fs₀) fs₀ := by
  have hstart := (onReliable (.encrypt plainPath cipherPath passphrase algorithm force)).rely_refl
    fs₀
  refine (refuseOverwrite_ends hstart).bind ?_ ?_
  swap
  · rintro e t ⟨ht, ⟨heq, -⟩ | ⟨heq, hno⟩⟩
    · cases heq
    · rw [heq]
      exact ⟨_, .present hno, shows_of_rely ht⟩
  rintro _ s ⟨hs, ⟨-, hmay⟩ | ⟨heq, -⟩⟩
  swap
  · cases heq
  refine (encryptHeader_ends hs).bind ?_ ?_
  swap
  · rintro e t ⟨ht, ⟨hnone, heq⟩ | ⟨X, salt, nonce, hX, heq⟩⟩
    · obtain rfl := Except.error.inj heq
      exact ⟨_, .missing hmay hnone, shows_of_rely ht⟩
    · cases hkey : deriveKey P passphrase salt.val with
      | error e' =>
        rw [hkey] at heq
        obtain rfl : e = e' := Except.error.inj heq
        exact ⟨_, .input hmay hX (.kdf hkey), shows_of_rely ht⟩
      | ok key =>
        rw [hkey] at heq
        cases heq
  rintro ⟨key, header⟩ t ⟨ht, ⟨-, heq⟩ | ⟨X, salt, nonce, hX, heq⟩⟩
  · cases heq
  obtain ⟨hlt, hfuel⟩ := hlen X hX
  obtain ⟨hkey, rfl⟩ : deriveKey P passphrase salt.val = .ok key ∧
      header = Command.sealedHeader algorithm salt nonce X := by
    cases hkey : deriveKey P passphrase salt.val with
    | error e => rw [hkey] at heq; cases heq
    | ok key' =>
      rw [hkey] at heq
      obtain ⟨rfl, rfl⟩ := Prod.mk.inj (Except.ok.inj heq)
      exact ⟨rfl, rfl⟩
  -- the closure opens the input and writes the body, whose outcome the model has
  obtain ⟨x, W, hbody⟩ := exists_sealsBody P key (Command.sealedHeader algorithm salt nonce X)
    (i := 0) (by norm_num) (blocks X)
  obtain ⟨input, hinput, hdata⟩ := Option.map_eq_some_iff.mp hX
  refine publish_ends (.encrypt plainPath cipherPath passphrase algorithm force) hown hmay hX ?_
  simp only [Prog.bind_eq, Prog.perform_bind]
  refine ends_readOnly (o := .openFile plainPath) trivial
    (fun s t hs hst => (onReliable _).rely_trans hs hst) ?_ ht
  intro c u hc hu
  have hname : u.names plainPath = some input := hu.1.1.trans hinput
  simp only [exec, Choice.orFail, hc.1, hname, orIo_ok, Prog.pure_bind]
  refine (writeOutput_ends (.encrypt plainPath cipherPath passphrase algorithm force) {} hown hinput
    careful_encryptBody (computes_encryptBody hdata hbody hfuel) ⟨hu.1, hu.2.2⟩).mono ?_
  rintro r v ⟨hv, res, w, ⟨rfl, rfl⟩, hw, hr⟩
  exact ⟨hv, _, hw, gives_of_sealsBody hlt hkey hbody hr⟩

/-! ## Decryption -/

/-- Before the temporary file is made, a decryption has its input to itself. -/
theorem exclusive_reading {cmd : Command} {fs₀ : Fs} {input : ℕ}
    (hinput : fs₀.names cmd.input = some input) :
    Exclusive (onReliable cmd) input none (fs₀.data input) ((onReliable cmd).rely fs₀) where
  rely h hst :=
    ⟨(onReliable cmd).rely_trans h hst, fun i hi => (Option.some_ne_none i hi.symm).elim⟩
  input h := h.1.2 input hinput
  write hi := (Option.some_ne_none _ hi.symm).elim

/-- Reading the raw header takes it off the front of the file, or the file is too short. -/
theorem computes_readRawHeader {fuel : ℕ} {F : Bytes} (hfuel : 2 * F.length < fuel) :
    (readRawHeader fuel).Computes fuel F [] fun res R' _ =>
      (F.length < headerLen ∧ res = .error (.err (.invalidFormat
        "File too short to contain a valid header"))) ∨
      ∃ raw, F = raw.val ++ R' ∧ res = .ok raw := by
  intro r hr hsize
  rcases Nat.lt_or_ge F.length headerLen with hshort | hlong
  · obtain ⟨r', hrun⟩ := run_readExactOr_short headerLen (fun _ => .err (.invalidFormat
      "File too short to contain a valid header")) {} hr (hsize.trans_lt hfuel) hshort
    exact ⟨_, r', [], hrun, Nat.zero_lt_of_lt hfuel, .inl ⟨hshort, rfl⟩⟩
  · obtain ⟨raw, t, rfl, -⟩ := U8Array.exists_append headerLen F hlong
    obtain ⟨r', hd, -, hrun⟩ := run_readExactOr_ok fuel (fun _ => .err (.invalidFormat
      "File too short to contain a valid header")) {} hr (hsize.trans_lt hfuel)
    exact ⟨_, r', [], hrun, Nat.zero_lt_of_lt hfuel, .inr ⟨raw, by rw [hd.content_eq], rfl⟩⟩

/-- The raw header only reads. -/
theorem uses_readRawHeader {fuel : ℕ} :
    (readRawHeader fuel).Uses fun o => ∃ cap, o = .read cap := by
  have hfill : ∀ (fuel len : ℕ) (buf : Bytes),
      (fill fuel len buf : StreamProg Stop _).Uses fun o => ∃ cap, o = .read cap := by
    intro fuel len
    -- induction on the fuel: one read a round
    induction fuel with
    | zero => exact fun _ => trivial
    | succ fuel ih =>
      intro buf
      rw [fill]
      split
      · refine ⟨⟨_, rfl⟩, fun r => ?_⟩
        rcases r with e | _ | ⟨d, ds⟩
        · cases e with
          | interrupted => exact ih buf
          | _ => trivial
        · trivial
        · exact ih _
      · trivial
  refine Prog.uses_bind (Prog.uses_bind (hfill _ _ _) fun r => ?_) fun r => ?_
  · cases r with
    | error e => trivial
    | ok bs =>
      dsimp only
      split <;> trivial
  · cases r <;> trivial

/-- The part of a decryption before the temporary file is made ends as reading the header does, and
the reader has the body. -/
theorem decryptHeader_ends {cmd : Command} {fs₀ fs : Fs} {fuel input : ℕ} {passphrase : Bytes}
    {res : Except Stop (U8Array 32 × Header × Bytes)}
    (hinput : fs₀.names cmd.input = some input)
    (hres : ReadsHeader P passphrase (fs₀.data input) res)
    (hfuel : 2 * (fs₀.data input).length < fuel) (hfs : (onReliable cmd).rely fs₀ fs) :
    (decryptHeader P fuel cmd.input passphrase).Ends exec (onReliable cmd) (fun r t =>
      (onReliable cmd).rely fs₀ t ∧ (∀ e, res = .error e → r = .error e) ∧
        ∀ key header body, res = .ok (key, header, body) → ∃ reader,
          r = .ok (input, reader, key, header) ∧
            reader.ahead ++ (fs₀.data input).drop reader.off = body) fs := by
  have htrans : ∀ s t, (onReliable cmd).rely fs₀ s → (onReliable cmd).rely s t →
      (onReliable cmd).rely fs₀ t := fun s t hs hst => (onReliable cmd).rely_trans hs hst
  simp only [decryptHeader, Prog.bind_eq, Prog.perform_bind]
  refine ends_readOnly (o := .openFile cmd.input) trivial htrans (fun c s hc hs => ?_) hfs
  have hname : s.names cmd.input = some input := hs.1.1.trans hinput
  simp only [exec, Choice.orFail, hc.1, hname, orIo_ok, Prog.pure_bind]
  refine ends_readOnly (o := .fileMetadata input) trivial htrans (fun c' t hc' ht => ?_) hs
  simp only [exec, Choice.orFail, hc'.1, orIo_ok, Prog.pure_bind]
  have hstart : Buffered (fs₀.data input) none t {} (fs₀.data input) [] :=
    ⟨rfl, fun i hi => (Option.some_ne_none i hi.symm).elim⟩
  refine (ends_onFiles (reliable_onReliable cmd) (exclusive_reading hinput) careful_readExactOr
    (fun _ => uses_readRawHeader) hstart (computes_readRawHeader hfuel) ht).bind ?_ (by simp)
  rintro _ u ⟨raw?, buffers, R', w', heq, hu, -, hraw, hR', -⟩
  obtain rfl := Except.ok.inj heq
  -- from here on everything is computed from the content of the input
  generalize fs₀.data input = F at hres hraw hR' ⊢
  obtain ⟨hshort, rfl⟩ | ⟨raw, hF, rfl⟩ := hraw
  · cases hres with
    | short => exact fun v hv => ⟨htrans _ _ hu hv, by simp, by simp⟩
    | _ =>
      rw [List.length_append, U8Array.length_val] at hshort
      omega
  · rw [Prog.ofExcept_ok, Prog.pure_bind]
    cases hres with
    | short hshort =>
      rw [hF, List.length_append, U8Array.length_val] at hshort
      omega
    | @kdf raw' t' e hkey =>
      obtain ⟨hraw, -⟩ := List.append_inj hF (by simp)
      obtain rfl := Subtype.ext hraw
      rw [hkey]
      exact fun v hv => ⟨htrans _ _ hu hv, by simp, by simp⟩
    | @refused raw' key t' e hkey hparse =>
      obtain ⟨hraw, -⟩ := List.append_inj hF (by simp)
      obtain rfl := Subtype.ext hraw
      rw [hkey, Prog.ofExcept_ok, Prog.pure_bind, hparse]
      exact fun v hv => ⟨htrans _ _ hu hv, by simp, by simp⟩
    | @accepted raw' key header t' hkey hparse =>
      obtain ⟨hraw, rfl⟩ := List.append_inj hF (by simp)
      obtain rfl := Subtype.ext hraw
      rw [hkey, Prog.ofExcept_ok, Prog.pure_bind, hparse]
      refine fun v hv => ⟨htrans _ _ hu hv, by simp, ?_⟩
      rintro key' header' body heq
      obtain ⟨rfl, rfl, rfl⟩ := by simpa using heq
      exact ⟨buffers.reader, rfl, hR'.symm⟩

/-- The body of a decryption writes what reading the frames gives. -/
theorem computes_decryptChunks {fuel : ℕ} {key : U8Array 32} {header : Header} {R t W : Bytes}
    {x : Except Stop UInt64} (hR : R = t) (hbody : ReadsBody P key header 0 t x W)
    (hfuel : 2 * t.length < fuel) (hW : W.length < fuel) :
    (decryptChunks P fuel key header.nonce header.algo (headerAad P header)).Computes fuel R []
      fun res _ w => res = x ∧ w = W := by
  subst hR
  intro r hr hsize
  obtain ⟨r', hrun⟩ := hbody.run (by norm_num) fuel {} hr (hsize.trans_lt hfuel) rfl
  exact ⟨x, r', W, hrun, hW, rfl, rfl⟩

/-- What a decryption gives, read off the outcome of reading the frames. -/
theorem gives_of_readsBody {plainPath cipherPath : Path} {passphrase F t W : Bytes} {force : Bool}
    {key : U8Array 32} {header : Header} {x : Except Stop UInt64} {r : Except Stop Unit}
    (hlen : F.length < 2 ^ 64) (hheader : ReadsHeader P passphrase F (.ok (key, header, t)))
    (hbody : ReadsBody P key header 0 t x W) (hr : r = x.bind (checkCount header.chunkCount)) :
    (r = .ok () ∧
      Command.Gives P (.decrypt plainPath cipherPath passphrase force) F (.written W)) ∨
    ∃ e, r = .error (.err e) ∧
      Command.Gives P (.decrypt plainPath cipherPath passphrase force) F (.failed (.err e)) := by
  have hlt := hheader.length_lt
  subst hr
  cases hx : x.bind (checkCount header.chunkCount) with
  | ok => exact .inl ⟨rfl, .opened hheader hbody hx⟩
  | error e =>
    cases e with
    | err e => exact .inr ⟨e, rfl, .unopened hheader hbody hx⟩
    | panic =>
      -- neither the frames nor the comparison of counts panics
      cases x with
      | error e' =>
        obtain rfl : e' = .panic := Except.error.inj hx
        exact absurd rfl (hbody.ne_panic (by omega))
      | ok n =>
        have hcheck : checkCount header.chunkCount n = .error .panic := hx
        unfold checkCount at hcheck
        split at hcheck <;> cases hcheck

/-- On a reliable system a decryption ends in an effect of the model. -/
theorem decryptFile_ends {plainPath cipherPath : Path} {passphrase : Bytes} {force : Bool}
    {fs₀ : Fs} {fuel : ℕ}
    (hown : (Command.decrypt plainPath cipherPath passphrase force).tmp ≠ cipherPath)
    (hlen : ∀ F, fs₀.content cipherPath = some F → F.length < 2 ^ 64 ∧ 2 * F.length < fuel ∧
      ∀ x W, Decodes P passphrase F x W → W.length < fuel) :
    (decryptFile P fuel plainPath cipherPath passphrase force).Ends exec
      (onReliable (.decrypt plainPath cipherPath passphrase force))
      (Command.Done P (.decrypt plainPath cipherPath passphrase force) fs₀) fs₀ := by
  let cmd : Command := .decrypt plainPath cipherPath passphrase force
  have hstart : (onReliable cmd).rely fs₀ fs₀ := (onReliable cmd).rely_refl fs₀
  refine (refuseOverwrite_ends hstart).bind ?_ ?_
  swap
  · rintro e t ⟨ht, ⟨heq, -⟩ | ⟨heq, hno⟩⟩
    · cases heq
    · rw [heq]
      exact ⟨_, .present hno, shows_of_rely ht⟩
  rintro _ s ⟨hs, ⟨-, hmay⟩ | ⟨heq, -⟩⟩
  swap
  · cases heq
  cases hF : fs₀.content cipherPath with
  | none =>
    -- the input cannot be opened
    have hnone : fs₀.names cipherPath = none := content_eq_none.mp hF
    simp only [decryptHeader, Prog.bind_eq, Prog.perform_bind, Prog.bind_assoc, Prog.op_bind]
    refine ends_readOnly (o := .openFile cipherPath) trivial
      (fun s t hs hst => (onReliable cmd).rely_trans hs hst) ?_ hs
    intro c t hc ht
    have hname : t.names cipherPath = none := ht.1.1.trans hnone
    simp only [exec, Choice.orFail, hc.1, hname, orIo_error, Prog.throw_bind]
    exact fun u hu => ⟨_, .missing hmay hF, shows_of_rely ((onReliable cmd).rely_trans ht hu)⟩
  | some F =>
    obtain ⟨hlt, hfuel, hW⟩ := hlen F hF
    obtain ⟨input, hinput, rfl⟩ := Option.map_eq_some_iff.mp hF
    obtain ⟨res, hres⟩ := exists_readsHeader P passphrase (fs₀.data input)
    refine (decryptHeader_ends hinput hres hfuel hs).bind ?_ ?_
    swap
    · rintro e t ⟨ht, herr, hok⟩
      cases res with
      | error e' =>
        obtain rfl : e = e' := Except.error.inj (herr e' rfl)
        exact ⟨_, .input hmay hF (.rejected hres), shows_of_rely ht⟩
      | ok acc =>
        obtain ⟨reader, heq, -⟩ := hok acc.1 acc.2.1 acc.2.2 rfl
        cases heq
    rintro ⟨input', reader', key', header'⟩ t ⟨ht, herr, hok⟩
    cases res with
    | error e' => cases herr e' rfl
    | ok acc =>
      obtain ⟨key, header, body⟩ := acc
      obtain ⟨reader, heq, hrest⟩ := hok key header body rfl
      obtain ⟨rfl, rfl, rfl, rfl⟩ : input = input' ∧ reader = reader' ∧ key = key' ∧
          header = header' := by simpa [eq_comm] using heq
      -- the closure reads the frames, whose outcome the model has
      obtain ⟨x, W, hbody⟩ := exists_readsBody P key header (i := 0) (by norm_num) body
      have hshort := hres.length_lt
      refine publish_ends cmd hown hmay hF ?_
      refine (writeOutput_ends cmd reader hown hinput careful_decryptChunks
        (computes_decryptChunks hrest hbody (by omega) (hW _ _ (.body hres hbody)))
        ⟨ht.1, ht.2.2⟩).mono ?_
      rintro r v ⟨hv, y, w, ⟨rfl, rfl⟩, hw, hr⟩
      exact ⟨hv, _, hw, gives_of_readsBody hlt hres hbody hr⟩

/-! ## Commands side by side -/

/-- With enough fuel a command ends in an effect of the model, on a reliable system on which nobody
else touches its paths. -/
theorem prog_ends (P : Primitives) {cmd : Command} {fs₀ : Fs} (hown : cmd.tmp ≠ cmd.input)
    (hlen : ∀ X, fs₀.content cmd.input = some X → X.length < 2 ^ 64) :
    ∃ N, ∀ fuel, N ≤ fuel →
      (cmd.prog P fuel).Ends exec (onReliable cmd) (cmd.Done P fs₀) fs₀ := by
  obtain ⟨x, W, hdecodes⟩ := exists_decodes P (match cmd with
    | .encrypt .. => []
    | .decrypt _ _ passphrase _ => passphrase) ((fs₀.content cmd.input).getD [])
  refine ⟨21 * ((fs₀.content cmd.input).getD []).length + headerLen + W.length + 1,
    fun fuel hfuel => ?_⟩
  cases cmd with
  | encrypt plainPath cipherPath passphrase algorithm force =>
    refine encryptFile_ends hown fun X hX => ⟨hlen X hX, ?_⟩
    have hX' : (Command.encrypt plainPath cipherPath passphrase algorithm force).input =
      plainPath := rfl
    rw [hX', hX, Option.getD_some] at hfuel
    omega
  | decrypt plainPath cipherPath passphrase force =>
    refine decryptFile_ends hown fun F hF => ?_
    have hF' : (Command.decrypt plainPath cipherPath passphrase force).input = cipherPath := rfl
    rw [hF', hF, Option.getD_some] at hfuel hdecodes
    refine ⟨hlen F hF, by omega, fun y V hV => ?_⟩
    rw [(hV.unique hdecodes).2]
    omega

section Concurrent

variable {ι η : Type} [DecidableEq ι]

/-- Commands refine their model when they run side by side. With enough fuel, on a system that fails
nothing and serves at least one byte at a time, commands that leave each other's paths alone all end
in every fair interleaving with each other and with others that leave their paths alone. From then
on each has returned the result of an effect of the model on the store at the start, and its paths
hold what they hold after this effect. -/
theorem commands_refine [Finite ι] (P : Primitives) (cmds : ι → Command) (fs₀ : Fs)
    (env : η → Fs → Fs)
    (houtput : ∀ i j, i ≠ j → (cmds i).output ≠ (cmds j).output)
    (hinput : ∀ i j, i ≠ j → (cmds i).output ≠ (cmds j).input)
    (hown : ∀ i, (cmds i).tmp ≠ (cmds i).input)
    (htmp : ∀ i j, i ≠ j → (cmds i).tmp ≠ (cmds j).input ∧ (cmds i).tmp ≠ (cmds j).tmp ∧
      (cmds i).tmp ≠ (cmds j).output)
    (hlen : ∀ i X, fs₀.content (cmds i).input = some X → X.length < 2 ^ 64)
    (hothers : ∀ e s i, Keeps (cmds i).input s (env e s) ∧ Keeps (cmds i).tmp s (env e s) ∧
      Keeps (cmds i).output s (env e s)) :
    ∃ N, ∀ fuel, N ≤ fuel → ∀ es : ℕ → Event ι Choice η,
      (∀ n i c, es n = .run i c → c.Serves) → (∀ i, Event.Fair es i) → ∀ i, ∃ n r S,
        (cmds i).Effect P fs₀.content r S ∧ ∀ m, n ≤ m →
          ((Config.execFor exec env es (sideBySide P fuel cmds fs₀) m).procs i).prog.returned =
            some r ∧
          (cmds i).Shows (Config.execFor exec env es (sideBySide P fuel cmds fs₀) m).shared S := by
  choose N hN using fun i => prog_ends P (hown i) (hlen i)
  obtain ⟨M, hM⟩ := Finite.exists_le N
  refine ⟨M, fun fuel hfuel es hserves hfair i => ?_⟩
  have hcompat : ∀ i j, i ≠ j → ∀ s t, (onReliable (cmds i)).guar s t →
      (onReliable (cmds j)).rely s t := by
    intro i j hij s t hguar
    obtain ⟨hin, htmp', hout⟩ := htmp i j hij
    have hout' := (htmp j i (Ne.symm hij)).2.2
    exact ⟨hguar _ hin.symm (hinput i j hij).symm, hguar _ htmp'.symm hout',
      hguar _ hout.symm (houtput i j hij).symm⟩
  have hfits : ∀ n, Config.Fits env (fun i => onReliable (cmds i))
      (Config.execFor exec env es (sideBySide P fuel cmds fs₀) n) (es n) := by
    intro n
    cases he : es n with
    | run j c =>
      cases h : ((Config.execFor exec env es (sideBySide P fuel cmds fs₀) n).procs j).prog with
      | op o k =>
        simp only [Config.Fits, h]
        exact hserves n j c he
      | _ => simp only [Config.Fits, h, Prog.Admits]
    | other e => exact fun j => hothers e _ j
  obtain ⟨n, r, ⟨S, heffect, hshows⟩, hstays⟩ := Config.exists_returned_of_fair hcompat
    (fun j => hN j fuel ((hM j).trans hfuel)) hfits (hfair i)
  exact ⟨n, r, S, heffect, fun m hm => ⟨(hstays m hm).1, hshows.of_rely (hstays m hm).2⟩⟩

end Concurrent

namespace Examples

/-- Two commands take turns, and every operation is served at once. -/
def takeTurns (n : ℕ) : Event Bool Choice Empty := .run (n % 2 == 0) {}

theorem fair_takeTurns (i : Bool) : Event.Fair takeTurns i := by
  intro n
  cases i with
  | false => exact ⟨2 * n + 1, by omega, by simp [takeTurns, Event.actor, Nat.add_mod]⟩
  | true => exact ⟨2 * n, by omega, by simp [takeTurns, Event.actor]⟩

end Examples

open Examples in
/-- Two encryptions of `a`, to `b` and to `c`, that take turns both end in an effect of the
model. -/
theorem commands_refine_differentStems :
    ∃ fuel, ∀ i, ∃ n r S, (differentStems i).Effect transparent emptyA.content r S ∧ ∀ m, n ≤ m →
      ((Config.execFor exec (fun e => e.elim) takeTurns
        (sideBySide transparent fuel differentStems emptyA) m).procs i).prog.returned = some r ∧
      (differentStems i).Shows (Config.execFor exec (fun e => e.elim) takeTurns
        (sideBySide transparent fuel differentStems emptyA) m).shared S := by
  obtain ⟨N, hN⟩ := commands_refine (η := Empty) transparent differentStems emptyA
    (fun e => e.elim) (by decide +kernel) (by decide +kernel)
    (by decide +kernel) (by decide +kernel)
    (fun i X hX => by
      have hempty : emptyA.content (differentStems i).input = some [] := by
        cases i <;> decide +kernel
      obtain rfl := Option.some.inj (hX.symm.trans hempty)
      decide)
    (fun e => e.elim)
  exact ⟨N, hN N le_rfl takeTurns (fun n i c h => by
    obtain ⟨-, rfl⟩ := Event.run.inj h
    exact ⟨rfl, by decide⟩) fair_takeTurns⟩

/-! ## Alone -/

/-- The contract of a program that is alone on a reliable system. -/
def alone : Contract FsOp Choice Fs where
  allowed _ c _ := c.Serves
  rely := Eq
  guar _ _ := True
  rely_refl _ := rfl
  rely_trans := Eq.trans
  guar_refl _ := trivial

/-- Alone, a command takes the whole store to one of the model. -/
theorem ends_alone {cmd : Command} {fs₀ : Fs} {x : FsProg Stop Unit}
    (h : x.Ends exec (onReliable cmd) (cmd.Done P fs₀) fs₀) :
    x.Ends exec alone (fun r t => cmd.Effect P fs₀.content r t.content) fs₀ := by
  let K : Contract FsOp Choice Fs :=
    { onReliable cmd with rely := Eq, rely_refl := fun _ => rfl, rely_trans := Eq.trans }
  have hdone : x.Ends exec K (cmd.Done P fs₀) fs₀ :=
    h.strengthen (fun s t hst => hst ▸ (onReliable cmd).rely_refl s) (fun _ _ _ hc => hc)
      fun _ _ hst => hst
  have hframe : x.Ends exec K (fun r t => cmd.Done P fs₀ r t ∧
      ∀ p, p ≠ cmd.tmp → p ≠ cmd.output → Keeps p fs₀ t) fs₀ :=
    hdone.related (fun hab hbc p htmp hout => (hab p htmp hout).trans (hbc p htmp hout))
      (fun s t hst p _ _ => hst ▸ .refl p s) fun _ _ hst => hst
  have halone : x.Ends exec alone (fun r t => cmd.Done P fs₀ r t ∧
      ∀ p, p ≠ cmd.tmp → p ≠ cmd.output → Keeps p fs₀ t) fs₀ :=
    hframe.strengthen (fun _ _ hst => hst) (fun _ _ _ hc => hc) fun _ _ _ => trivial
  refine halone.mono ?_
  rintro r t ⟨⟨S, heffect, hshows⟩, hkeeps⟩
  -- the paths of the command are as after the effect, and the others as at the start
  have hS : t.content = S := by
    funext p
    by_cases htmp : p = cmd.tmp
    · exact hshows p (.inr (.inl htmp))
    by_cases hout : p = cmd.output
    · exact hshows p (.inr (.inr hout))
    · rw [heffect.eq_of_ne htmp hout, (hkeeps p htmp hout).content_eq]
  rwa [hS]

section RoundTrip

variable (hverify : ∀ key msg, P.hmacVerify key msg (P.hmacSha256 key msg).val = true)
variable (hdecrypt : ∀ algo key nonce msg aad ct,
  (P.aead algo).encrypt key nonce msg aad = some ct →
    (P.aead algo).decrypt key nonce ct aad = some msg)
include hverify hdecrypt

/-- A decryption of what an encryption has left, to a path that may be written, ends in the
plaintext, and in a store that differs from the one at the start at most at the outputs and
temporary files of the two. -/
theorem decrypt_ends {plainPath cipherPath plainPath' : Path} {passphrase X : Bytes}
    {algorithm : Algorithm} {force force' : Bool} {enc dec : Command} {fs₀ fs : Fs} {fuel : ℕ}
    (henc : enc = .encrypt plainPath cipherPath passphrase algorithm force)
    (hdec : dec = .decrypt plainPath' cipherPath passphrase force')
    (hX : fs₀.content plainPath = some X) (hlen : 21 * X.length + headerLen < 2 ^ 64)
    (hfuel : 42 * X.length + 2 * headerLen < fuel) (hown : dec.tmp ≠ cipherPath)
    (hmay : force' = true ∨ plainPath' ≠ cipherPath ∧ fs₀.content plainPath' = none)
    (heffect : enc.Effect P fs₀.content (.ok ()) fs.content) :
    (dec.prog P fuel).Ends exec alone (fun r t => r = .ok () ∧ t.content plainPath' = some X ∧
      ∀ p, p ≠ enc.tmp → p ≠ cipherPath → p ≠ dec.tmp → p ≠ plainPath' →
        t.content p = fs₀.content p) fs := by
  subst henc hdec
  have hplain : ∀ Y, fs₀.content plainPath = some Y → Y.length < 2 ^ 64 := by
    intro Y hY
    obtain rfl := Option.some.inj (hX.symm.trans hY)
    omega
  obtain ⟨-, Y, W, hY, hgives, hstore⟩ := heffect.of_ok
  obtain rfl := Option.some.inj (hX.symm.trans hY)
  obtain ⟨f, hkey, -, rfl, rfl⟩ := hgives.sealedFile (hplain _ hX)
  have hsize := hgives.length_le
  have hF : fs.content cipherPath = some f.bytes := by
    rw [hstore]
    exact Command.after_output _ _ f.bytes
  have hdecodes := Command.decodes_sealedFile hverify hdecrypt f hkey
  refine (ends_alone (decryptFile_ends hown fun F hF' => ?_)).mono ?_
  · obtain rfl := Option.some.inj (hF.symm.trans hF')
    refine ⟨by omega, by omega, fun x V hV => ?_⟩
    rw [(hV.unique hdecodes).2]
    omega
  rintro r t heffect'
  have hmay' : (Command.decrypt plainPath' cipherPath passphrase force').MayWrite fs.content := by
    refine hmay.imp id fun ⟨hne, hnone⟩ => ?_
    by_cases htmp :
        (Command.encrypt plainPath cipherPath passphrase algorithm force).tmp = plainPath'
    · rw [hstore, Command.output, ← htmp, Command.after_tmp]
    · exact (heffect.eq_of_ne (Ne.symm htmp) hne).trans hnone
  obtain ⟨rfl, hback⟩ :=
    Command.Effect.decrypt_encrypt hverify hdecrypt hplain heffect rfl hmay' heffect'
  refine ⟨rfl, hback.trans hX, fun p htmp hout htmp' hout' => ?_⟩
  rw [heffect'.eq_of_ne htmp' hout', heffect.eq_of_ne htmp hout]

/-- Encrypting a file and decrypting the result gives the file back. With enough fuel, alone on a
system that fails nothing and serves at least one byte at a time, `encrypt_file` followed by
`decrypt_file` ends. Either the encryption fails as in the model, or `Ok` is returned, the plaintext
is at the output of the decryption, and nothing but the outputs and temporary files of the two has
changed. -/
theorem encrypt_then_decrypt {plainPath cipherPath plainPath' : Path} {passphrase X : Bytes}
    {algorithm : Algorithm} {force force' : Bool} {enc dec : Command} {fs₀ : Fs}
    (henc : enc = .encrypt plainPath cipherPath passphrase algorithm force)
    (hdec : dec = .decrypt plainPath' cipherPath passphrase force')
    (hX : fs₀.content plainPath = some X) (hlen : 21 * X.length + headerLen < 2 ^ 64)
    (hown : enc.tmp ≠ plainPath) (hown' : dec.tmp ≠ cipherPath)
    (hmay : force' = true ∨ plainPath' ≠ cipherPath ∧ fs₀.content plainPath' = none) :
    ∃ N, ∀ fuel, N ≤ fuel → ∀ cs : ℕ → Choice, (∀ n, (cs n).Serves) → ∃ n x t r,
      Prog.driveFor exec cs n ((enc.prog P fuel).bind fun _ => dec.prog P fuel, fs₀) = (x, t) ∧
        x.returned = some r ∧ ((∃ e, r = .error e ∧ enc.Effect P fs₀.content r t.content) ∨
          r = .ok () ∧ t.content plainPath' = some X ∧
            ∀ p, p ≠ enc.tmp → p ≠ cipherPath → p ≠ dec.tmp → p ≠ plainPath' →
              t.content p = fs₀.content p) := by
  refine ⟨42 * X.length + 2 * headerLen + 1, fun fuel hfuel cs hcs => ?_⟩
  have hends : ((enc.prog P fuel).bind fun _ => dec.prog P fuel).Ends exec alone (fun r t =>
      (∃ e, r = .error e ∧ enc.Effect P fs₀.content r t.content) ∨
        r = .ok () ∧ t.content plainPath' = some X ∧
          ∀ p, p ≠ enc.tmp → p ≠ cipherPath → p ≠ dec.tmp → p ≠ plainPath' →
            t.content p = fs₀.content p) fs₀ := by
    have hfirst : (enc.prog P fuel).Ends exec alone
        (fun r t => enc.Effect P fs₀.content r t.content) fs₀ := by
      subst henc
      refine ends_alone (encryptFile_ends hown fun Y hY => ?_)
      obtain rfl := Option.some.inj (hX.symm.trans hY)
      exact ⟨by omega, by omega⟩
    refine hfirst.bind (fun _ t ht => ?_) fun e t ht => .inl ⟨e, rfl, ht⟩
    exact (decrypt_ends hverify hdecrypt henc hdec hX hlen hfuel hown' hmay ht).mono
      fun r u h => .inr h
  obtain ⟨n, r, hr, hQ⟩ := hends.exists_returned fun n _ _ => hcs n
  exact ⟨n, _, _, r, rfl, hr, hQ⟩

end RoundTrip

namespace Examples

/-- The file system with a file `a` of one byte. -/
def oneByte : Fs := Fs.ofFile ⟨[], utf8 "a"⟩ [7]

/-- The command that encrypts `a` to `b`. -/
def encryptAB : Command := .encrypt ⟨[], utf8 "a"⟩ ⟨[], utf8 "b"⟩ [] .aes256Gcm false

/-- The command that decrypts `b` to `c`. -/
def decryptBC : Command := .decrypt ⟨[], utf8 "c"⟩ ⟨[], utf8 "b"⟩ [] false

end Examples

open Examples in
/-- A file of one byte, encrypted and decrypted, with every operation served at once. -/
theorem encrypt_then_decrypt_oneByte :
    ∃ fuel n x t r, Prog.driveFor exec (fun _ => {}) n
        ((encryptAB.prog transparent fuel).bind fun _ => decryptBC.prog transparent fuel,
          oneByte) = (x, t) ∧
      x.returned = some r ∧
      ((∃ e, r = .error e ∧ encryptAB.Effect transparent oneByte.content r t.content) ∨
        r = .ok () ∧ t.content ⟨[], utf8 "c"⟩ = some [7] ∧
          ∀ p, p ≠ encryptAB.tmp → p ≠ ⟨[], utf8 "b"⟩ → p ≠ decryptBC.tmp →
            p ≠ ⟨[], utf8 "c"⟩ → t.content p = oneByte.content p) := by
  obtain ⟨N, hN⟩ := encrypt_then_decrypt transparent_verify transparent_decrypt
    (show encryptAB = .encrypt ⟨[], utf8 "a"⟩ ⟨[], utf8 "b"⟩ [] .aes256Gcm false from rfl)
    (show decryptBC = .decrypt ⟨[], utf8 "c"⟩ ⟨[], utf8 "b"⟩ [] false from rfl)
    (show oneByte.content ⟨[], utf8 "a"⟩ = some [7] by decide +kernel) (by decide)
    (by decide +kernel) (by decide +kernel) (.inr ⟨by decide +kernel, by decide +kernel⟩)
  exact ⟨N, hN N le_rfl _ fun _ => ⟨rfl, by decide⟩⟩

end Cry
