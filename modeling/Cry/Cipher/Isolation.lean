import Cry.Cipher.Files
import Cry.Cipher.Grammar

/-!
# Commands that run side by side

Commands that share a file system, in any interleaving of their operations and under any failures.

Each command is specified against what it relies on, that nobody else touches its input, its
temporary file and its output, and what it guarantees, that it touches only the last two. Under this
contract a command that returns `Ok` has written what its pipeline writes for its own input, and
commands whose paths are apart meet each other's contracts.

## Main results

* `writeBody_satisfies`: the bytes in the temporary file are those the body writes for the input;
* `prog_isolated`: the specification of a command under its contract;
* `concurrent_runs`: commands with different outputs do not corrupt each other, unless the
  temporary file of one is the input, the temporary file or the output of another, or its own
  input.
-/

namespace Cry

open Rust Effects Fs Framing

variable {P : Primitives}

/-! ## Careful programs -/

section Careful

open StreamProg

variable {fuel : ℕ}

theorem careful_writeAll (buf : Bytes) : StreamProg.Careful (writeAll buf) :=
  ⟨trivial, fun e => ⟨.err (.io e), rfl⟩⟩

theorem careful_readExactOr {len : ℕ} {onError : IoError → Stop} :
    StreamProg.Careful (readExactOr fuel len onError) := by
  refine careful_bind careful_readExact fun r => ?_
  cases r <;> trivial

theorem careful_encryptBody {header : Header} {key : U8Array 32} :
    StreamProg.Careful (encryptBody P fuel header key) := by
  have hloop : ∀ fuel i, StreamProg.Careful
      (encryptLoop P key header.nonce header.algo (headerAad P header) fuel i) := by
    intro fuel
    -- induction on the fuel, through every branch of a round
    induction fuel with
    | zero => exact fun _ => trivial
    | succ fuel ih =>
      intro i
      rw [encryptLoop]
      refine careful_bind (careful_bind careful_fill fun _ => careful_ofExcept _) fun buf => ?_
      dsimp only
      split
      · trivial
      · refine careful_bind (careful_ofExcept _) fun ct => ?_
        refine careful_bind (careful_writeAll _) fun _ => ?_
        refine careful_bind (careful_writeAll _) fun _ => ?_
        refine careful_bind (careful_ofExcept _) fun j => ?_
        split
        · trivial
        · exact ih j
  exact careful_bind (careful_bind (careful_writeAll _) fun _ => careful_writeAll _)
    fun _ => hloop _ _

theorem careful_decryptChunks {header : Header} {key : U8Array 32} :
    StreamProg.Careful
      (decryptChunks P fuel key header.nonce header.algo (headerAad P header)) := by
  have hloop : ∀ fuel i, StreamProg.Careful
      (decryptLoop P key header.nonce header.algo (headerAad P header) fuel i) := by
    intro fuel
    -- induction on the fuel, through every branch of a round
    induction fuel with
    | zero => exact fun _ => trivial
    | succ fuel ih =>
      intro i
      rw [decryptLoop_succ]
      refine careful_bind (careful_bind careful_readExact fun r => ?_) fun ct => ?_
      · rcases r with e | lenBuf
        · cases e <;> trivial
        · dsimp only
          split
          · trivial
          · exact careful_bind careful_readExactOr fun _ => trivial
      · cases ct with
        | none => trivial
        | some ct =>
          refine careful_bind (careful_ofExcept _) fun plain => ?_
          refine careful_bind (careful_writeAll _) fun _ => ?_
          exact careful_bind (careful_ofExcept _) fun j => ih j
  exact hloop _ _

end Careful

/-! ## The contract of a command -/

/-- A command relies on its three paths being left alone and touches only two of them. -/
def isolated (cmd : Command) : Contract FsOp Choice Fs where
  allowed _ _ _ := True
  rely s t := Keeps cmd.input s t ∧ Keeps cmd.tmp s t ∧ Keeps cmd.output s t
  guar s t := ∀ p, p ≠ cmd.tmp → p ≠ cmd.output → Keeps p s t
  rely_refl s := ⟨.refl _ s, .refl _ s, .refl _ s⟩
  rely_trans h h' := ⟨h.1.trans h'.1, h.2.1.trans h'.2.1, h.2.2.trans h'.2.2⟩
  guar_refl s _ _ _ := .refl _ s

/-- What a command has to put at its output for the input `X`: an encryption of `X` under the
passphrase, or the plaintext that `X` authenticates under the passphrase. -/
def Command.Produces (P : Primitives) : Command → (X W : Bytes) → Prop
  | .encrypt _ _ passphrase algorithm _, X, W =>
    ∃ f : SealedFile P, deriveKey P passphrase f.header.salt.val = .ok f.key ∧
      f.header.algo = algorithm ∧ f.plaintext = X ∧ W = f.bytes
  | .decrypt _ _ passphrase _, X, W =>
    ∃ key G t, deriveKey P passphrase ((G.drop (4 + 1)).take saltLen) = .ok key ∧
      X = G ++ t ∧ t.length < 4 ∧ Grammar P key G W

section Isolated

variable {cmd : Command} {fs₀ : Fs} {fuel : ℕ}

/-- While a command works, its input is as it was and its temporary path names its own file. -/
def Held (fs₀ : Fs) (cmd : Command) (file : Option ℕ) (fs : Fs) : Prop :=
  Keeps cmd.input fs₀ fs ∧ ∀ i, file = some i → fs.names cmd.tmp = some i

/-- Under its contract a command has its input and its temporary file to itself. -/
theorem exclusive {input : ℕ} {file : Option ℕ} (hown : cmd.tmp ≠ cmd.input)
    (hinput : fs₀.names cmd.input = some input) :
    Exclusive (isolated cmd) input file (fs₀.data input) (Held fs₀ cmd file) where
  rely := by
    rintro s t ⟨hkeeps, hname⟩ ⟨hin, htmp, -⟩
    exact ⟨⟨hkeeps.trans hin, fun i hi => htmp.1.trans (hname i hi)⟩,
      fun i hi => htmp.2 i (hname i hi)⟩
  input h := h.1.2 input hinput
  write := by
    rintro s i hi ⟨hkeeps, hname⟩ off bs
    have hothers : ∀ p, p ≠ cmd.tmp → Keeps p s (s.write i off bs) :=
      fun p hp => keeps_write fun h => hp (s.inj h (hname i hi))
    exact ⟨fun p hp _ => hothers p hp, hkeeps.trans (hothers _ hown.symm), hname⟩

/-- Writing the body ends well only when the temporary file holds what the body writes, and the
body has counted the committed number of chunks. -/
theorem writeBody_satisfies {K : Contract FsOp Choice Fs} {input file : ℕ} {X R : Bytes}
    {Held : Fs → Prop} (hex : Exclusive K input (some file) X Held) {reader : ReadBuf}
    {body : StreamProg Stop UInt64} {chunkCount : UInt64} (hbody : body.Careful)
    (hR : R = reader.ahead ++ X.drop reader.off) {fs : Fs} (hfs : Held fs)
    (hempty : fs.data file = []) :
    (writeBody fuel input file reader body chunkCount).Satisfies exec K (fun r t => Held t ∧
      (r = .ok () → ∃ r₀ st', Supplies R r₀ ∧
        body.run { reader := r₀ } = some (.ok chunkCount, st') ∧
          t.data file = st'.sink.written)) fs := by
  -- the buffers are empty at the start, and so is the temporary file
  have hstart : Buffered X (some file) fs { reader } R [] := by
    refine ⟨hR, fun i hi => ?_⟩
    obtain rfl := Option.some.inj hi
    exact ⟨by rw [hempty]; rfl, by rw [hempty]; rfl⟩
  refine (satisfies_onFiles hex hbody hstart hfs).bind ?_ (by simp)
  rintro _ t ⟨res, buffers, heq, ht, hres⟩
  obtain rfl := Except.ok.inj heq
  cases res with
  | error e =>
    -- on an error the buffered bytes are still written, and nothing is claimed of them
    refine (buffers.writer.drop_satisfies hex.owned ht).bind ?_ (by simp)
    rintro _ u ⟨-, hu, -⟩ v hv
    exact ⟨(hex.rely hu hv).1, by simp⟩
  | ok actualChunks =>
    obtain ⟨r₀, r₁, R', w, hr₀, hrun, -, -, hpending⟩ := hres actualChunks rfl
    -- otherwise `flush` puts the rest into the file, before the counts are compared
    refine (buffers.writer.flush_satisfies hex.owned ht).bind ?_ (by simp)
    rintro _ u ⟨flushed, writer, heq, hu, hflush⟩
    obtain rfl := Except.ok.inj heq
    refine (writer.drop_satisfies hex.owned hu).bind ?_ (by simp)
    rintro _ v ⟨-, hv, hdrop⟩
    refine .ofExcept_bind (fun _ hflushed => ?_) fun e _ x hx => ⟨(hex.rely hv hx).1, by simp⟩
    have hok : flushed = .ok () := by
      cases flushed with
      | error e => cases hflushed
      | ok => rfl
    obtain ⟨⟨-, hdata⟩, hnil⟩ := hflush w (hpending file rfl) hok
    cases hcount : checkCount chunkCount actualChunks with
    | error e => exact fun x hx => ⟨(hex.rely hv hx).1, by simp⟩
    | ok =>
      obtain rfl := checkCount_eq_ok_iff.mp hcount
      intro x hx
      obtain ⟨hHeld, hsame⟩ := hex.rely hv hx
      refine ⟨hHeld, fun _ => ⟨r₀, _, hr₀, hrun, ?_⟩⟩
      rw [hsame file rfl, hdrop hnil, ← hdata, hnil, List.append_nil]

/-- The key and the header of an encryption: the key is derived with the salt of the header. -/
theorem encryptHeader_satisfies {K : Contract FsOp Choice Fs} {I : Fs → Prop} (plainPath : Path)
    (passphrase : Bytes) (algorithm : Algorithm) (hrely : ∀ s t, I s → K.rely s t → I t) {fs : Fs}
    (hfs : I fs) :
    (encryptHeader P plainPath passphrase algorithm).Satisfies exec K (fun r t => I t ∧
      ∀ key header, r = .ok (key, header) →
        deriveKey P passphrase header.salt.val = .ok key ∧ header.algo = algorithm) fs := by
  have herr : ∀ {α : Type} {r : Except Stop α} {s : Fs}, I s → ∀ e, r = .error e →
      ∀ t, K.rely s t → I t ∧ ∀ key header, (Except.error e : Except Stop (U8Array 32 × Header)) =
        .ok (key, header) → deriveKey P passphrase header.salt.val = .ok key ∧
          header.algo = algorithm :=
    fun hs _ _ t ht => ⟨hrely _ t hs ht, by simp⟩
  simp only [encryptHeader, fillBytes, orIo, Prog.bind_eq, Prog.perform_bind]
  refine satisfies_readOnly trivial hrely
    (fun _ s hs => .ofExcept_bind (fun n _ => ?_) (herr hs)) hfs
  refine satisfies_readOnly trivial hrely
    (fun _ t ht => .ofExcept_bind (fun salt _ => ?_) (herr ht)) hs
  refine satisfies_readOnly trivial hrely
    (fun _ u hu => .ofExcept_bind (fun nonce _ => ?_) (herr hu)) ht
  -- the salt that was drawn goes into the derivation and into the header
  refine .ofExcept_bind (fun key hkey v hv => ⟨hrely _ v hu hv, ?_⟩) (herr hu)
  rintro key' header heq
  cases heq
  exact ⟨hkey, rfl⟩

/-- Opening the input gives the file that the path named at the start. -/
theorem openInput_isolated {α : Type} {k : ℕ → FsProg Stop α} {Q : Except Stop α → Fs → Prop}
    (hk : ∀ input t, fs₀.names cmd.input = some input → Keeps cmd.input fs₀ t →
      (k input).Satisfies exec (isolated cmd) Q t)
    (herr : ∀ e t, Keeps cmd.input fs₀ t → Q (.error e) t) {fs : Fs}
    (hfs : Keeps cmd.input fs₀ fs) :
    (Prog.op (.openFile cmd.input) fun res => (orIo res).bind k).Satisfies exec (isolated cmd) Q
      fs := by
  intro s hs c _
  have hkeeps := hfs.trans hs.1
  refine ⟨by rw [exec_of_readOnly (by trivial)]; exact (isolated cmd).guar_refl s, ?_⟩
  rw [exec_of_readOnly (by trivial)]
  refine .ofExcept_bind (fun input hres => hk input s ?_ hkeeps) fun e _ t ht =>
    herr e t (hkeeps.trans ht.1)
  -- the path still names the file that it named at the start
  rw [← hkeeps.1]
  cases hfails : c.fails with
  | some e => simp [exec, Choice.orFail, hfails, Except.mapError] at hres
  | none =>
    cases hi : s.names cmd.input with
    | none => simp [exec, Choice.orFail, hfails, hi, Except.mapError] at hres
    | some i => simpa [exec, Choice.orFail, hfails, hi, Except.mapError] using hres

/-- The header of a decryption is at the front of the input, and the reader has the rest. -/
theorem decryptHeader_isolated (passphrase : Bytes) (hown : cmd.tmp ≠ cmd.input) {fs : Fs}
    (hfs : Keeps cmd.input fs₀ fs) :
    (decryptHeader P fuel cmd.input passphrase).Satisfies exec (isolated cmd) (fun r t =>
      Keeps cmd.input fs₀ t ∧ ∀ input reader key header, r = .ok (input, reader, key, header) →
        fs₀.names cmd.input = some input ∧ ∃ raw : U8Array headerLen,
          fs₀.data input = raw.val ++ (reader.ahead ++ (fs₀.data input).drop reader.off) ∧
          deriveKey P passphrase (rawSalt raw) = .ok key ∧
          Header.parse P key raw.val = some (.ok header)) fs := by
  have hrely : ∀ s t, Keeps cmd.input fs₀ s → (isolated cmd).rely s t → Keeps cmd.input fs₀ t :=
    fun s t hs ht => hs.trans ht.1
  simp only [decryptHeader, Prog.bind_eq, Prog.perform_bind]
  refine openInput_isolated (fun input s hinput hs => ?_) (fun e t ht => ⟨ht, by simp⟩) hfs
  refine satisfies_readOnly trivial hrely (fun _ t ht => .ofExcept_bind (fun _ _ => ?_)
    fun e _ u hu => ⟨hrely _ u ht hu, by simp⟩) hs
  have hstart : Buffered (fs₀.data input) none t {} (fs₀.data input) [] := ⟨rfl, by simp⟩
  refine (satisfies_onFiles (exclusive hown hinput) careful_readExactOr hstart
    ⟨ht, by simp⟩).bind ?_ (by simp)
  rintro _ u ⟨res, buffers, heq, hu, hres⟩
  obtain rfl := Except.ok.inj heq
  refine .ofExcept_bind (fun raw hraw => ?_) fun e _ v hv => ⟨hrely _ v hu.1 hv, by simp⟩
  refine .ofExcept_bind (fun key hkey => ?_) fun e _ v hv => ⟨hrely _ v hu.1 hv, by simp⟩
  obtain ⟨parsed, hparse, -⟩ := Header.parse_returns P key raw.property
  rw [hparse, Prog.ofResult_some]
  refine .ofExcept_bind (fun header hheader v hv => ⟨hrely _ v hu.1 hv, ?_⟩)
    fun e _ v hv => ⟨hrely _ v hu.1 hv, by simp⟩
  rintro input' reader key' header' hret
  cases hret
  refine ⟨hinput, raw, ?_, hkey, by rw [hparse, hheader]⟩
  -- the reader has buffered ahead of the header; what it holds and the file make up the rest
  obtain ⟨r₀, r₁, R', w', hr₀, hrun, hr₁, hrest, -⟩ := hres raw hraw
  obtain ⟨-, ⟨_, B', hB, hx, hd, -⟩ | ⟨e, hx⟩⟩ := run_readExactOr_eq_some hr₀ hrun
  · obtain rfl := Except.ok.inj hx
    rw [← hrest, ← hr₁.content_eq, hd.content_eq]
    exact hB
  · cases hx

end Isolated

/-! ## Interleaved commands -/

/-- Commands that have not started, over one file system. -/
def sideBySide (P : Primitives) {ι : Type} (fuel : ℕ) (cmds : ι → Command) (fs : Fs) :
    Config ι FsOp FsRes Stop Unit Fs where
  shared := fs
  procs i := { started := false, prog := (cmds i).prog P fuel }

/-- What has become of commands that run side by side, and nobody else with them. -/
def runSideBySide (P : Primitives) {ι : Type} [DecidableEq ι] (fuel : ℕ) (cmds : ι → Command)
    (es : List (Event ι Choice Empty)) (fs : Fs) : Config ι FsOp FsRes Stop Unit Fs :=
  Config.exec exec (fun e => e.elim) es (sideBySide P fuel cmds fs)

namespace Examples

/-- The file system with an empty file `a`. -/
def emptyA : Fs := Fs.ofFile ⟨[], utf8 "a"⟩ []

/-- The commands that encrypt `a` to two outputs. -/
def encryptTo (out : Bool → Path) (i : Bool) : Command :=
  .encrypt ⟨[], utf8 "a"⟩ (out i) [] .aes256Gcm false

/-- The commands that encrypt `a` to `b` and to `c`. -/
def differentStems : Bool → Command :=
  encryptTo fun i => if i then ⟨[], utf8 "c"⟩ else ⟨[], utf8 "b"⟩

end Examples

open Examples

theorem Command.Produces.length_le {plainPath cipherPath : Path} {passphrase X W : Bytes}
    {algorithm : Algorithm} {force : Bool}
    (h : (Command.encrypt plainPath cipherPath passphrase algorithm force).Produces P X W) :
    headerLen ≤ W.length := by
  obtain ⟨f, -, -, -, rfl⟩ := h
  rw [SealedFile.bytes, List.length_append, Header.length_bytes]
  exact Nat.le_add_right _ _

end Cry
