import Cry.Cipher.Isolation
import Cry.Cipher.Layout

/-!
# What is ever to be seen at an output

Commands run side by side with each other and with others, every operation may fail, and a run may
be cut off at any point. The others may change everything except the temporary files and the outputs
of the commands; in particular they may change an input while it is read, and the output of one
command may be the input of another. At every moment an output holds what it held at the start, or
all of a product of its command: for an encryption a whole encrypted file, for a decryption the
plaintext of a whole file that was accepted. No part of a plaintext is published before the whole
has been authenticated.

## Main results

* `encryptLoop_eq_ok_of_any`: the frames of an encryption, whatever the reader gives;
* `prog_publishes`: a command changes its output in one step, to a whole product;
* `outputs_published`: what the outputs hold at any moment of any interleaving, and under ideal
  primitives.
-/

namespace Cry

open Rust Effects Fs Framing

variable {P : Primitives}

/-! ## Encryption from a reader of any kind -/

section AnyReader

variable {key : U8Array 32} {h : Header}

/-- A chunk that is read is at most as long as asked for, whatever the reader gives. -/
theorem run_readChunk_length_le {fuel len : ℕ} {bs : Bytes} {st st' : StreamState}
    (hrun : StreamProg.run (readChunk fuel len) st = some (.ok bs, st')) :
    st'.sink = st.sink ∧ bs.length ≤ len := by
  rw [readChunk, Prog.bind_eq, StreamProg.run_bind, Prog.andThen_eq_ok] at hrun
  obtain ⟨res, st₁, hfill, hrest⟩ := hrun
  obtain ⟨-, hsink⟩ := run_fill_frame hfill
  cases res with
  | error e => cases hrest
  | ok bs' =>
    obtain ⟨rfl, rfl⟩ := by simpa using hrest
    exact ⟨hsink, run_fill_length_le (show ([] : Bytes).length ≤ len from Nat.zero_le len) hfill⟩

/-- One round of the encryption loop that ends well, whatever the reader gives. -/
theorem encryptLoop_succ_eq_ok_of_any {fuel i : ℕ} {j : UInt64} {st st' : StreamState}
    (hi : i < 2 ^ 64)
    (hrun : StreamProg.run
      (encryptLoop P key h.nonce h.algo (headerAad P h) (fuel + 1) (UInt64.ofNat i)) st =
        some (.ok j, st')) :
    (st'.sink.written = st.sink.written ∧ j = UInt64.ofNat i) ∨
      ∃ p c st₁, p ≠ [] ∧ Seals P key h i p c ∧ i + 1 < 2 ^ 64 ∧
        st₁.sink.written = st.sink.written ++ Framing.frame c ∧
          ((p.length < chunkSize ∧ st' = st₁ ∧ j = UInt64.ofNat (i + 1)) ∨
            p.length = chunkSize ∧ StreamProg.run (encryptLoop P key h.nonce h.algo
              (headerAad P h) fuel (UInt64.ofNat (i + 1))) st₁ = some (.ok j, st')) := by
  simp only [encryptLoop, Prog.bind_eq, StreamProg.run_bind, Prog.andThen_eq_ok] at hrun
  obtain ⟨p, st₁, hread, hrest⟩ := hrun
  obtain ⟨hsink, hlen⟩ := run_readChunk_length_le hread
  by_cases hzero : p.length = 0
  · rw [if_pos hzero] at hrest
    obtain ⟨rfl, rfl⟩ := by simpa using hrest
    exact .inl ⟨by rw [hsink], rfl⟩
  rw [if_neg hzero] at hrest
  simp only [StreamProg.run_bind, StreamProg.run_ofExcept, Prog.andThen_eq_ok] at hrest
  obtain ⟨c, st₂, hct, _, st₃, hw₁, _, st₄, hw₂, i', st₅, hnext, hlast⟩ := hrest
  obtain ⟨hseal, rfl⟩ := by simpa using hct
  have hs₁ := (run_writeAll_eq_ok hw₁).2
  have hs₂ := (run_writeAll_eq_ok hw₂).2
  rw [nextIndex_ofNat hi] at hnext
  by_cases hlt : i + 1 < 2 ^ 64
  · rw [if_pos hlt] at hnext
    simp only [Option.some.injEq, Prod.mk.injEq, Except.ok.injEq] at hnext
    obtain ⟨rfl, rfl⟩ := hnext
    refine .inr ⟨p, c, st₄, fun hnil => hzero (by rw [hnil, List.length_nil]), hseal, hlt, ?_, ?_⟩
    · rw [hs₂, hs₁, hsink, Framing.frame, List.append_assoc]
    · by_cases hshort : p.length < chunkSize
      · rw [if_pos hshort, Prog.pure_eq, StreamProg.run_pure] at hlast
        simp only [Option.some.injEq, Prod.mk.injEq, Except.ok.injEq] at hlast
        exact .inl ⟨hshort, hlast.2.symm, hlast.1.symm⟩
      · rw [if_neg hshort] at hlast
        exact .inr ⟨by omega, hlast⟩
  · rw [if_neg hlt] at hnext
    simp at hnext

/-- The encryption loop ends well only after writing the frames of some chunking, whatever the
reader gives. -/
theorem encryptLoop_eq_ok_of_any {fuel i : ℕ} {j : UInt64} {st st' : StreamState}
    (hi : i < 2 ^ 64)
    (hrun : StreamProg.run
      (encryptLoop P key h.nonce h.algo (headerAad P h) fuel (UInt64.ofNat i)) st =
        some (.ok j, st')) :
    ∃ ps cs, Chunking ps ∧ ForallFrom (Seals P key h) i ps cs ∧
      st'.sink.written = st.sink.written ++ frames cs ∧ i + ps.length < 2 ^ 64 ∧
      j = UInt64.ofNat (i + ps.length) := by
  -- induction on the fuel: each round seals what it has read
  induction fuel generalizing i st with
  | zero => simp [encryptLoop] at hrun
  | succ fuel ih =>
    obtain ⟨hw, rfl⟩ | ⟨p, c, st₁, hne, hseal, hlt, hw, ⟨hshort, rfl, rfl⟩ | ⟨hfull, hrec⟩⟩ :=
      encryptLoop_succ_eq_ok_of_any hi hrun
    · exact ⟨[], [], .nil, .nil, by simp [hw], by simpa using hi, rfl⟩
    · exact ⟨[p], [c], .last hne hshort, .cons hseal .nil, by simp [hw], hlt, rfl⟩
    · obtain ⟨ps, cs, hps, hall, hw', hlt', rfl⟩ := ih hlt hrec
      refine ⟨p :: ps, c :: cs, .full hfull hps, .cons hseal hall, ?_, ?_, ?_⟩
      · rw [hw', hw, frames_cons, List.append_assoc]
      · rw [List.length_cons]
        omega
      · rw [List.length_cons, Nat.add_comm ps.length, ← Nat.add_assoc]

/-- A completed encryption body wrote an encrypted file, whatever the reader gives. -/
theorem encryptBody_eq_ok_of_any {fuel : ℕ} {j : UInt64} {st st' : StreamState}
    (hrun : StreamProg.run (encryptBody P fuel h key) st = some (.ok j, st')) :
    ∃ ps cs, Chunking ps ∧ ForallFrom (Seals P key h) 0 ps cs ∧
      st'.sink.written = st.sink.written ++ (h.bytes P key ++ frames cs) ∧
        j.toNat = ps.length := by
  rw [encryptBody, Prog.bind_eq, StreamProg.run_bind, Prog.andThen_eq_ok] at hrun
  obtain ⟨_, st₁, hwrite, hchunks⟩ := hrun
  obtain ⟨-, hw⟩ := Header.run_write_eq_ok P hwrite
  obtain ⟨ps, cs, hps, hall, hw', hlt, rfl⟩ :=
    encryptLoop_eq_ok_of_any (i := 0) (by norm_num) hchunks
  refine ⟨ps, cs, hps, hall, by rw [hw', hw, List.append_assoc], ?_⟩
  rw [Nat.zero_add] at hlt ⊢
  exact UInt64.toNat_ofNat_of_lt' hlt

end AnyReader

/-- A header and frames that open, followed by fewer than four bytes, produce what the frames open
to. -/
theorem Command.produces_decrypt {plainPath cipherPath : Path} {passphrase : Bytes} {force : Bool}
    {raw : U8Array headerLen} {key : U8Array 32} {header : Header} {cs ps : List Bytes}
    (hkey : deriveKey P passphrase (rawSalt raw) = .ok key)
    (hparse : Header.parse P key raw.val = some (.ok header))
    (hall : ForallFrom (Opens P key header) 0 cs ps)
    (hcount : cs.length = header.chunkCount.toNat) {t : Bytes} (ht : t.length < 4) :
    (Command.decrypt plainPath cipherPath passphrase force).Produces P (raw.val ++ (frames cs ++ t))
      ps.flatten := by
  have hlen : raw.val.length = headerLen := raw.property
  refine ⟨key, raw.val ++ frames cs, t, ?_, by rw [List.append_assoc], ht,
    raw, header, cs, ps, rfl, hparse, hcount, hall, rfl⟩
  rw [List.drop_append_of_le_length (by rw [hlen]; decide),
    List.take_append_of_le_length (by rw [List.length_drop, hlen]; decide)]
  exact hkey

/-! ## Contracts of publication -/

/-- A contract that lets a command touch its temporary file and its output, put only good contents
at the output, and rely on its temporary file being left alone. -/
structure Publisher (K : Contract FsOp Choice Fs) (cmd : Command) (Good : Bytes → Prop) :
    Prop where
  rely : ∀ s t, K.rely s t → Keeps cmd.tmp s t
  guar : ∀ s t, (∀ p, p ≠ cmd.tmp → p ≠ cmd.output → Keeps p s t) →
    (Keeps cmd.output s t ∨ ∃ W, t.content cmd.output = some W ∧ Good W) → K.guar s t

section Publisher

variable {K : Contract FsOp Choice Fs} {cmd : Command} {Good : Bytes → Prop} {fuel : ℕ}

/-- A step that leaves everything but the temporary file as it was is within the guarantee. -/
theorem Publisher.guar_of_keeps (hK : Publisher K cmd Good) {s t : Fs}
    (h : ∀ p, p ≠ cmd.tmp → Keeps p s t) : K.guar s t :=
  hK.guar s t (fun p hp _ => h p hp) (.inl (h _ cmd.tmp_ne_output.symm))

/-- While its temporary path names its file, a command owns this file. -/
theorem Publisher.owned (hK : Publisher K cmd Good) {file : ℕ} :
    Owned K (some file) (fun fs => fs.names cmd.tmp = some file) where
  rely := by
    intro s t hname hrely
    have htmp := hK.rely s t hrely
    refine ⟨htmp.1.trans hname, fun i hi => ?_⟩
    obtain rfl := Option.some.inj hi
    exact htmp.2 _ hname
  write := by
    rintro s i hi hname off bs
    obtain rfl := Option.some.inj hi
    exact ⟨hK.guar_of_keeps fun p hp => keeps_write fun hpi => hp (s.inj hpi hname), hname⟩

/-- Writing the body ends well only when the file holds what the body writes for some reader, and
the body has counted the committed number of chunks. -/
theorem writeBody_owned {K : Contract FsOp Choice Fs} {input file : ℕ} {Held : Fs → Prop}
    (howned : Owned K (some file) Held) {reader : ReadBuf} {body : StreamProg Stop UInt64}
    {chunkCount : UInt64} (hbody : body.Careful) {fs : Fs} (hfs : Held fs)
    (hempty : fs.data file = []) :
    (writeBody fuel input file reader body chunkCount).Satisfies exec K (fun r t => Held t ∧
      (r = .ok () → ∃ r₀ st', body.run { reader := r₀ } = some (.ok chunkCount, st') ∧
        t.data file = st'.sink.written)) fs := by
  have hstart : ∀ i, some file = some i → Pending fs i ({ reader } : Buffers).writer [] := by
    intro i hi
    obtain rfl := Option.some.inj hi
    exact ⟨by rw [hempty]; rfl, by rw [hempty]; rfl⟩
  refine (satisfies_onFiles_owned howned hbody hstart hfs).bind ?_ (by simp)
  rintro _ t ⟨res, buffers, heq, ht, hres⟩
  obtain rfl := Except.ok.inj heq
  cases res with
  | error e =>
    refine (buffers.writer.drop_satisfies howned ht).bind ?_ (by simp)
    rintro _ u ⟨-, hu, -⟩ v hv
    exact ⟨(howned.rely hu hv).1, by simp⟩
  | ok actualChunks =>
    obtain ⟨r₀, r₁, w, hrun, hpending⟩ := hres actualChunks rfl
    refine (buffers.writer.flush_satisfies howned ht).bind ?_ (by simp)
    rintro _ u ⟨flushed, writer, heq, hu, hflush⟩
    obtain rfl := Except.ok.inj heq
    refine (writer.drop_satisfies howned hu).bind ?_ (by simp)
    rintro _ v ⟨-, hv, hdrop⟩
    refine .ofExcept_bind (fun _ hflushed => ?_) fun e _ x hx => ⟨(howned.rely hv hx).1, by simp⟩
    have hok : flushed = .ok () := by
      cases flushed with
      | error e => cases hflushed
      | ok => rfl
    obtain ⟨⟨-, hdata⟩, hnil⟩ := hflush w (hpending file rfl) hok
    cases hcount : checkCount chunkCount actualChunks with
    | error e => exact fun x hx => ⟨(howned.rely hv hx).1, by simp⟩
    | ok =>
      obtain rfl := checkCount_eq_ok_iff.mp hcount
      intro x hx
      obtain ⟨hHeld, hsame⟩ := howned.rely hv hx
      refine ⟨hHeld, fun _ => ⟨r₀, _, hrun, ?_⟩⟩
      rw [hsame file rfl, hdrop hnil, ← hdata, hnil, List.append_nil]

/-- The closure of a command ends well only when the temporary file holds what the body has to write
into it. -/
theorem writeOutput_publisher (hK : Publisher K cmd Good) {input : ℕ} {reader : ReadBuf}
    {body : StreamProg Stop UInt64} {chunkCount : UInt64} {fs : Fs}
    (hbody : ∀ s, K.rely fs s → (writeBody fuel input (s.create cmd.tmp).1 reader body
      chunkCount).Satisfies exec K (fun r t => t.names cmd.tmp = some (s.create cmd.tmp).1 ∧
        (r = .ok () → Good (t.data (s.create cmd.tmp).1))) (s.create cmd.tmp).2) :
    (writeOutput fuel cmd.tmp input reader body chunkCount).Satisfies exec K
      (fun r t => r = .ok () → ∃ W, t.content cmd.tmp = some W ∧ Good W) fs := by
  simp only [writeOutput, Prog.bind_eq, Prog.perform_bind]
  intro s hs c _
  cases hfails : c.fails with
  | some e =>
    simp only [exec, Choice.orFail, hfails]
    exact ⟨K.guar_refl s, fun t _ => by simp⟩
  | none =>
    simp only [exec, Choice.orFail, hfails, orIo_ok, Prog.pure_bind]
    refine ⟨hK.guar_of_keeps fun p hp => keeps_create hp, (hbody s hs).mono ?_⟩
    rintro r t ⟨ht, hres⟩ hok
    exact ⟨_, by rw [content, ht, Option.map_some], hres hok⟩

/-- Publishing changes the output in one step, to what the temporary file holds. -/
theorem publish_publisher (hK : Publisher K cmd Good) {closure : FsProg Stop Unit} {fs : Fs}
    (hclosure : closure.Satisfies exec K
      (fun r t => r = .ok () → ∃ W, t.content cmd.tmp = some W ∧ Good W) fs) :
    (publish cmd.tmp cmd.output closure).Satisfies exec K (fun _ _ => True) fs := by
  have hquiet : ∀ {α : Type} {x : FsProg Stop α} {s : Fs}, x.Uses FsOp.ReadOnly →
      x.Satisfies exec K (fun _ _ => True) s :=
    fun hx => satisfies_of_readOnly hx (fun _ _ _ _ => trivial) trivial
  rw [publish, Prog.bind_eq]
  refine Prog.Satisfies.bind (Prog.Satisfies.attempt (Q := fun r t => ∃ r', r = .ok r' ∧
    (r' = .ok () → ∃ W, t.content cmd.tmp = some W ∧ Good W))
    (hclosure.mono fun r t h => ⟨r, rfl, h⟩)) ?_ (by simp)
  rintro r s ⟨_, heq, hres⟩
  obtain rfl := Except.ok.inj heq
  cases r with
  | ok =>
    obtain ⟨W, hW, hgood⟩ := hres rfl
    simp only [Prog.bind_eq, Prog.perform_bind]
    intro t ht c _
    obtain ⟨i, hi, rfl⟩ : ∃ i, t.names cmd.tmp = some i ∧ t.data i = W := by
      rwa [← (hK.rely s t ht).content_eq, content, Option.map_eq_some_iff] at hW
    have hsize : ∀ u, (Prog.op (FsOp.metadata cmd.output) fun res => (orIo res).bind fun _ =>
        (Prog.pure () : FsProg Stop Unit)).Satisfies exec K (fun _ _ => True) u :=
      fun u => hquiet ⟨trivial, fun res => Prog.uses_bind (Prog.uses_ofExcept _) fun _ => trivial⟩
    cases hfails : c.fails with
    | some e =>
      simp only [exec, Choice.orFail, hfails]
      exact ⟨K.guar_refl t, fun _ _ => trivial⟩
    | none =>
      simp only [exec, Choice.orFail, hfails, hi, orIo_ok, Prog.pure_bind]
      -- the only step that changes the output
      refine ⟨hK.guar _ _ (fun p hp hout => keeps_rename hp hout) (.inr ⟨_, ?_, hgood⟩), hsize _⟩
      rw [content, names_rename hi, if_pos rfl, Option.map_some, data_rename]
  | error e =>
    cases e with
    | panic => exact fun _ _ => trivial
    | err e =>
      simp only [Prog.bind_eq, Prog.perform_bind]
      intro t _ c _
      refine ⟨?_, fun _ _ => trivial⟩
      cases hfails : c.fails with
      | some e' =>
        simp only [exec, Choice.orFail, hfails]
        exact K.guar_refl t
      | none =>
        cases hi : t.names cmd.tmp with
        | none =>
          simp only [exec, Choice.orFail, hfails, hi]
          exact K.guar_refl t
        | some i =>
          simp only [exec, Choice.orFail, hfails, hi]
          exact hK.guar_of_keeps fun p hp => keeps_remove hp

end Publisher

/-! ## Inputs that change -/

/-- A command relies on its temporary file and its output being left alone. Each of its steps
touches only these two, and leaves the output as it was or holding a whole product. -/
def publishing (P : Primitives) (cmd : Command) : Contract FsOp Choice Fs where
  allowed _ _ _ := True
  rely s t := Keeps cmd.tmp s t ∧ Keeps cmd.output s t
  guar s t := (∀ p, p ≠ cmd.tmp → p ≠ cmd.output → Keeps p s t) ∧
    (Keeps cmd.output s t ∨ ∃ W, t.content cmd.output = some W ∧ ∃ X, cmd.Produces P X W)
  rely_refl s := ⟨.refl _ s, .refl _ s⟩
  rely_trans h h' := ⟨h.1.trans h'.1, h.2.trans h'.2⟩
  guar_refl s := ⟨fun _ _ _ => .refl _ s, .inl (.refl _ s)⟩

theorem publisher_publishing (P : Primitives) (cmd : Command) :
    Publisher (publishing P cmd) cmd (fun W => ∃ X, cmd.Produces P X W) where
  rely _ _ h := h.1
  guar _ _ hframe hout := ⟨hframe, hout⟩

section Publishing

variable {cmd : Command} {fuel : ℕ}

/-- The closure of a command, when what the body writes for any reader is a product. -/
theorem writeOutput_publishing {input : ℕ} {reader : ReadBuf} {body : StreamProg Stop UInt64}
    {chunkCount : UInt64} (hbody : body.Careful)
    (hgood : ∀ r₀ st', body.run { reader := r₀ } = some (.ok chunkCount, st') →
      ∃ X, cmd.Produces P X st'.sink.written) {fs : Fs} :
    (writeOutput fuel cmd.tmp input reader body chunkCount).Satisfies exec (publishing P cmd)
      (fun r t => r = .ok () → ∃ W, t.content cmd.tmp = some W ∧ ∃ X, cmd.Produces P X W) fs := by
  have hK := publisher_publishing P cmd
  refine writeOutput_publisher hK fun s _ => ?_
  refine (writeBody_owned hK.owned hbody (by rw [names_create, if_pos rfl])
    (data_create_self _)).mono ?_
  rintro r t ⟨ht, hres⟩
  refine ⟨ht, fun hok => ?_⟩
  obtain ⟨r₀, st', hrun, hdata⟩ := hres hok
  rw [hdata]
  exact hgood r₀ st' hrun

/-- Reading the header of a decryption, whatever the input holds at each moment. -/
theorem decryptHeader_publishing {cipherPath : Path} {passphrase : Bytes} {fs : Fs} :
    (decryptHeader P fuel cipherPath passphrase).Satisfies exec (publishing P cmd) (fun r _ =>
      ∀ input reader key header, r = .ok (input, reader, key, header) →
        ∃ raw : U8Array headerLen, deriveKey P passphrase (rawSalt raw) = .ok key ∧
          Header.parse P key raw.val = some (.ok header)) fs := by
  have hrely : ∀ s t : Fs, True → (publishing P cmd).rely s t → True := fun _ _ _ _ => trivial
  simp only [decryptHeader, Prog.bind_eq, Prog.perform_bind]
  refine satisfies_readOnly trivial hrely
    (fun _ s _ => .ofExcept_bind (fun input _ => ?_) fun e _ t _ => by simp) trivial
  refine satisfies_readOnly trivial hrely
    (fun _ t _ => .ofExcept_bind (fun _ _ => ?_) fun e _ u _ => by simp) trivial
  refine (satisfies_of_readOnly (Prog.Uses.mono (uses_onFiles _ _) fun o ho => ?_) hrely
    trivial).bind ?_ (by simp)
  · cases o with
    | readAt i off cap => trivial
    | writeAt i off buf => cases ho
    | _ => exact ho.elim
  rintro ⟨res, buffers⟩ u -
  refine .ofExcept_bind (fun raw _ => ?_) fun e _ v _ => by simp
  refine .ofExcept_bind (fun key hkey => ?_) fun e _ v _ => by simp
  obtain ⟨parsed, hparse, -⟩ := Header.parse_returns P key raw.property
  rw [hparse, Prog.ofResult_some]
  refine .ofExcept_bind (fun header hheader v _ => ?_) fun e _ v _ => by simp
  rintro input' reader key' header' hret
  cases hret
  exact ⟨raw, hkey, by rw [hparse, hheader]⟩

/-- A command under its contract: whatever others do to its input, its output goes in one step from
what it held to a whole product. -/
theorem prog_publishes (P : Primitives) (fuel : ℕ) (cmd : Command) (fs : Fs) :
    (cmd.prog P fuel).Satisfies exec (publishing P cmd) (fun _ _ => True) fs := by
  have hrely : ∀ s t : Fs, True → (publishing P cmd).rely s t → True := fun _ _ _ _ => trivial
  cases cmd with
  | encrypt plainPath cipherPath passphrase algorithm force =>
    refine (satisfies_of_readOnly uses_refuseOverwrite hrely trivial).bind ?_ (by simp)
    rintro _ s -
    refine (encryptHeader_satisfies (P := P) plainPath passphrase algorithm hrely trivial).bind ?_
      (by simp)
    rintro ⟨key, header⟩ t ⟨-, hres⟩
    obtain ⟨hkey, halgo⟩ := hres key header rfl
    refine publish_publisher (publisher_publishing P _) ?_
    simp only [Prog.bind_eq, Prog.perform_bind]
    refine satisfies_readOnly trivial hrely
      (fun _ u _ => .ofExcept_bind (fun input _ => ?_) fun e _ v _ => by simp) trivial
    refine writeOutput_publishing careful_encryptBody fun r₀ st' hrun => ?_
    -- what was sealed is the input of the encryption, whatever the file held meanwhile
    obtain ⟨ps, cs, hps, hall, hwritten, hcount⟩ := encryptBody_eq_ok_of_any hrun
    exact ⟨ps.flatten, ⟨key, header, ps, cs, hps, hall, hcount⟩, hkey, halgo, rfl,
      hwritten.trans (List.nil_append _)⟩
  | decrypt plainPath cipherPath passphrase force =>
    refine (satisfies_of_readOnly uses_refuseOverwrite hrely trivial).bind ?_ (by simp)
    rintro _ s -
    refine decryptHeader_publishing.bind ?_ (by simp)
    rintro ⟨input, reader, key, header⟩ t hres
    obtain ⟨raw, hkey, hparse⟩ := hres input reader key header rfl
    refine publish_publisher (publisher_publishing P _) ?_
    refine writeOutput_publishing careful_decryptChunks fun r₀ st' hrun => ?_
    obtain ⟨cs, ps, hall, hwritten, hlt, hcount, -⟩ :=
      decryptLoop_eq_ok (i := 0) (by norm_num) hrun
    -- the raw header and the frames that opened make up a file of the format
    rw [hwritten]
    refine ⟨_, Command.produces_decrypt hkey hparse hall ?_ (t := []) (by simp)⟩
    rw [hcount, UInt64.toNat_ofNat_of_lt' hlt, Nat.zero_add]

end Publishing

/-! ## Interleaved commands -/

/-- Under ideal primitives, what a file of the format decrypts to is the plaintext of an honest file
whose header it carries. -/
theorem Ideal.plaintext_eq {honest : List (SealedFile P)} (ideal : Ideal honest)
    (hdistinct : (honest.map SealedFile.header).Nodup) {key : U8Array 32} {G W : Bytes}
    (h : Grammar P key G W) :
    ∃ f ∈ honest, key = f.key ∧ W = f.plaintext ∧ f.header.preHmacBytes <+: G := by
  obtain ⟨raw, header, cs, ps, rfl, hparse, hcount, hall, rfl⟩ := h
  obtain ⟨f, hf, rfl, rfl, hheader⟩ := ideal.header_eq hparse
  have hfirst : ps <+: f.chunks := ideal.chunks_prefix hdistinct hf hall (Nat.zero_le _)
  -- the committed number of chunks rules out a proper prefix
  have hlen : ps.length = f.chunks.length := by
    rw [← hall.length_eq, hcount, f.count]
  exact ⟨f, hf, rfl, by rw [hfirst.eq_of_length hlen, SealedFile.plaintext],
    hheader.trans (List.prefix_append _ _)⟩

/-- The salt of a file that starts with the serialised fields of a header is that of the header. -/
theorem drop_take_of_isPrefix {h : Header} {G : Bytes} (hG : h.preHmacBytes <+: G) :
    (G.drop (4 + 1)).take saltLen = h.salt.val := by
  obtain ⟨t, rfl⟩ := hG
  rw [List.drop_append_of_le_length (by rw [h.length_preHmacBytes]; decide),
    List.take_append_of_le_length (by rw [List.length_drop, h.length_preHmacBytes]; decide),
    drop_take_preHmacBytes]

section Interleaved

variable {ι η : Type} [DecidableEq ι]

/-- What is ever to be seen at the outputs. Commands with different outputs and temporary files run
side by side with others that leave these alone, and may do anything to the inputs. At every moment
of every interleaving, and whatever fails, each output holds what it held at the start or a whole
product of its command. Under primitives that are ideal for a list of honest encryptions with
pairwise different headers, the output of a decryption holds what it held at the start or the whole
plaintext of an honest file whose key its passphrase derives. -/
theorem outputs_published (P : Primitives) {fuel : ℕ} {cmds : ι → Command} {fs₀ : Fs}
    (env : η → Fs → Fs)
    (hapart : ∀ i j, i ≠ j → (cmds i).tmp ≠ (cmds j).tmp ∧ (cmds i).tmp ≠ (cmds j).output ∧
      (cmds i).output ≠ (cmds j).output)
    (hothers : ∀ e s i, Keeps (cmds i).tmp s (env e s) ∧ Keeps (cmds i).output s (env e s))
    (es : List (Event ι Choice η)) :
    (∀ i, (Config.exec exec env es (sideBySide P fuel cmds fs₀)).shared.content (cmds i).output =
        fs₀.content (cmds i).output ∨
      ∃ W, (Config.exec exec env es (sideBySide P fuel cmds fs₀)).shared.content
        (cmds i).output = some W ∧ ∃ X, (cmds i).Produces P X W) ∧
      ∀ honest : List (SealedFile P), Ideal honest → (honest.map SealedFile.header).Nodup →
        ∀ i plainPath cipherPath passphrase force,
          cmds i = .decrypt plainPath cipherPath passphrase force →
          (Config.exec exec env es (sideBySide P fuel cmds fs₀)).shared.content plainPath =
              fs₀.content plainPath ∨
            ∃ f ∈ honest, deriveKey P passphrase f.header.salt.val = .ok f.key ∧
              (Config.exec exec env es (sideBySide P fuel cmds fs₀)).shared.content plainPath =
                some f.plaintext := by
  have hcompat : ∀ i j, i ≠ j → ∀ s t, (publishing P (cmds i)).guar s t →
      (publishing P (cmds j)).rely s t := by
    rintro i j hij s t ⟨hguar, -⟩
    obtain ⟨htmp, hcross, hout⟩ := hapart i j hij
    have hcross' := (hapart j i (Ne.symm hij)).2.1
    exact ⟨hguar _ htmp.symm hcross', hguar _ hcross.symm hout.symm⟩
  have hfits : Config.Along exec env (Config.Fits env fun i => publishing P (cmds i)) es
      (sideBySide P fuel cmds fs₀) := by
    refine Config.along_of_forall (fun cfg e => ?_) es _
    cases e with
    | run j c => exact Prog.admits_of_forall (fun _ _ _ => trivial) c _ _
    | other e => exact fun j => hothers e _ j
  have hwhole : ∀ i, (Config.exec exec env es (sideBySide P fuel cmds fs₀)).shared.content
        (cmds i).output = fs₀.content (cmds i).output ∨
      ∃ W, (Config.exec exec env es (sideBySide P fuel cmds fs₀)).shared.content
        (cmds i).output = some W ∧ ∃ X, (cmds i).Produces P X W := by
    intro i
    refine Config.exec_related (R := fun s t => t.content (cmds i).output =
        s.content (cmds i).output ∨
      ∃ W, t.content (cmds i).output = some W ∧ ∃ X, (cmds i).Produces P X W) hcompat ?_ (i := i)
      (fun s t hst => .inl hst.2.content_eq) (fun s t hst => hst.2.imp_left (·.content_eq))
      (fun j => prog_publishes P fuel (cmds j) fs₀) hfits
    rintro a b c hab (hbc | hbc)
    · rwa [hbc]
    · exact .inr hbc
  refine ⟨hwhole, fun honest ideal hdistinct i plainPath cipherPath passphrase force hi => ?_⟩
  have hout := hwhole i
  rw [hi] at hout
  refine hout.imp_right ?_
  rintro ⟨W, hW, X, key, G, t, hkey, -, -, hgrammar⟩
  obtain ⟨f, hf, rfl, rfl, hheader⟩ := ideal.plaintext_eq hdistinct hgrammar
  rw [drop_take_of_isPrefix hheader] at hkey
  exact ⟨f, hf, hkey, hW⟩

end Interleaved

namespace Examples

/-- One command decrypts `b` to `c`, and the other encrypts `c` to `d`. -/
def relay (i : Bool) : Command :=
  if i then .encrypt ⟨[], utf8 "c"⟩ ⟨[], utf8 "d"⟩ [] .aes256Gcm false
  else .decrypt ⟨[], utf8 "c"⟩ ⟨[], utf8 "b"⟩ [] false

/-- An honest encrypted file. -/
def sealedB : Fs := Fs.ofFile ⟨[], utf8 "b"⟩ (TwoFiles.file 0).bytes

/-- Another party removes it. -/
def removeSealed (_ : Unit) (fs : Fs) : Fs := fs.remove ⟨[], utf8 "b"⟩

/-- The decryption has made its temporary file when `b` is removed, and the encryption starts when
there is an output. -/
def removeWhileRead : List (Event Bool Choice Unit) :=
  List.replicate 5 (.run false {}) ++ [.other ()] ++ List.replicate 4 (.run false {}) ++
    List.replicate 11 (.run true {})

/-- The file system when both have ended. -/
def relayed : Fs :=
  (Config.exec exec removeSealed removeWhileRead
    (sideBySide TwoFiles.primitives 100 relay sealedB)).shared

end Examples

open Examples in
/-- A decryption whose output is the input of an encryption, while the file that is decrypted is
removed: both outputs are as they were or whole products, and that of the decryption is the
plaintext of an honest file. -/
theorem outputs_published_relay :
    (∀ i, relayed.content (relay i).output = sealedB.content (relay i).output ∨
        ∃ W, relayed.content (relay i).output = some W ∧
          ∃ X, (relay i).Produces TwoFiles.primitives X W) ∧
      ∃ f ∈ [TwoFiles.file 0, TwoFiles.file 1],
        deriveKey TwoFiles.primitives [] f.header.salt.val = .ok f.key ∧
          relayed.content ⟨[], utf8 "c"⟩ = some f.plaintext := by
  have hpaths : ∀ i, (relay i).tmp ≠ ⟨[], utf8 "b"⟩ ∧ (relay i).output ≠ ⟨[], utf8 "b"⟩ := by
    decide +kernel
  obtain ⟨hwhole, hhonest⟩ := @outputs_published _ _ _ TwoFiles.primitives 100 relay sealedB
    removeSealed (by decide +kernel)
    (fun _ s i => ⟨keeps_remove (hpaths i).1, keeps_remove (hpaths i).2⟩) removeWhileRead
  refine ⟨hwhole, (hhonest [TwoFiles.file 0, TwoFiles.file 1] TwoFiles.ideal TwoFiles.nodup_header
    false _ _ _ _ rfl).resolve_left fun hold => ?_⟩
  -- the decryption has made an output where there was none
  have hnone : sealedB.content ⟨[], utf8 "c"⟩ = none := by decide +kernel
  have hmade : relayed.content ⟨[], utf8 "c"⟩ ≠ none := by decide +kernel
  exact hmade (hold.trans hnone)

end Cry
