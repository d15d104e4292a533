import Cry.Effects.RelyGuarantee
import Cry.Rust.FileSystem

/-!
# Buffered files

The standard library's `BufReader` and `BufWriter` over open files, and stream programs served by
them: a program over a reader and a writer becomes a program over the file system.

## Main results

* `uses_onFiles`: a stream program served by files touches only its two handles;
* `satisfies_onFiles`: whatever the choices and the others, as long as nobody else changes the two
  files, a stream program that ends well has done what it does on some reader that supplies the
  input and a sink, and the bytes the sink received are in the output file and its buffer;
* `satisfies_onFiles_owned`: the same on some reader, when the others change the input.
-/

namespace Rust

open Effects

/-- Programs over the file system. -/
abbrev FsProg (ε α : Type) := Prog FsOp FsRes ε α

/-! ## Operations that change nothing -/

section ReadOnly

variable {ε α : Type} {K : Contract FsOp Choice Fs} {I : Fs → Prop} {fs : Fs}

/-- A program that changes nothing keeps whatever the others keep. -/
theorem satisfies_of_readOnly {x : FsProg ε α} (hx : x.Uses FsOp.ReadOnly)
    (hrely : ∀ s t, I s → K.rely s t → I t) (hfs : I fs) :
    x.Satisfies exec K (fun _ => I) fs := by
  refine Prog.Satisfies.of_invariant hx hrely (fun o c s ho hs _ => ?_) hfs
  rw [exec_of_readOnly ho]
  exact ⟨K.guar_refl s, hs⟩

/-- An operation that changes nothing, followed by a program that meets its specification whatever
the answer. -/
theorem satisfies_readOnly {Q : Except ε α → Fs → Prop} {o : FsOp} {k : FsRes o → FsProg ε α}
    (ho : o.ReadOnly) (hrely : ∀ s t, I s → K.rely s t → I t)
    (hk : ∀ r t, I t → (k r).Satisfies exec K Q t) (hfs : I fs) :
    (Prog.op o k).Satisfies exec K Q fs := by
  intro t ht c _
  rw [exec_of_readOnly ho]
  exact ⟨K.guar_refl t, hk _ _ (hrely _ _ hfs ht)⟩

end ReadOnly

/-! ## Buffers -/

/-- The buffer size of `BufReader` and `BufWriter`. -/
def bufCapacity : ℕ := 8192

/-- A `BufReader`: the offset of its file and the bytes read ahead. -/
structure ReadBuf where
  off : ℕ := 0
  ahead : Bytes := []

/-- A `BufWriter`: the offset of its file and the bytes not yet written. -/
structure WriteBuf where
  off : ℕ := 0
  buf : Bytes := []

variable {ε ε' α β : Type}

/-- `Read::read` of a `BufReader`: from the bytes read ahead, else from the file, through the
buffer or, for a large request, past it. -/
def ReadBuf.read (rb : ReadBuf) (i cap : ℕ) : FsProg ε (Except IoError Bytes × ReadBuf) :=
  if rb.ahead = [] then
    .op (.readAt i rb.off (max cap bufCapacity)) fun
      | .ok bs => .pure (.ok (bs.take cap), { off := rb.off + bs.length, ahead := bs.drop cap })
      | .error e => .pure (.error e.toIoError, rb)
  else
    .pure (.ok (rb.ahead.take cap), { rb with ahead := rb.ahead.drop cap })

/-- The loop of `Write::write_all` on a file, retrying interrupted calls: the result, the offset
reached and what is left to write. -/
def writeLoop (i : ℕ) : (fuel off : ℕ) → (buf : Bytes) → FsProg ε (Except IoError Unit × ℕ × Bytes)
  | 0, _, _ => .diverge
  | fuel + 1, off, buf =>
    if buf = [] then .pure (.ok (), off, [])
    else
      .op (.writeAt i off buf) fun
        | .ok 0 => .pure (.error .writeZero, off, buf)
        | .ok (n + 1) => writeLoop i fuel (off + (n + 1)) (buf.drop (n + 1))
        | .error .interrupted => writeLoop i fuel off buf
        | .error e => .pure (.error e.toIoError, off, buf)

namespace WriteBuf

/-- `Write::flush` of a `BufWriter`. -/
def flush (wb : WriteBuf) (fuel i : ℕ) : FsProg ε (Except IoError Unit × WriteBuf) :=
  (writeLoop i fuel wb.off wb.buf).bind fun (res, off, rest) => .pure (res, { off, buf := rest })

/-- `Write::write_all` of a `BufWriter`: a buffer that does not fit flushes what is there, and a
large one is written past the buffer. -/
def writeAll (wb : WriteBuf) (fuel i : ℕ) (buf : Bytes) :
    FsProg ε (Except IoError Unit × WriteBuf) :=
  if buf.length < bufCapacity - wb.buf.length then
    .pure (.ok (), { wb with buf := wb.buf ++ buf })
  else
    (if bufCapacity - wb.buf.length < buf.length then wb.flush fuel i
      else .pure (.ok (), wb)).bind fun
    | (.error e, wb) => .pure (.error e, wb)
    | (.ok (), wb) =>
      if bufCapacity ≤ buf.length then
        (writeLoop i fuel wb.off buf).bind fun (res, off, _) => .pure (res, { wb with off })
      else
        .pure (.ok (), { wb with buf := wb.buf ++ buf })

/-- Dropping a `BufWriter` flushes it and ignores the result. -/
def drop (wb : WriteBuf) (fuel i : ℕ) : FsProg ε Unit :=
  (wb.flush fuel i).bind fun _ => .pure ()

end WriteBuf

/-! ## Stream programs on files -/

/-- A reader and a writer. -/
structure Buffers where
  reader : ReadBuf := {}
  writer : WriteBuf := {}

/-- Serve one stream operation from the input file `ir` and the output file `iw`, if there is
one. -/
def serve (fuel ir : ℕ) (iw : Option ℕ) :
    (o : StreamOp) → Buffers → FsProg ε (StreamRes o × Buffers)
  | .read cap, b => (b.reader.read ir cap).bind fun (res, reader) => .pure (res, { b with reader })
  | .writeAll buf, b =>
    match iw with
    | some i =>
      (b.writer.writeAll fuel i buf).bind fun (res, writer) => .pure (res, { b with writer })
    | none => .pure (.error (.other 9), b)

/-- Run a stream program on the input file `ir` and the output file `iw`. -/
def StreamProg.onFiles (x : StreamProg ε α) (fuel ir : ℕ) (iw : Option ℕ) (b : Buffers) :
    FsProg ε' (Except ε α × Buffers) :=
  x.translate (serve fuel ir iw) b

/-! ## Which operations are issued -/

/-- An operation on one of the two handles. -/
def OnHandles (ir : ℕ) (iw : Option ℕ) : FsOp → Prop
  | .readAt i _ _ => i = ir
  | .writeAt i _ _ => iw = some i
  | _ => False

variable {fuel ir i : ℕ} {iw : Option ℕ}

theorem uses_writeLoop {off : ℕ} {buf : Bytes} :
    (writeLoop i fuel off buf : FsProg ε _).Uses (OnHandles ir (some i)) := by
  -- induction on the fuel: one `write` a round, which is repeated or fails or goes on
  induction fuel generalizing off buf with
  | zero => trivial
  | succ fuel ih =>
    rw [writeLoop]
    split
    · trivial
    · refine ⟨rfl, fun r => ?_⟩
      rcases r with e | _ | n
      · cases e with
        | interrupted => exact ih
        | _ => trivial
      · trivial
      · exact ih

theorem WriteBuf.uses_flush (wb : WriteBuf) :
    (wb.flush fuel i : FsProg ε _).Uses (OnHandles ir (some i)) :=
  Prog.uses_bind uses_writeLoop fun _ => trivial

theorem WriteBuf.uses_drop (wb : WriteBuf) :
    (wb.drop fuel i : FsProg ε _).Uses (OnHandles ir (some i)) :=
  Prog.uses_bind wb.uses_flush fun _ => trivial

theorem WriteBuf.uses_writeAll (wb : WriteBuf) (buf : Bytes) :
    (wb.writeAll fuel i buf : FsProg ε _).Uses (OnHandles ir (some i)) := by
  unfold writeAll
  split
  · trivial
  · refine Prog.uses_bind ?_ fun p => ?_
    · split
      · exact wb.uses_flush
      · trivial
    · obtain ⟨e | ⟨⟩, wb⟩ := p
      · trivial
      · dsimp only
        split
        · exact Prog.uses_bind uses_writeLoop fun _ => trivial
        · trivial

/-- A stream program served by files touches only its two handles. -/
theorem uses_onFiles (x : StreamProg ε α) (b : Buffers) :
    (x.onFiles fuel ir iw b : FsProg ε' _).Uses (OnHandles ir iw) := by
  refine Prog.uses_translate (fun o b => ?_) x b
  cases o with
  | read cap =>
    refine Prog.uses_bind ?_ fun _ => trivial
    unfold ReadBuf.read
    split
    · exact ⟨rfl, fun r => by cases r <;> trivial⟩
    · trivial
  | writeAll buf =>
    cases iw with
    | some i => exact Prog.uses_bind (b.writer.uses_writeAll buf) fun _ => trivial
    | none => trivial

/-! ## Simulation -/

/-- The program asks for at least one byte in every read, and ends in an error as soon as a write
has failed. -/
def StreamProg.Careful : StreamProg ε α → Prop
  | .pure _ => True
  | .throw _ => True
  | .op (.read cap) k => 0 < cap ∧ ∀ r, StreamProg.Careful (k r)
  | .op (.writeAll _) k =>
    StreamProg.Careful (k (.ok ())) ∧ ∀ e, ∃ e', k (.error e) = .throw e'
  | .diverge => True

namespace StreamProg

theorem careful_bind {x : StreamProg ε α} {f : α → StreamProg ε β} (hx : x.Careful)
    (hf : ∀ a, (f a).Careful) : StreamProg.Careful (x.bind f) := by
  induction x with
  | pure a => exact hf a
  | throw e => trivial
  | diverge => trivial
  | op o k ih =>
    cases o with
    | read cap => exact ⟨hx.1, fun r => ih r (hx.2 r)⟩
    | writeAll buf =>
      refine ⟨ih _ hx.1, fun e => ?_⟩
      obtain ⟨e', he'⟩ := hx.2 e
      exact ⟨e', congrArg (Prog.bind · f) he'⟩

theorem careful_ofExcept (r : Except ε α) : StreamProg.Careful (Prog.ofExcept r) := by
  cases r <;> trivial

theorem careful_fill {len : ℕ} {buf : Bytes} : (fill fuel len buf : StreamProg ε _).Careful := by
  induction fuel generalizing buf with
  | zero => trivial
  | succ fuel ih =>
    rw [fill]
    split
    · refine ⟨by omega, fun r => ?_⟩
      rcases r with e | _ | ⟨d, ds⟩
      · cases e with
        | interrupted => exact ih
        | _ => trivial
      · trivial
      · exact ih
    · trivial

theorem careful_readExact {len : ℕ} : (readExact fuel len : StreamProg ε _).Careful := by
  refine careful_bind careful_fill fun r => ?_
  cases r with
  | error e => trivial
  | ok bs =>
    dsimp only
    split <;> trivial

end StreamProg

/-- What a program that uses two files needs of its surroundings, as long as `Held` holds: nobody
else changes the files, the input file holds `X`, and writing to the output file is within the
guarantee. -/
structure Exclusive (K : Contract FsOp Choice Fs) (ir : ℕ) (iw : Option ℕ) (X : Bytes)
    (Held : Fs → Prop) : Prop where
  rely : ∀ {s t}, Held s → K.rely s t → Held t ∧ ∀ i, iw = some i → t.data i = s.data i
  input : ∀ {s}, Held s → s.data ir = X
  write : ∀ {s i}, iw = some i → Held s → ∀ off bs,
    K.guar s (s.write i off bs) ∧ Held (s.write i off bs)

/-- What a program that writes a file needs of its surroundings, as long as `Held` holds: nobody
else changes the file, and writing to it is within the guarantee. -/
structure Owned (K : Contract FsOp Choice Fs) (iw : Option ℕ) (Held : Fs → Prop) : Prop where
  rely : ∀ {s t}, Held s → K.rely s t → Held t ∧ ∀ i, iw = some i → t.data i = s.data i
  write : ∀ {s i}, iw = some i → Held s → ∀ off bs,
    K.guar s (s.write i off bs) ∧ Held (s.write i off bs)

theorem Exclusive.owned {K : Contract FsOp Choice Fs} {ir : ℕ} {iw : Option ℕ} {X : Bytes}
    {Held : Fs → Prop} (h : Exclusive K ir iw X Held) : Owned K iw Held :=
  ⟨h.rely, h.write⟩

/-- What has been given to the writer is in the file and, not yet written, in the buffer. -/
def Pending (fs : Fs) (i : ℕ) (wb : WriteBuf) (w : Bytes) : Prop :=
  wb.off = (fs.data i).length ∧ fs.data i ++ wb.buf = w

/-- The buffers stand for a reader of `X` with `R` left and a sink that has received `w`. -/
def Buffered (X : Bytes) (iw : Option ℕ) (fs : Fs) (b : Buffers) (R w : Bytes) : Prop :=
  R = b.reader.ahead ++ X.drop b.reader.off ∧ ∀ i, iw = some i → Pending fs i b.writer w

theorem Pending.of_data {fs fs' : Fs} {wb : WriteBuf} {w : Bytes} (h : Pending fs i wb w)
    (hdata : fs'.data i = fs.data i) : Pending fs' i wb w := by
  rwa [Pending, hdata]

section Simulation

variable {K : Contract FsOp Choice Fs} {X : Bytes} {Held : Fs → Prop} {fs : Fs}

/-- The write loop ends well only when it has appended its buffer to the file. -/
theorem writeLoop_satisfies (h : Owned K (some i) Held) {off : ℕ} {buf : Bytes}
    (hfs : Held fs) :
    (writeLoop i fuel off buf : FsProg ε _).Satisfies exec K (fun r t => ∃ res off' rest,
      r = .ok (res, off', rest) ∧ Held t ∧
        (off = (fs.data i).length → res = .ok () →
          rest = [] ∧ off' = (t.data i).length ∧ t.data i = fs.data i ++ buf)) fs := by
  -- induction on the fuel; what has been appended so far is carried in the file
  induction fuel generalizing off buf fs with
  | zero => trivial
  | succ fuel ih =>
    rw [writeLoop]
    split
    · next hnil =>
      intro t ht
      obtain ⟨hHeld, hdata⟩ := h.rely hfs ht
      refine ⟨_, _, _, rfl, hHeld, fun hoff _ => ⟨rfl, ?_, ?_⟩⟩
      · rw [hoff, hdata i rfl]
      · rw [hdata i rfl, hnil, List.append_nil]
    · intro t ht c _
      obtain ⟨hHeld, hdata⟩ := h.rely hfs ht
      cases hc : c.fails with
      | some e =>
        simp only [exec, Choice.orFail, hc]
        refine ⟨K.guar_refl t, ?_⟩
        cases e with
        | interrupted =>
          -- the call was interrupted and has written nothing
          refine (ih hHeld).mono ?_
          rintro _ u ⟨res, off', rest, rfl, hu, hres⟩
          exact ⟨res, off', rest, rfl, hu, hdata i rfl ▸ hres⟩
        | _ =>
          intro u hu
          exact ⟨_, _, _, rfl, (h.rely hHeld hu).1, by simp⟩
      | none =>
        simp only [exec, Choice.orFail, hc]
        -- a part of the buffer is written, and the loop goes on behind it
        obtain ⟨hg, hw⟩ := h.write rfl hHeld off (buf.take c.amount)
        refine ⟨hg, ?_⟩
        cases hn : min buf.length c.amount with
        | zero =>
          intro u hu
          exact ⟨_, _, _, rfl, (h.rely hw hu).1, by simp⟩
        | succ n =>
          refine (ih hw).mono ?_
          rintro _ u ⟨res, off', rest, rfl, hu, hres⟩
          refine ⟨res, off', rest, rfl, hu, fun hoff hok => ?_⟩
          have htake : buf.take c.amount = buf.take (n + 1) := by
            rw [← hn, Nat.min_comm, ← List.take_eq_take_min]
          have hlast : (t.write i off (buf.take c.amount)).data i =
              fs.data i ++ buf.take (n + 1) := by
            rw [Fs.data_write_self, hdata i rfl, hoff, Fs.splice_length, htake]
          have hlen : off + (n + 1) = ((t.write i off (buf.take c.amount)).data i).length := by
            rw [hlast, List.length_append, List.length_take, hoff]
            omega
          obtain ⟨hrest, hoff', hdata'⟩ := hres hlen hok
          exact ⟨hrest, hoff', by rw [hdata', hlast, List.append_assoc, List.take_append_drop]⟩

/-- A flush that succeeds empties the buffer into the file. -/
theorem WriteBuf.flush_satisfies (h : Owned K (some i) Held) (wb : WriteBuf)
    (hfs : Held fs) :
    (wb.flush fuel i : FsProg ε _).Satisfies exec K (fun r t => ∃ res wb', r = .ok (res, wb') ∧
      Held t ∧ ∀ w, Pending fs i wb w → res = .ok () → Pending t i wb' w ∧ wb'.buf = []) fs := by
  refine (writeLoop_satisfies h hfs).bind ?_ (by simp)
  rintro _ t ⟨res, off', rest, heq, ht, hres⟩ u hu
  obtain rfl := Except.ok.inj heq
  obtain ⟨hHeld, hdata⟩ := h.rely ht hu
  refine ⟨_, _, rfl, hHeld, ?_⟩
  rintro w ⟨hoff, rfl⟩ hok
  obtain ⟨rfl, hoff', hw⟩ := hres hoff hok
  refine ⟨⟨by rw [hoff', hdata i rfl], ?_⟩, rfl⟩
  rw [hdata i rfl, hw, List.append_nil]

/-- Dropping an empty writer writes nothing. -/
theorem WriteBuf.drop_satisfies (h : Owned K (some i) Held) (wb : WriteBuf)
    (hfs : Held fs) :
    (wb.drop fuel i : FsProg ε _).Satisfies exec K (fun r t => r = .ok () ∧ Held t ∧
      (wb.buf = [] → t.data i = fs.data i)) fs := by
  by_cases hempty : wb.buf = []
  · cases fuel with
    | zero => trivial
    | succ fuel =>
      -- there is nothing to flush
      have hdrop : (wb.drop (fuel + 1) i : FsProg ε _) = .pure () := by
        simp [drop, flush, writeLoop, hempty]
      rw [hdrop]
      intro t ht
      obtain ⟨hHeld, hdata⟩ := h.rely hfs ht
      exact ⟨rfl, hHeld, fun _ => hdata i rfl⟩
  · refine (wb.flush_satisfies h hfs).bind ?_ (by simp)
    rintro _ t ⟨res, wb', -, ht, -⟩ u hu
    exact ⟨rfl, (h.rely ht hu).1, fun hnil => absurd hnil hempty⟩

/-- A `write_all` that succeeds gives its buffer to the writer. -/
theorem WriteBuf.writeAll_satisfies (h : Owned K (some i) Held) (wb : WriteBuf)
    (buf : Bytes) (hfs : Held fs) :
    (wb.writeAll fuel i buf : FsProg ε _).Satisfies exec K (fun r t => ∃ res wb',
      r = .ok (res, wb') ∧ Held t ∧
        ∀ w, Pending fs i wb w → res = .ok () → Pending t i wb' (w ++ buf)) fs := by
  have hfits : ∀ {wb' : WriteBuf} {fs' : Fs} {w : Bytes}, Pending fs' i wb' w →
      Pending fs' i { wb' with buf := wb'.buf ++ buf } (w ++ buf) := by
    rintro wb' fs' w ⟨hoff, rfl⟩
    exact ⟨hoff, (List.append_assoc _ _ _).symm⟩
  rw [writeAll]
  split
  · intro t ht
    obtain ⟨hHeld, hdata⟩ := h.rely hfs ht
    exact ⟨_, _, rfl, hHeld, fun w hw _ => hfits (hw.of_data (hdata i rfl))⟩
  · -- after the flush, a buffer that goes past the writer finds it empty
    refine Prog.Satisfies.bind (?_ : Prog.Satisfies exec K (fun r t => ∃ res wb',
      r = .ok (res, wb') ∧ Held t ∧ ∀ w, Pending fs i wb w → res = .ok () →
        Pending t i wb' w ∧ (bufCapacity ≤ buf.length → wb'.buf = [])) _ fs) ?_ (by simp)
    · split
      · refine (wb.flush_satisfies h hfs).mono ?_
        rintro _ t ⟨res, wb', rfl, ht, hres⟩
        exact ⟨res, wb', rfl, ht, fun w hw hok => ⟨(hres w hw hok).1, fun _ => (hres w hw hok).2⟩⟩
      · next hspare =>
        intro t ht
        obtain ⟨hHeld, hdata⟩ := h.rely hfs ht
        refine ⟨_, _, rfl, hHeld, fun w hw _ => ⟨hw.of_data (hdata i rfl), fun hlarge => ?_⟩⟩
        rw [← List.length_eq_zero_iff]
        rw [bufCapacity] at hspare hlarge
        omega
    · rintro _ t ⟨res, wb', heq, ht, hres⟩
      obtain rfl := Except.ok.inj heq
      cases res with
      | error e =>
        intro u hu
        exact ⟨_, _, rfl, (h.rely ht hu).1, by simp⟩
      | ok =>
        dsimp only
        split
        · next hlarge =>
          refine (writeLoop_satisfies h ht).bind ?_ (by simp)
          rintro _ u ⟨res, off', rest, heq, hu, hloop⟩ v hv
          obtain rfl := Except.ok.inj heq
          obtain ⟨hHeld, hdata⟩ := h.rely hu hv
          refine ⟨_, _, rfl, hHeld, fun w hw hok => ?_⟩
          obtain ⟨⟨hoff, rfl⟩, hempty⟩ := hres w hw rfl
          obtain ⟨-, hoff', hdata'⟩ := hloop hoff hok
          refine Pending.of_data ⟨hoff', ?_⟩ (hdata i rfl)
          rw [hdata', hempty hlarge, List.append_nil, List.append_nil]
        · intro u hu
          obtain ⟨hHeld, hdata⟩ := h.rely ht hu
          exact ⟨_, _, rfl, hHeld, fun w hw _ => hfits ((hres w hw rfl).1.of_data (hdata i rfl))⟩

/-- A buffered read takes the next bytes of the input, none only at its end, or fails. -/
theorem ReadBuf.read_satisfies (h : Exclusive K ir iw X Held) (rb : ReadBuf) {cap : ℕ}
    (hcap : 0 < cap) (hfs : Held fs) :
    (rb.read ir cap : FsProg ε _).Satisfies exec K (fun r t => ∃ res rb', r = .ok (res, rb') ∧
      Held t ∧ (∀ i, iw = some i → t.data i = fs.data i) ∧
        ((∃ bs, res = .ok bs ∧ bs.length ≤ cap ∧
            rb.ahead ++ X.drop rb.off = bs ++ (rb'.ahead ++ X.drop rb'.off) ∧
            (bs = [] → rb'.ahead ++ X.drop rb'.off = [])) ∨
          ∃ e, res = .error e ∧ e ≠ .unexpectedEof ∧ rb' = rb)) fs := by
  rw [read]
  split
  · next hnil =>
    intro t ht c _
    obtain ⟨hHeld, hdata⟩ := h.rely hfs ht
    cases hc : c.fails with
    | some e =>
      simp only [exec, Choice.orFail, hc]
      refine ⟨K.guar_refl t, fun u hu => ?_⟩
      obtain ⟨hHeld', hdata'⟩ := h.rely hHeld hu
      exact ⟨_, _, rfl, hHeld', fun i hi => (hdata' i hi).trans (hdata i hi),
        .inr ⟨_, rfl, e.toIoError_ne_unexpectedEof, rfl⟩⟩
    | none =>
      simp only [exec, Choice.orFail, hc, h.input hHeld]
      refine ⟨K.guar_refl t, fun u hu => ?_⟩
      obtain ⟨hHeld', hdata'⟩ := h.rely hHeld hu
      refine ⟨_, _, rfl, hHeld', fun i hi => (hdata' i hi).trans (hdata i hi), .inl ⟨_, rfl, ?_⟩⟩
      -- the buffer is filled from the file, and the first `cap` bytes of it are handed out
      obtain ⟨n, hn⟩ : ∃ n, min (max cap bufCapacity) (max 1 c.amount) = n + 1 :=
        Nat.exists_eq_add_one.mpr (by omega)
      obtain ⟨rest, hrest⟩ := List.take_prefix (n + 1) (X.drop rb.off)
      have hdrop : X.drop (rb.off + ((X.drop rb.off).take (n + 1)).length) = rest := by
        rw [← List.drop_drop]
        nth_rewrite 2 [← hrest]
        exact List.drop_left
      have hsplit : X.drop rb.off = ((X.drop rb.off).take (n + 1)).take cap ++
          (((X.drop rb.off).take (n + 1)).drop cap ++ rest) := by
        rw [← List.append_assoc, List.take_append_drop, hrest]
      rw [hn, hdrop, hnil, List.nil_append]
      refine ⟨List.length_take_le _ _, hsplit, fun hempty => ?_⟩
      have hend : X.drop rb.off = [] := by
        by_contra hne
        simp [hne, hcap.ne'] at hempty
      exact (List.append_eq_nil_iff.mp (hsplit.symm.trans hend)).2
  · next hne =>
    intro t ht
    obtain ⟨hHeld, hdata⟩ := h.rely hfs ht
    -- there are bytes in the buffer, and the file is not asked
    refine ⟨_, _, rfl, hHeld, hdata, .inl ⟨_, rfl, List.length_take_le _ _, ?_, ?_⟩⟩
    · rw [← List.append_assoc, List.take_append_drop]
    · intro hempty
      simp [hne, hcap.ne'] at hempty

/-- A stream program served by two files that nobody else changes, whatever the choices: when it
ends well, it has done what it does on some reader that supplies the input and a sink, and the
buffers stand for what is left of the input and what the sink has received. -/
theorem satisfies_onFiles (h : Exclusive K ir iw X Held) {x : StreamProg ε α} (hx : x.Careful)
    {b : Buffers} {R w : Bytes} (hb : Buffered X iw fs b R w) (hfs : Held fs) :
    (x.onFiles fuel ir iw b : FsProg ε' _).Satisfies exec K (fun r t => ∃ res b',
      r = .ok (res, b') ∧ Held t ∧ ∀ a, res = .ok a → ∃ r₀ r₁ R' w', Supplies R r₀ ∧
        x.run ⟨r₀, { written := w }⟩ = some (.ok a, ⟨r₁, { written := w' }⟩) ∧
        Supplies R' r₁ ∧ Buffered X iw t b' R' w') fs := by
  induction x generalizing b R w fs with
  | pure a =>
    intro t ht
    obtain ⟨hHeld, hdata⟩ := h.rely hfs ht
    refine ⟨_, _, rfl, hHeld, fun a' ha => ?_⟩
    obtain rfl := Except.ok.inj ha
    exact ⟨_, _, R, w, offers_ofSlice _ R, rfl, offers_ofSlice _ R, hb.1,
      fun i hi => (hb.2 i hi).of_data (hdata i hi)⟩
  | throw e =>
    intro t ht
    exact ⟨_, _, rfl, (h.rely hfs ht).1, by simp⟩
  | diverge => trivial
  | op o k ih =>
    cases o with
    | read cap =>
      obtain ⟨hcap, hk⟩ := hx
      refine Prog.Satisfies.bind ((b.reader.read_satisfies h hcap hfs).bind
        (Q := fun r t => ∃ res b', r = .ok (res, b') ∧ Held t ∧ ∃ R', Buffered X iw t b' R' w ∧
          ((∃ bs, res = .ok bs ∧ bs.length ≤ cap ∧ R = bs ++ R' ∧ (bs = [] → R' = [])) ∨
            ∃ e, res = .error e ∧ e ≠ .unexpectedEof ∧ R' = R)) ?_ (by simp)) ?_ (by simp)
      · rintro _ t ⟨res, rb', heq, ht, hdata, hres⟩ u hu
        obtain rfl := Except.ok.inj heq
        obtain ⟨hHeld, hdata'⟩ := h.rely ht hu
        refine ⟨_, _, rfl, hHeld, _, ⟨rfl, fun i hi => (hb.2 i hi).of_data
          ((hdata' i hi).trans (hdata i hi))⟩, ?_⟩
        rw [hb.1]
        obtain hok | ⟨e, he, hne, rfl⟩ := hres
        · exact .inl hok
        · exact .inr ⟨e, he, hne, rfl⟩
      · rintro _ t ⟨res, b', heq, ht, R', hb', hres⟩
        obtain rfl := Except.ok.inj heq
        refine (ih res (hk res) hb' ht).mono ?_
        rintro _ u ⟨res', b'', rfl, hu, hrun⟩
        refine ⟨res', b'', rfl, hu, fun a ha => ?_⟩
        obtain ⟨r₀, r₁, R'', w', hr₀, hrun, hr₁, hb''⟩ := hrun a ha
        obtain ⟨bs, rfl, hlen, rfl, hend⟩ | ⟨e, rfl, hne, rfl⟩ := hres
        · refine ⟨.data bs :: r₀, r₁, R'', w', ?_, ?_, hr₁, hb''⟩
          · rcases eq_or_ne bs [] with rfl | hbs
            · obtain rfl := hend rfl
              exact .eof hr₀
            · exact .data hbs hr₀
          · rw [StreamProg.run_read, Reader.read, if_pos hlen]
            exact hrun
        · refine ⟨.fail e :: r₀, r₁, R'', w', .fail hne hr₀, ?_, hr₁, hb''⟩
          rw [StreamProg.run_read, Reader.read]
          exact hrun
    | writeAll buf =>
      obtain ⟨hk, herr⟩ := hx
      -- a failed write ends the program
      have hfail : ∀ e b' t, Held t → (StreamProg.onFiles (k (.error e)) fuel ir iw b' :
          FsProg ε' (Except ε α × Buffers)).Satisfies exec K (fun r t => ∃ res b'',
            r = .ok (res, b'') ∧ Held t ∧ ∀ a, res = .ok a → ∃ r₀ r₁ R' w', Supplies R r₀ ∧
              StreamProg.run (.op (.writeAll buf) k) ⟨r₀, { written := w }⟩ =
                some (.ok a, ⟨r₁, { written := w' }⟩) ∧
              Supplies R' r₁ ∧ Buffered X iw t b'' R' w') t := by
        intro e b' t ht
        obtain ⟨e', he'⟩ := herr e
        rw [he']
        intro u hu
        exact ⟨_, _, rfl, (h.rely ht hu).1, by simp⟩
      cases iw with
      | none => exact hfail _ _ _ hfs
      | some i =>
        refine Prog.Satisfies.bind ((b.writer.writeAll_satisfies h.owned buf hfs).bind
          (Q := fun r t => ∃ res b', r = .ok (res, b') ∧ Held t ∧
            (res = .ok () → Buffered X (some i) t b' R (w ++ buf))) ?_ (by simp)) ?_ (by simp)
        · rintro _ t ⟨res, wb', heq, ht, hres⟩ u hu
          obtain rfl := Except.ok.inj heq
          obtain ⟨hHeld, hdata⟩ := h.rely ht hu
          refine ⟨_, _, rfl, hHeld, fun hok => ⟨hb.1, fun j hj => ?_⟩⟩
          obtain rfl := Option.some.inj hj
          exact (hres w (hb.2 _ rfl) hok).of_data (hdata _ rfl)
        · rintro _ t ⟨res, b', heq, ht, hres⟩
          obtain rfl := Except.ok.inj heq
          cases res with
          | error e => exact hfail e b' t ht
          | ok =>
            refine (ih _ hk (hres rfl) ht).mono ?_
            rintro _ u ⟨res', b'', rfl, hu, hrun⟩
            refine ⟨res', b'', rfl, hu, fun a ha => ?_⟩
            obtain ⟨r₀, r₁, R'', w', hr₀, hrun, hr₁, hb''⟩ := hrun a ha
            exact ⟨r₀, r₁, R'', w', hr₀, by simpa using hrun, hr₁, hb''⟩

/-! ## An input that others change -/

/-- A buffered read of a file that others change gives some bytes, or fails. -/
theorem ReadBuf.read_owned (h : Owned K iw Held) (rb : ReadBuf) {cap : ℕ} (hfs : Held fs) :
    (rb.read ir cap : FsProg ε _).Satisfies exec K (fun r t => ∃ res rb', r = .ok (res, rb') ∧
      Held t ∧ (∀ i, iw = some i → t.data i = fs.data i) ∧
        ∀ bs, res = .ok bs → bs.length ≤ cap) fs := by
  rw [read]
  split
  · intro t ht c _
    obtain ⟨hHeld, hdata⟩ := h.rely hfs ht
    rw [exec_of_readOnly (by trivial)]
    refine ⟨K.guar_refl t, ?_⟩
    cases (exec (.readAt ir rb.off (max cap bufCapacity)) c t).1 with
    | error e =>
      intro u hu
      obtain ⟨hHeld', hdata'⟩ := h.rely hHeld hu
      exact ⟨_, _, rfl, hHeld', fun i hi => (hdata' i hi).trans (hdata i hi), by simp⟩
    | ok bs =>
      intro u hu
      obtain ⟨hHeld', hdata'⟩ := h.rely hHeld hu
      refine ⟨_, _, rfl, hHeld', fun i hi => (hdata' i hi).trans (hdata i hi), ?_⟩
      rintro _ heq
      obtain rfl := Except.ok.inj heq
      exact List.length_take_le _ _
  · intro t ht
    obtain ⟨hHeld, hdata⟩ := h.rely hfs ht
    refine ⟨_, _, rfl, hHeld, hdata, ?_⟩
    rintro _ heq
    obtain rfl := Except.ok.inj heq
    exact List.length_take_le _ _

/-- A stream program served by an input that others change and an output that they do not: when it
ends well, it has done what it does on some reader and a sink, and what the sink has received is in
the output file and its buffer. -/
theorem satisfies_onFiles_owned (h : Owned K iw Held) {x : StreamProg ε α} (hx : x.Careful)
    {b : Buffers} {w : Bytes} (hb : ∀ i, iw = some i → Pending fs i b.writer w) (hfs : Held fs) :
    (x.onFiles fuel ir iw b : FsProg ε' _).Satisfies exec K (fun r t => ∃ res b',
      r = .ok (res, b') ∧ Held t ∧ ∀ a, res = .ok a → ∃ r₀ r₁ w',
        x.run ⟨r₀, { written := w }⟩ = some (.ok a, ⟨r₁, { written := w' }⟩) ∧
        ∀ i, iw = some i → Pending t i b'.writer w') fs := by
  -- induction on the program; what was read is put in front of the reader of the rest
  induction x generalizing b w fs with
  | pure a =>
    intro t ht
    obtain ⟨hHeld, hdata⟩ := h.rely hfs ht
    refine ⟨_, _, rfl, hHeld, fun a' ha => ?_⟩
    obtain rfl := Except.ok.inj ha
    exact ⟨[], [], w, rfl, fun i hi => (hb i hi).of_data (hdata i hi)⟩
  | throw e =>
    intro t ht
    exact ⟨_, _, rfl, (h.rely hfs ht).1, by simp⟩
  | diverge => trivial
  | op o k ih =>
    cases o with
    | read cap =>
      refine Prog.Satisfies.bind ((b.reader.read_owned h hfs).bind
        (Q := fun r t => ∃ res b', r = .ok (res, b') ∧ Held t ∧
          (∀ i, iw = some i → Pending t i b'.writer w) ∧ ∀ bs, res = .ok bs → bs.length ≤ cap)
        ?_ (by simp)) ?_ (by simp)
      · rintro _ t ⟨res, rb', heq, ht, hdata, hres⟩ u hu
        obtain rfl := Except.ok.inj heq
        obtain ⟨hHeld, hdata'⟩ := h.rely ht hu
        exact ⟨_, _, rfl, hHeld, fun i hi => (hb i hi).of_data ((hdata' i hi).trans (hdata i hi)),
          hres⟩
      · rintro _ t ⟨res, b', heq, ht, hb', hres⟩
        obtain rfl := Except.ok.inj heq
        refine (ih res (hx.2 res) hb' ht).mono ?_
        rintro _ u ⟨res', b'', rfl, hu, hrun⟩
        refine ⟨res', b'', rfl, hu, fun a ha => ?_⟩
        obtain ⟨r₀, r₁, w', hrun, hw'⟩ := hrun a ha
        cases res with
        | ok bs =>
          refine ⟨.data bs :: r₀, r₁, w', ?_, hw'⟩
          rw [StreamProg.run_read, Reader.read, if_pos (hres bs rfl)]
          exact hrun
        | error e =>
          refine ⟨.fail e :: r₀, r₁, w', ?_, hw'⟩
          rw [StreamProg.run_read, Reader.read]
          exact hrun
    | writeAll buf =>
      obtain ⟨hk, herr⟩ := hx
      have hfail : ∀ e b' t, Held t → (StreamProg.onFiles (k (.error e)) fuel ir iw b' :
          FsProg ε' (Except ε α × Buffers)).Satisfies exec K (fun r t => ∃ res b'',
            r = .ok (res, b'') ∧ Held t ∧ ∀ a, res = .ok a → ∃ r₀ r₁ w',
              StreamProg.run (.op (.writeAll buf) k) ⟨r₀, { written := w }⟩ =
                some (.ok a, ⟨r₁, { written := w' }⟩) ∧
              ∀ i, iw = some i → Pending t i b''.writer w') t := by
        intro e b' t ht
        obtain ⟨e', he'⟩ := herr e
        rw [he']
        intro u hu
        exact ⟨_, _, rfl, (h.rely ht hu).1, by simp⟩
      cases iw with
      | none => exact hfail _ _ _ hfs
      | some i =>
        refine Prog.Satisfies.bind ((b.writer.writeAll_satisfies h buf hfs).bind
          (Q := fun r t => ∃ res b', r = .ok (res, b') ∧ Held t ∧
            (res = .ok () → Pending t i b'.writer (w ++ buf))) ?_ (by simp)) ?_ (by simp)
        · rintro _ t ⟨res, wb', heq, ht, hres⟩ u hu
          obtain rfl := Except.ok.inj heq
          obtain ⟨hHeld, hdata⟩ := h.rely ht hu
          exact ⟨_, _, rfl, hHeld, fun hok => (hres w (hb i rfl) hok).of_data (hdata i rfl)⟩
        · rintro _ t ⟨res, b', heq, ht, hres⟩
          obtain rfl := Except.ok.inj heq
          cases res with
          | error e => exact hfail e b' t ht
          | ok =>
            have hpending : ∀ j, some i = some j → Pending t j b'.writer (w ++ buf) := by
              intro j hj
              obtain rfl := Option.some.inj hj
              exact hres rfl
            refine (ih _ hk hpending ht).mono ?_
            rintro _ u ⟨res', b'', rfl, hu, hrun⟩
            refine ⟨res', b'', rfl, hu, fun a ha => ?_⟩
            obtain ⟨r₀, r₁, w', hrun, hw'⟩ := hrun a ha
            exact ⟨r₀, r₁, w', by simpa using hrun, hw'⟩

end Simulation

end Rust
