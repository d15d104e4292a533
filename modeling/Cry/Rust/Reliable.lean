import Cry.Effects.Total
import Cry.Rust.Buffered

/-!
# Buffered files on a reliable system

A system that fails no operation and serves at least one byte of each. On it the loops of the
standard library end: they are given enough fuel when it is above the number of bytes they write.

A stream program computes an outcome from `R` left to read and `w` written when it does so on every
reader that delivers `R` in parts. Served by two files it then ends with that outcome, which is
stronger than `satisfies_onFiles`: errors and termination are included.

## Main results

* `written_isPrefix_of_run`: a stream program only appends to its sink;
* `ends_onFiles`: a stream program served by files ends, with the outcome that it computes.
-/

namespace Rust

open Effects

/-- The system does not fail the operation and serves at least one byte. -/
def Choice.Serves (c : Choice) : Prop := c.fails = none ∧ 0 < c.amount

instance (c : Choice) : Decidable c.Serves := inferInstanceAs (Decidable (_ ∧ _))

/-- A contract under which the system is reliable. -/
def Reliable (K : Contract FsOp Choice Fs) : Prop := ∀ o c s, K.allowed o c s → c.Serves

variable {ε ε' α β : Type}

/-! ## What a stream program computes -/

/-- A `write_all` only appends to what has been written. -/
theorem Sink.written_isPrefix (buf : Bytes) (s : Sink) :
    s.written <+: (s.writeAll buf).2.written := by
  unfold Sink.writeAll
  split
  · exact List.prefix_append _ _
  · exact List.prefix_append _ _
  · exact List.prefix_append _ _

/-- A stream program only appends to what has been written. -/
theorem StreamProg.written_isPrefix_of_run {x : StreamProg ε α} {st st' : StreamState}
    {res : Except ε α} (h : x.run st = some (res, st')) : st.sink.written <+: st'.sink.written := by
  induction x generalizing st with
  | pure a =>
    obtain ⟨-, rfl⟩ := by simpa using h
    exact List.prefix_refl _
  | throw e =>
    obtain ⟨-, rfl⟩ := by simpa using h
    exact List.prefix_refl _
  | diverge => cases h
  | op o k ih =>
    cases o with
    | read cap =>
      rw [run_read] at h
      exact (ih _ h :)
    | writeAll buf =>
      rw [run_writeAll] at h
      exact (Sink.written_isPrefix buf st.sink).trans (ih _ h)

/-- On every reader that delivers `R` in non-empty parts, and after `w` has been written, the
program ends with a result, an unread rest and written bytes that are related by `Q`, and has
written fewer bytes than the fuel in all. -/
def StreamProg.Computes (x : StreamProg ε α) (fuel : ℕ) (R w : Bytes)
    (Q : Except ε α → Bytes → Bytes → Prop) : Prop :=
  ∀ r, Delivers R r → r.size ≤ 2 * R.length → ∃ res r' w',
    x.run ⟨r, { written := w }⟩ = some (res, ⟨r', { written := w' }⟩) ∧ w'.length < fuel ∧
      Q res r'.content w'

/-- A reader that delivers the bytes in at most one part. -/
theorem exists_delivers (R : Bytes) : ∃ r, Delivers R r ∧ r.size ≤ 2 * R.length := by
  cases R with
  | nil => exact ⟨[], .nil, le_rfl⟩
  | cons b bs =>
    refine ⟨Reader.ofSlice (b :: bs), delivers_ofSlice _, ?_⟩
    rw [Reader.size_ofSlice, List.length_cons]
    omega

namespace StreamProg.Computes

variable {fuel cap : ℕ} {R w : Bytes} {Q : Except ε α → Bytes → Bytes → Prop}

/-- A program that has ended has computed its result. -/
theorem of_pure {a : α} (h : StreamProg.Computes (.pure a) fuel R w Q) : Q (.ok a) R w := by
  obtain ⟨r, hr, hsize⟩ := exists_delivers R
  obtain ⟨res, r', w', hrun, -, hQ⟩ := h r hr hsize
  simp only [run_pure, Option.some.injEq, Prod.mk.injEq, StreamState.mk.injEq,
    Sink.mk.injEq] at hrun
  obtain ⟨rfl, rfl, rfl, -⟩ := hrun
  rwa [hr.content_eq] at hQ

theorem of_throw {e : ε} (h : StreamProg.Computes (.throw e : StreamProg ε α) fuel R w Q) :
    Q (.error e) R w := by
  obtain ⟨r, hr, hsize⟩ := exists_delivers R
  obtain ⟨res, r', w', hrun, -, hQ⟩ := h r hr hsize
  simp only [run_throw, Option.some.injEq, Prod.mk.injEq, StreamState.mk.injEq,
    Sink.mk.injEq] at hrun
  obtain ⟨rfl, rfl, rfl, -⟩ := hrun
  rwa [hr.content_eq] at hQ

theorem not_diverge : ¬StreamProg.Computes (.diverge : StreamProg ε α) fuel R w Q := by
  intro h
  obtain ⟨r, hr, hsize⟩ := exists_delivers R
  obtain ⟨_, _, _, hrun, -⟩ := h r hr hsize
  cases hrun

/-- After a read that took the bytes `bs`, the rest of the program computes the outcome from what
is left. -/
theorem of_read {k : Except IoError Bytes → StreamProg ε α} {bs R' : Bytes}
    (h : StreamProg.Computes (.op (.read cap) k) fuel (bs ++ R') w Q) (hlen : bs.length ≤ cap)
    (hend : bs = [] → R' = []) : StreamProg.Computes (k (.ok bs)) fuel R' w Q := by
  intro r hr hsize
  by_cases hbs : bs = []
  · -- the end of the input: a reader without data has no events left
    obtain rfl := hend hbs
    subst hbs
    obtain rfl : r = [] := by
      rcases r with _ | ⟨⟨ds⟩ | ⟨e⟩, rest⟩
      · rfl
      · simp [Reader.size] at hsize
      · simp [Reader.size] at hsize
    exact h [] .nil le_rfl
  · -- the part that was read is the first part of a reader
    obtain ⟨res, r', w', hrun, hrest⟩ := h (.data bs :: r) (.data hbs hr) (by
      have hpos := List.length_pos_iff.mpr hbs
      rw [Reader.size, List.length_append]
      omega)
    rw [run_read, Reader.read, if_pos hlen] at hrun
    exact ⟨res, r', w', hrun, hrest⟩

/-- After a completed write, the rest of the program computes the outcome from what has been
written. -/
theorem of_writeAll {k : Except IoError Unit → StreamProg ε α} {buf : Bytes}
    (h : StreamProg.Computes (.op (.writeAll buf) k) fuel R w Q) :
    StreamProg.Computes (k (.ok ())) fuel R (w ++ buf) Q := by
  intro r hr hsize
  obtain ⟨res, r', w', hrun, hrest⟩ := h r hr hsize
  exact ⟨res, r', w', by simpa using hrun, hrest⟩

/-- The fuel is above what has been written. -/
theorem length_lt {x : StreamProg ε α} (h : x.Computes fuel R w Q) : w.length < fuel := by
  obtain ⟨r, hr, hsize⟩ := exists_delivers R
  obtain ⟨_, _, _, hrun, hlt, -⟩ := h r hr hsize
  exact (written_isPrefix_of_run hrun).length_le.trans_lt hlt

end StreamProg.Computes

/-! ## Loops that end -/

section Ends

variable {K : Contract FsOp Choice Fs} {X : Bytes} {Held : Fs → Prop} {fs : Fs}
variable {fuel ir i : ℕ} {iw : Option ℕ}

/-- With fuel above the length of its buffer, the write loop ends without an error. -/
theorem writeLoop_ends (hK : Reliable K) (h : Exclusive K ir (some i) X Held) {off : ℕ}
    {buf : Bytes} (hfuel : buf.length < fuel) (hfs : Held fs) :
    (writeLoop i fuel off buf : FsProg ε _).Ends exec K
      (fun r _ => ∃ off' rest, r = .ok (.ok (), off', rest)) fs := by
  -- induction on the fuel: every call writes at least one byte
  induction fuel generalizing off buf fs with
  | zero => omega
  | succ fuel ih =>
    rw [writeLoop]
    split
    · exact fun t _ => ⟨_, _, rfl⟩
    · next hne =>
      intro t ht c hc
      obtain ⟨hfails, hamount⟩ := hK _ c t hc
      obtain ⟨hg, hw⟩ := h.write rfl (h.rely hfs ht).1 off (buf.take c.amount)
      have hpos := List.length_pos_iff.mpr hne
      obtain ⟨n, hn⟩ : ∃ n, min buf.length c.amount = n + 1 :=
        Nat.exists_eq_add_one.mpr (by omega)
      simp only [exec, Choice.orFail, hfails, hn]
      exact ⟨hg, ih (by rw [List.length_drop]; omega) hw⟩

/-- With fuel above the length of the buffer, a flush ends and puts the buffer into the file. -/
theorem WriteBuf.flush_ends (hK : Reliable K) (h : Exclusive K ir (some i) X Held) (wb : WriteBuf)
    (hfuel : wb.buf.length < fuel) (hfs : Held fs) :
    (wb.flush fuel i : FsProg ε _).Ends exec K (fun r t => ∃ wb', r = .ok (.ok (), wb') ∧
      Held t ∧ ∀ w, Pending fs i wb w → Pending t i wb' w ∧ wb'.buf = []) fs := by
  have hends : (wb.flush fuel i : FsProg ε _).Ends exec K
      (fun r _ => ∃ wb', r = .ok (.ok (), wb')) fs := by
    refine (writeLoop_ends hK h hfuel hfs).bind ?_ (by simp)
    rintro _ t ⟨off', rest, heq⟩
    obtain rfl := Except.ok.inj heq
    exact fun u _ => ⟨_, rfl⟩
  refine hends.and (wb.flush_satisfies h.owned hfs) ?_
  rintro _ t ⟨wb', rfl⟩ ⟨res, wb'', heq, ht, hres⟩
  obtain ⟨rfl, rfl⟩ : res = .ok () ∧ wb'' = wb' := by simpa using Eq.symm (Except.ok.inj heq)
  exact ⟨wb'', rfl, ht, fun w hw => hres w hw rfl⟩

/-- With fuel above the length of the buffer, dropping a writer ends, and what has been given to the
writer is in the file. -/
theorem WriteBuf.drop_ends (hK : Reliable K) (h : Exclusive K ir (some i) X Held) (wb : WriteBuf)
    (hfuel : wb.buf.length < fuel) (hfs : Held fs) :
    (wb.drop fuel i : FsProg ε _).Ends exec K (fun r t => r = .ok () ∧ Held t ∧
      ∀ w, Pending fs i wb w → t.data i = w) fs := by
  refine (wb.flush_ends hK h hfuel hfs).bind ?_ (by simp)
  rintro _ t ⟨wb', heq, ht, hres⟩ u hu
  obtain ⟨hHeld, hdata⟩ := h.rely ht hu
  refine ⟨rfl, hHeld, fun w hw => ?_⟩
  obtain ⟨⟨-, hw'⟩, hnil⟩ := hres w hw
  rw [hdata i rfl, ← hw', hnil, List.append_nil]

/-- With fuel above both buffers, a `write_all` ends and gives its buffer to the writer. -/
theorem WriteBuf.writeAll_ends (hK : Reliable K) (h : Exclusive K ir (some i) X Held)
    (wb : WriteBuf) (buf : Bytes) (hfuel : wb.buf.length < fuel) (hfuel' : buf.length < fuel)
    (hfs : Held fs) :
    (wb.writeAll fuel i buf : FsProg ε _).Ends exec K (fun r t => ∃ wb', r = .ok (.ok (), wb') ∧
      Held t ∧ ∀ w, Pending fs i wb w → Pending t i wb' (w ++ buf)) fs := by
  have hends : (wb.writeAll fuel i buf : FsProg ε _).Ends exec K
      (fun r _ => ∃ wb', r = .ok (.ok (), wb')) fs := by
    rw [writeAll]
    split
    · exact fun t _ => ⟨_, rfl⟩
    · -- a full writer is flushed first, and a large buffer is written past it
      have hflush : Prog.Ends exec K (fun r t => ∃ wb', r = .ok (.ok (), wb') ∧ Held t)
          (if bufCapacity - wb.buf.length < buf.length then wb.flush fuel i
            else .pure (.ok (), wb) : FsProg ε _) fs := by
        split
        · refine (wb.flush_ends hK h hfuel hfs).mono ?_
          rintro r t ⟨wb', hr, ht, -⟩
          exact ⟨wb', hr, ht⟩
        · exact fun t ht => ⟨_, rfl, (h.rely hfs ht).1⟩
      refine hflush.bind ?_ (by simp)
      rintro _ t ⟨wb', heq, ht⟩
      obtain rfl := Except.ok.inj heq
      dsimp only
      split
      · refine (writeLoop_ends hK h hfuel' ht).bind ?_ (by simp)
        rintro _ u ⟨off', rest, heq⟩
        obtain rfl := Except.ok.inj heq
        exact fun v _ => ⟨_, rfl⟩
      · exact fun u _ => ⟨_, rfl⟩
  refine hends.and (wb.writeAll_satisfies h.owned buf hfs) ?_
  rintro _ t ⟨wb', rfl⟩ ⟨res, wb'', heq, ht, hres⟩
  obtain ⟨rfl, rfl⟩ : res = .ok () ∧ wb'' = wb' := by simpa using Eq.symm (Except.ok.inj heq)
  exact ⟨wb'', rfl, ht, fun w hw => hres w hw rfl⟩

/-- A buffered read ends and takes the next bytes of the input, none only at its end. -/
theorem ReadBuf.read_ends (hK : Reliable K) (h : Exclusive K ir iw X Held) (rb : ReadBuf) {cap : ℕ}
    (hcap : 0 < cap) (hfs : Held fs) :
    (rb.read ir cap : FsProg ε _).Ends exec K (fun r t => ∃ bs rb', r = .ok (.ok bs, rb') ∧
      Held t ∧ (∀ i, iw = some i → t.data i = fs.data i) ∧ bs.length ≤ cap ∧
        rb.ahead ++ X.drop rb.off = bs ++ (rb'.ahead ++ X.drop rb'.off) ∧
        (bs = [] → rb'.ahead ++ X.drop rb'.off = [])) fs := by
  have hends : (rb.read ir cap : FsProg ε _).Ends exec K
      (fun r _ => ∃ bs rb', r = .ok (.ok bs, rb')) fs := by
    rw [read]
    split
    · intro t _ c hc
      simp only [exec, Choice.orFail, (hK _ c t hc).1]
      exact ⟨K.guar_refl t, fun u _ => ⟨_, _, rfl⟩⟩
    · exact fun t _ => ⟨_, _, rfl⟩
  refine hends.and (rb.read_satisfies h hcap hfs) ?_
  rintro _ t ⟨bs, rb', rfl⟩ ⟨res, rb'', heq, ht, hdata, hres⟩
  obtain ⟨rfl, rfl⟩ : res = .ok bs ∧ rb'' = rb' := by simpa using Eq.symm (Except.ok.inj heq)
  obtain ⟨bs', hbs, hlen, hsplit, hend⟩ | ⟨e, he, -⟩ := hres
  · obtain rfl := Except.ok.inj hbs
    exact ⟨bs, rb'', rfl, ht, hdata, hlen, hsplit, hend⟩
  · cases he

/-- A stream program served by two files that nobody else changes, on a reliable system: it ends
with an outcome that it computes from what is left of the input and what the sink has received, and
the buffers stand for what is left then. -/
theorem ends_onFiles (hK : Reliable K) (h : Exclusive K ir iw X Held) {x : StreamProg ε α}
    (hx : x.Careful) (hiw : iw = none → x.Uses fun o => ∃ cap, o = .read cap) {b : Buffers}
    {R w : Bytes} {Q : Except ε α → Bytes → Bytes → Prop} (hb : Buffered X iw fs b R w)
    (hcomp : x.Computes fuel R w Q) (hfs : Held fs) :
    (x.onFiles fuel ir iw b : FsProg ε' _).Ends exec K (fun r t => ∃ res b' R' w',
      r = .ok (res, b') ∧ Held t ∧ w'.length < fuel ∧ Q res R' w' ∧
        Buffered X iw t b' R' w') fs := by
  -- induction on the program: what one operation leaves computes the same outcome
  induction x generalizing b R w fs with
  | pure a =>
    intro t ht
    obtain ⟨hHeld, hdata⟩ := h.rely hfs ht
    exact ⟨_, _, R, w, rfl, hHeld, hcomp.length_lt, hcomp.of_pure, hb.1,
      fun i hi => (hb.2 i hi).of_data (hdata i hi)⟩
  | throw e =>
    intro t ht
    obtain ⟨hHeld, hdata⟩ := h.rely hfs ht
    exact ⟨_, _, R, w, rfl, hHeld, hcomp.length_lt, hcomp.of_throw, hb.1,
      fun i hi => (hb.2 i hi).of_data (hdata i hi)⟩
  | diverge => exact absurd hcomp StreamProg.Computes.not_diverge
  | op o k ih =>
    cases o with
    | read cap =>
      obtain ⟨hcap, hk⟩ := hx
      refine Prog.Ends.bind ((b.reader.read_ends hK h hcap hfs).bind
        (Q := fun r t => ∃ bs b' R', r = .ok (.ok bs, b') ∧ Held t ∧ bs.length ≤ cap ∧
          R = bs ++ R' ∧ (bs = [] → R' = []) ∧ Buffered X iw t b' R' w) ?_ (by simp)) ?_ (by simp)
      · rintro _ t ⟨bs, rb', heq, ht, hdata, hlen, hsplit, hend⟩ u hu
        obtain rfl := Except.ok.inj heq
        obtain ⟨hHeld, hdata'⟩ := h.rely ht hu
        exact ⟨_, _, _, rfl, hHeld, hlen, hb.1.trans hsplit, hend, rfl,
          fun i hi => (hb.2 i hi).of_data ((hdata' i hi).trans (hdata i hi))⟩
      · rintro _ t ⟨bs, b', R', heq, ht, hlen, rfl, hend, hb'⟩
        obtain rfl := Except.ok.inj heq
        exact ih _ (hk _) (fun hnone => (hiw hnone).2 _) hb' (hcomp.of_read hlen hend) ht
    | writeAll buf =>
      cases iw with
      | none =>
        obtain ⟨⟨cap, hcap⟩, -⟩ := hiw rfl
        cases hcap
      | some i =>
        -- the fuel is above all that is written, and so above every buffer
        have hrest := hcomp.of_writeAll
        have hlt := hrest.length_lt
        have hpending := hb.2 i rfl
        have hbuf : b.writer.buf.length ≤ w.length := by
          rw [← hpending.2, List.length_append]
          exact Nat.le_add_left _ _
        rw [List.length_append] at hlt
        refine Prog.Ends.bind ((b.writer.writeAll_ends hK h buf (by omega) (by omega) hfs).bind
          (Q := fun r t => ∃ b', r = .ok (.ok (), b') ∧ Held t ∧
            Buffered X (some i) t b' R (w ++ buf)) ?_ (by simp)) ?_ (by simp)
        · rintro _ t ⟨wb', heq, ht, hres⟩ u hu
          obtain rfl := Except.ok.inj heq
          obtain ⟨hHeld, hdata⟩ := h.rely ht hu
          refine ⟨_, rfl, hHeld, hb.1, fun j hj => ?_⟩
          obtain rfl := Option.some.inj hj
          exact (hres w hpending).of_data (hdata _ rfl)
        · rintro _ t ⟨b', heq, ht, hb'⟩
          obtain rfl := Except.ok.inj heq
          exact ih _ hx.1 (fun hnone => by cases hnone) hb' hrest ht

end Ends

end Rust
