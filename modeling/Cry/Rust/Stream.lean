import Cry.Bytes.BigEndian
import Cry.Effects.Prog

/-!
# Byte streams

Code that is generic in a reader and a writer (`impl Read`, `impl Write`) is a program over two
operations, reading up to a number of bytes and writing a whole buffer. This file gives the
operations, the standard library's read loop, and the handler that serves a program from a
schedule of read results and a sink.

A reader is the list of the results its coming `read` calls give: data, which a caller with a
smaller buffer takes in parts, or an error. The end of the list is the end of the stream.
`Offers` singles out the readers that offer a given content: any split into non-empty parts, end
of file only after all of it, failed calls of some kinds in between. `Delivers` allows interrupted
calls only.

## Main results

* `run_fill_isSome`: with enough fuel the read loop ends, whatever the reader does;
* `run_fill_eq_some`: from a reader that offers `B`, the read loop takes exactly the next bytes of
  `B` or fails, whatever the schedule;
* `run_readExact_eq_some`: the same for `read_exact`, which succeeds exactly when enough bytes are
  left.
-/

namespace Rust

open Effects

/-- Byte strings. -/
abbrev Bytes := List UInt8

/-- The bytes of a string. -/
def utf8 (s : String) : Bytes := s.toUTF8.data.toList

theorem utf8_injective : Function.Injective utf8 := by
  intro s t h
  exact String.toByteArray_inj.mp (ByteArray.ext (Array.toList_inj.mp h))

/-- The kinds of `std::io::Error` that the standard library or a caller distinguishes. -/
inductive IoError
  | interrupted
  | unexpectedEof
  | notFound
  | writeZero
  | other (code : ℕ)
  deriving DecidableEq, Repr

/-- The operations on a reader and a writer. -/
inductive StreamOp
  /-- `Read::read` with a buffer of `cap` bytes. -/
  | read (cap : ℕ)
  /-- `Write::write_all`. -/
  | writeAll (buf : Bytes)

/-- The answers to the operations: the bytes read, none at the end of the stream. -/
abbrev StreamRes : StreamOp → Type
  | .read _ => Except IoError Bytes
  | .writeAll _ => Except IoError Unit

/-- Programs over one reader and one writer. -/
abbrev StreamProg (ε α : Type) := Prog StreamOp StreamRes ε α

variable {ε α β : Type} {E : IoError → Prop}

/-- The loop of `Read::read_exact`: read until `len` bytes are in the buffer or the stream ends,
retrying interrupted calls. -/
def fill : (fuel len : ℕ) → (buf : Bytes) → StreamProg ε (Except IoError Bytes)
  | 0, _, _ => .diverge
  | fuel + 1, len, buf =>
    if buf.length < len then
      .op (.read (len - buf.length)) fun
        | .ok [] => .pure (.ok buf)
        | .ok (b :: bs) => fill fuel len (buf ++ b :: bs)
        | .error .interrupted => fill fuel len buf
        | .error e => .pure (.error e)
    else .pure (.ok buf)

/-- `Read::read_exact` into an array of `len` bytes. -/
def readExact (fuel len : ℕ) : StreamProg ε (Except IoError (U8Array len)) :=
  (fill fuel len []).bind fun
    | .error e => .pure (.error e)
    | .ok bs =>
      if h : bs.length = len then .pure (.ok ⟨bs, h⟩) else .pure (.error .unexpectedEof)

/-! ## Readers and sinks -/

/-- The result a coming `read` call gives. -/
inductive ReadEvent
  | data (bs : Bytes)
  | fail (e : IoError)
  deriving DecidableEq, Repr

/-- A reader, as the results of its coming calls. -/
abbrev Reader := List ReadEvent

namespace Reader

/-- One `read` call: data that does not fit the buffer is left for the next call. -/
def read (cap : ℕ) : Reader → Except IoError Bytes × Reader
  | [] => (.ok [], [])
  | .fail e :: rest => (.error e, rest)
  | .data bs :: rest =>
    if bs.length ≤ cap then (.ok bs, rest)
    else (.ok (bs.take cap), .data (bs.drop cap) :: rest)

/-- A bound on the number of calls a reader can still answer with data or an error. -/
def size : Reader → ℕ
  | [] => 0
  | .fail _ :: rest => size rest + 1
  | .data bs :: rest => bs.length + 1 + size rest

/-- All the data a reader still has. -/
def content : Reader → Bytes
  | [] => []
  | .fail _ :: rest => content rest
  | .data bs :: rest => bs ++ content rest

/-- The reader of a byte slice. -/
def ofSlice (bs : Bytes) : Reader := [.data bs]

@[simp] theorem size_ofSlice (bs : Bytes) : (ofSlice bs).size = bs.length + 1 := rfl

end Reader

/-- The reader offers exactly the given bytes: non-empty parts, calls that fail with an error of
`E`, and end of file only after all of them. -/
inductive Offers (E : IoError → Prop) : Bytes → Reader → Prop
  | nil : Offers E [] []
  | fail {e : IoError} {B : Bytes} {r : Reader} :
      E e → Offers E B r → Offers E B (.fail e :: r)
  | data {bs B : Bytes} {r : Reader} :
      bs ≠ [] → Offers E B r → Offers E (bs ++ B) (.data bs :: r)
  | eof {r : Reader} : Offers E [] r → Offers E [] (.data [] :: r)

/-- The reader delivers the given bytes: no call fails other than by being interrupted. -/
abbrev Delivers : Bytes → Reader → Prop := Offers (· = .interrupted)

/-- The reader supplies the given bytes: calls may fail, but an unexpected end of file is never
reported by the reader itself. -/
abbrev Supplies : Bytes → Reader → Prop := Offers (· ≠ .unexpectedEof)

theorem Offers.mono {E E' : IoError → Prop} {B : Bytes} {r : Reader} (h : Offers E B r)
    (hE : ∀ e, E e → E' e) : Offers E' B r := by
  induction h with
  | nil => exact .nil
  | fail he _ ih => exact .fail (hE _ he) ih
  | data hne _ ih => exact .data hne ih
  | eof _ ih => exact .eof ih

theorem Offers.supplies {B : Bytes} {r : Reader} (h : Delivers B r) : Supplies B r :=
  h.mono fun _ he => by simp [he]

/-- What a reader offers is its content. -/
theorem Offers.content_eq {E : IoError → Prop} {B : Bytes} {r : Reader} (h : Offers E B r) :
    r.content = B := by
  induction h with
  | nil => rfl
  | fail _ _ ih => exact ih
  | data _ _ ih => rw [Reader.content, ih]
  | eof _ ih => exact ih

/-- A slice offers its bytes. -/
theorem offers_ofSlice (E : IoError → Prop) (bs : Bytes) : Offers E bs (Reader.ofSlice bs) := by
  rcases eq_or_ne bs [] with rfl | hne
  · exact .eof .nil
  · simpa [Reader.ofSlice] using Offers.data hne (.nil (E := E))

/-- A slice delivers its bytes. -/
theorem delivers_ofSlice (bs : Bytes) : Delivers bs (Reader.ofSlice bs) :=
  offers_ofSlice _ bs

/-- A failing `write_all`: its error, and how many bytes of its buffer it has written by then. -/
structure WriteFault where
  error : IoError
  left : ℕ := 0
  deriving DecidableEq, Repr

/-- A sink collects the buffers of its `write_all` calls. `faults` holds the outcomes of the coming
calls, and no outcome means success. -/
structure Sink where
  /-- What the calls have written, in order. -/
  written : Bytes := []
  /-- The outcomes of the coming calls. -/
  faults : List (Option WriteFault) := []
  /-- Some call has failed. -/
  failed : Bool := false

/-- One `write_all` call. When it fails, a part of its buffer may have been written. -/
def Sink.writeAll (buf : Bytes) (s : Sink) : Except IoError Unit × Sink :=
  match s.faults with
  | [] => (.ok (), { s with written := s.written ++ buf })
  | none :: fs => (.ok (), { s with written := s.written ++ buf, faults := fs })
  | some f :: fs =>
    (.error f.error,
      { s with written := s.written ++ buf.take f.left, faults := fs, failed := true })

/-- A reader and a sink. -/
structure StreamState where
  reader : Reader
  sink : Sink := {}

/-- Serve one operation from the reader and the sink. -/
def StreamState.serve : (o : StreamOp) → StreamState → StreamRes o × StreamState
  | .read cap, st => ((st.reader.read cap).1, { st with reader := (st.reader.read cap).2 })
  | .writeAll buf, st => ((st.sink.writeAll buf).1, { st with sink := (st.sink.writeAll buf).2 })

/-- Run a program on a reader and a sink. -/
def StreamProg.run (p : StreamProg ε α) (st : StreamState) : Option (Except ε α × StreamState) :=
  Prog.run StreamState.serve p st

/-- The result of a program that reads a byte slice, `none` when it ran out of fuel. -/
def StreamProg.evalSlice (p : StreamProg ε α) (bs : Bytes) : Option (Except ε α) :=
  (p.run { reader := Reader.ofSlice bs }).map Prod.fst

namespace StreamProg

@[simp] theorem run_pure (a : α) (st : StreamState) :
    StreamProg.run (.pure a : StreamProg ε α) st = some (.ok a, st) := rfl

@[simp] theorem run_throw (e : ε) (st : StreamState) :
    StreamProg.run (.throw e : StreamProg ε α) st = some (.error e, st) := rfl

@[simp] theorem run_diverge (st : StreamState) :
    StreamProg.run (.diverge : StreamProg ε α) st = none := rfl

@[simp] theorem run_read (cap : ℕ) (k : Except IoError Bytes → StreamProg ε α) (st : StreamState) :
    StreamProg.run (.op (.read cap) k) st =
      (k (st.reader.read cap).1).run { st with reader := (st.reader.read cap).2 } := rfl

@[simp] theorem run_writeAll (buf : Bytes) (k : Except IoError Unit → StreamProg ε α)
    (st : StreamState) :
    StreamProg.run (.op (.writeAll buf) k) st =
      (k (st.sink.writeAll buf).1).run { st with sink := (st.sink.writeAll buf).2 } := rfl

@[simp] theorem run_bind (x : StreamProg ε α) (f : α → StreamProg ε β) (st : StreamState) :
    StreamProg.run (x.bind f) st = Prog.andThen (x.run st) fun a st' => (f a).run st' :=
  Prog.run_bind _ x f st

@[simp] theorem run_ofExcept (r : Except ε α) (st : StreamState) :
    StreamProg.run (Prog.ofExcept r) st = some (r, st) := by
  cases r <;> rfl

end StreamProg

@[simp] theorem Sink.writeAll_of_faults_nil (buf : Bytes) (s : Sink) (h : s.faults = []) :
    s.writeAll buf = (.ok (), { s with written := s.written ++ buf }) := by
  simp [Sink.writeAll, h]

/-- A completed `write_all` appends its buffer. -/
theorem Sink.written_of_ok {buf : Bytes} {s : Sink} (h : (s.writeAll buf).1 = .ok ()) :
    (s.writeAll buf).2.written = s.written ++ buf := by
  unfold Sink.writeAll at h ⊢
  split at h
  · rfl
  · rfl
  · cases h

/-- A failed `write_all` appends a part of its buffer, from the front. -/
theorem Sink.written_of_error {buf : Bytes} {s : Sink} {e : IoError}
    (h : (s.writeAll buf).1 = .error e) :
    (s.writeAll buf).2.failed = true ∧
      ∃ part, part <+: buf ∧ (s.writeAll buf).2.written = s.written ++ part := by
  unfold Sink.writeAll at h ⊢
  split at h
  · cases h
  · cases h
  · exact ⟨rfl, _, List.take_prefix _ _, rfl⟩

/-! ## The read loop -/

/-- The data a `read` call gives is taken off the front of the reader. -/
theorem Reader.read_of_ok {cap : ℕ} {r : Reader} {bs : Bytes} (h : (r.read cap).1 = .ok bs) :
    (r.read cap).2.size + bs.length ≤ r.size ∧ r.content = bs ++ (r.read cap).2.content := by
  rcases r with _ | ⟨⟨ds⟩ | ⟨e⟩, rest⟩
  · obtain rfl := Except.ok.inj h
    simp [read]
  · -- a part that is too long is handed out in pieces
    by_cases hle : ds.length ≤ cap
    · simp only [read, if_pos hle, Except.ok.injEq] at h ⊢
      subst h
      refine ⟨?_, rfl⟩
      rw [size]
      omega
    · simp only [read, if_neg hle, Except.ok.injEq] at h ⊢
      subst h
      refine ⟨?_, ?_⟩
      · rw [size, size, List.length_drop, List.length_take]
        omega
      · rw [content, content, ← List.append_assoc, List.take_append_drop]
  · cases h

/-- An error of a `read` call is taken off the reader, and nothing else. -/
theorem Reader.read_of_error {cap : ℕ} {r : Reader} {e : IoError}
    (h : (r.read cap).1 = .error e) :
    (r.read cap).2.size < r.size ∧ r.content = (r.read cap).2.content := by
  rcases r with _ | ⟨⟨ds⟩ | ⟨e⟩, rest⟩
  · cases h
  · by_cases hle : ds.length ≤ cap
    · simp [read, hle] at h
    · simp [read, hle] at h
  · simp [read, size, content]

/-- A `read` call gives at most as many bytes as are asked for. -/
theorem Reader.length_le_of_read {cap : ℕ} {r : Reader} {bs : Bytes}
    (h : (r.read cap).1 = .ok bs) : bs.length ≤ cap := by
  rcases r with _ | ⟨⟨ds⟩ | ⟨e⟩, rest⟩
  · obtain rfl := Except.ok.inj h
    exact Nat.zero_le _
  · by_cases hle : ds.length ≤ cap
    · simp only [read, if_pos hle, Except.ok.injEq] at h
      exact h ▸ hle
    · simp only [read, if_neg hle, Except.ok.injEq] at h
      exact h ▸ List.length_take_le _ _
  · cases h

/-- With fuel above the reader's size, the read loop ends, whatever the reader does. -/
theorem run_fill_isSome {fuel : ℕ} (len : ℕ) (buf : Bytes) {st : StreamState}
    (hfuel : st.reader.size < fuel) :
    ∃ x, StreamProg.run (fill fuel len buf : StreamProg ε _) st = some x := by
  -- induction on the fuel; every call that does not end the loop makes the reader smaller
  induction fuel generalizing buf st with
  | zero => omega
  | succ fuel ih =>
    rw [fill]
    by_cases hlt : buf.length < len
    · rw [if_pos hlt, StreamProg.run_read]
      cases hread : (st.reader.read (len - buf.length)).1 with
      | error e =>
        obtain ⟨hsize, hcontent⟩ := Reader.read_of_error hread
        cases e with
        | interrupted => exact ih buf (by simp only; omega)
        | _ => exact ⟨_, rfl⟩
      | ok bs =>
        obtain ⟨hsize, hcontent⟩ := Reader.read_of_ok hread
        cases bs with
        | nil => exact ⟨_, rfl⟩
        | cons d ds =>
          rw [List.length_cons] at hsize
          exact ih _ (by simp only; omega)
    · rw [if_neg hlt]
      exact ⟨_, rfl⟩

/-- What the read loop gathers is taken off the front of the reader. -/
theorem run_fill_takes {fuel len : ℕ} {buf bs : Bytes} {st st' : StreamState}
    (h : StreamProg.run (fill fuel len buf : StreamProg ε _) st = some (.ok (.ok bs), st')) :
    st'.reader.size + bs.length ≤ st.reader.size + buf.length ∧
      buf ++ st.reader.content = bs ++ st'.reader.content := by
  -- induction on the fuel: what was gathered and what is left make up the same bytes
  induction fuel generalizing buf st with
  | zero => simp [fill] at h
  | succ fuel ih =>
    rw [fill] at h
    split at h
    · rw [StreamProg.run_read] at h
      cases hread : (st.reader.read (len - buf.length)).1 with
      | error e =>
        obtain ⟨hsize, hcontent⟩ := Reader.read_of_error hread
        rw [hread] at h
        cases e with
        | interrupted =>
          obtain ⟨hs, hc⟩ := ih h
          simp only at hs hc
          exact ⟨by omega, by rw [hcontent, hc]⟩
        | _ => simp at h
      | ok ds =>
        obtain ⟨hsize, hcontent⟩ := Reader.read_of_ok hread
        rw [hread] at h
        cases ds with
        | nil =>
          obtain ⟨rfl, rfl⟩ := by simpa using h
          simp only at hsize ⊢
          exact ⟨by omega, by rw [hcontent, List.nil_append]⟩
        | cons d ds =>
          obtain ⟨hs, hc⟩ := ih h
          simp only [List.length_append] at hs hc
          exact ⟨by omega, by rw [hcontent, ← List.append_assoc, hc]⟩
    · obtain ⟨rfl, rfl⟩ := by simpa using h
      exact ⟨le_rfl, rfl⟩

/-- The read loop gathers at most as many bytes as it is asked for, whatever the reader does. -/
theorem run_fill_length_le {fuel len : ℕ} {buf bs : Bytes} {st st' : StreamState}
    (hbuf : buf.length ≤ len)
    (h : StreamProg.run (fill fuel len buf : StreamProg ε _) st = some (.ok (.ok bs), st')) :
    bs.length ≤ len := by
  induction fuel generalizing buf st with
  | zero => simp [fill] at h
  | succ fuel ih =>
    rw [fill] at h
    split at h
    · rw [StreamProg.run_read] at h
      cases hread : (st.reader.read (len - buf.length)).1 with
      | error e =>
        rw [hread] at h
        cases e with
        | interrupted => exact ih hbuf h
        | _ => simp at h
      | ok ds =>
        have hle := Reader.length_le_of_read hread
        rw [hread] at h
        cases ds with
        | nil =>
          obtain ⟨rfl, -⟩ := by simpa using h
          exact hbuf
        | cons d ds => exact ih (by rw [List.length_append]; omega) h
    · obtain ⟨rfl, -⟩ := by simpa using h
      exact hbuf

/-- Whatever the reader does, the read loop gives its result as a value and never touches the
sink. -/
theorem run_fill_frame {fuel len : ℕ} {buf : Bytes} {st st' : StreamState}
    {x : Except ε (Except IoError Bytes)}
    (h : StreamProg.run (fill fuel len buf) st = some (x, st')) :
    (∃ y, x = .ok y) ∧ st'.sink = st.sink := by
  -- induction on the fuel; an error of a call is a value here
  induction fuel generalizing buf st with
  | zero => simp [fill] at h
  | succ fuel ih =>
    rw [fill] at h
    split at h
    · rw [StreamProg.run_read] at h
      rcases hr : st.reader.read (len - buf.length) with ⟨⟨e⟩ | ⟨_ | ⟨d, ds⟩⟩, rest⟩
      · rw [hr] at h
        cases e with
        | interrupted =>
          have hrec : StreamProg.run (fill fuel len buf) ⟨rest, st.sink⟩ = some (x, st') := h
          exact (ih hrec :)
        | _ =>
          obtain ⟨rfl, rfl⟩ := by simpa using h
          exact ⟨⟨_, rfl⟩, rfl⟩
      · rw [hr] at h
        obtain ⟨rfl, rfl⟩ := by simpa using h
        exact ⟨⟨_, rfl⟩, rfl⟩
      · rw [hr] at h
        have hrec : StreamProg.run (fill fuel len (buf ++ d :: ds)) ⟨rest, st.sink⟩ =
            some (x, st') := h
        exact (ih hrec :)
    · obtain ⟨rfl, rfl⟩ := by simpa using h
      exact ⟨⟨_, rfl⟩, rfl⟩

/-- From a reader that offers `B`, the read loop takes the next bytes of `B`, up to the size of
its buffer, and leaves a reader that offers the rest; or a call fails. -/
theorem run_fill_eq_some {fuel len : ℕ} {buf B : Bytes} {r : Reader} {sink : Sink}
    {x : Except ε (Except IoError Bytes)} {st' : StreamState} (hr : Offers E B r)
    (hbuf : buf.length ≤ len)
    (h : StreamProg.run (fill fuel len buf) ⟨r, sink⟩ = some (x, st')) :
    st'.sink = sink ∧
      ((x = .ok (.ok (buf ++ B.take (len - buf.length))) ∧
          Offers E (B.drop (len - buf.length)) st'.reader ∧
          st'.reader.size + (B.take (len - buf.length)).length ≤ r.size) ∨
        ∃ e, E e ∧ e ≠ .interrupted ∧ x = .ok (.error e)) := by
  -- induction on the fuel, with a case for each event of the reader
  induction fuel generalizing buf B r with
  | zero => simp [fill] at h
  | succ fuel ih =>
    rw [fill] at h
    by_cases hlt : buf.length < len
    · rw [if_pos hlt, StreamProg.run_read] at h
      cases hr with
      | nil =>
        obtain ⟨rfl, rfl⟩ := by simpa [Reader.read] using h
        exact ⟨rfl, .inl ⟨by simp, by simpa using Offers.nil, by simp⟩⟩
      | @fail e B r he hr =>
        cases e with
        | interrupted =>
          obtain ⟨hsink, ⟨hx, hd, hs⟩ | herr⟩ := ih hr hbuf h
          · exact ⟨hsink, .inl ⟨hx, hd, by rw [Reader.size]; omega⟩⟩
          · exact ⟨hsink, .inr herr⟩
        | _ =>
          obtain ⟨rfl, rfl⟩ := by simpa [Reader.read] using h
          exact ⟨rfl, .inr ⟨_, he, by simp, rfl⟩⟩
      | eof hr =>
        obtain ⟨rfl, rfl⟩ := by simpa [Reader.read] using h
        exact ⟨rfl, .inl ⟨by simp, by simpa using hr, by simp [Reader.size]⟩⟩
      | @data bs B r hne hr =>
        obtain ⟨d, ds, rfl⟩ := List.exists_cons_of_ne_nil hne
        by_cases hle : (d :: ds).length ≤ len - buf.length
        · -- the whole part fits: the loop goes on with the next event
          rw [Reader.read, if_pos hle] at h
          have hrest : len - (buf ++ d :: ds).length = len - buf.length - (d :: ds).length := by
            rw [List.length_append, Nat.sub_add_eq]
          obtain ⟨hsink, ⟨hx, hd, hs⟩ | herr⟩ :=
            ih hr (by rw [List.length_append]; omega) h
          · rw [hrest] at hx hd hs
            refine ⟨hsink, .inl ⟨?_, ?_, ?_⟩⟩
            · rw [hx, List.take_append, List.take_of_length_le hle, List.append_assoc]
            · rwa [List.drop_append, List.drop_eq_nil_of_le hle, List.nil_append]
            · rw [Reader.size, List.take_append, List.take_of_length_le hle, List.length_append]
              omega
          · exact ⟨hsink, .inr herr⟩
        · -- the part overflows the buffer: the loop ends with a full buffer
          obtain ⟨n, hn⟩ : ∃ n, len - buf.length = n + 1 := ⟨len - buf.length - 1, by omega⟩
          have hfull : (buf ++ (d :: ds).take (len - buf.length)).length = len := by
            rw [List.length_append, List.length_take]
            omega
          have hdrop : (d :: ds).drop (len - buf.length) ≠ [] := by
            rw [Ne, List.drop_eq_nil_iff]
            exact hle
          rw [List.take_append_of_le_length (by omega), List.drop_append_of_le_length (by omega)]
          rw [Reader.read, if_neg hle, hn, List.take_succ_cons] at h
          rw [hn, List.take_succ_cons] at hfull ⊢
          rw [hn] at hdrop
          cases fuel with
          | zero => simp [fill] at h
          | succ fuel =>
            simp only [fill, if_neg (show ¬(buf ++ d :: ds.take n).length < len by omega),
              StreamProg.run_pure, Option.some.injEq, Prod.mk.injEq] at h
            obtain ⟨rfl, rfl⟩ := h
            refine ⟨rfl, .inl ⟨rfl, .data hdrop hr, ?_⟩⟩
            simp only [Reader.size, List.length_drop, List.length_cons, List.length_take] at hle ⊢
            omega
    · have hzero : len - buf.length = 0 := by omega
      rw [if_neg hlt] at h
      obtain ⟨rfl, rfl⟩ := by simpa using h
      exact ⟨rfl, .inl ⟨by simp [hzero], by simpa [hzero] using hr, by simp [hzero]⟩⟩

/-- With fuel above its size, a reader that delivers `B` serves the read loop to its end. -/
theorem run_fill {fuel : ℕ} (len : ℕ) {B : Bytes} {r : Reader} (sink : Sink) (hr : Delivers B r)
    (hfuel : r.size < fuel) :
    ∃ r', Delivers (B.drop len) r' ∧ r'.size + (B.take len).length ≤ r.size ∧
      StreamProg.run (fill fuel len [] : StreamProg ε _) ⟨r, sink⟩ =
        some (.ok (.ok (B.take len)), ⟨r', sink⟩) := by
  have hstart : (⟨r, sink⟩ : StreamState).reader.size < fuel := hfuel
  obtain ⟨⟨x, st'⟩, hrun⟩ := run_fill_isSome (ε := ε) len [] hstart
  obtain ⟨rfl, ⟨rfl, hd, hs⟩ | ⟨e, he, hne, -⟩⟩ := run_fill_eq_some hr (Nat.zero_le len) hrun
  · exact ⟨st'.reader, hd, hs, hrun⟩
  · exact absurd he hne

/-! ## Reading an exact number of bytes -/

/-- From a reader that offers `B`, `read_exact` takes the first `len` bytes of `B`, or reports an
unexpected end of file when `B` is shorter, or a call fails. -/
theorem run_readExact_eq_some {fuel len : ℕ} {B : Bytes} {r : Reader} {sink : Sink}
    {x : Except ε (Except IoError (U8Array len))} {st' : StreamState} (hr : Offers E B r)
    (h : StreamProg.run (readExact fuel len) ⟨r, sink⟩ = some (x, st')) :
    st'.sink = sink ∧
      ((∃ (a : U8Array len) (B' : Bytes), B = a.val ++ B' ∧ x = .ok (.ok a) ∧
          Offers E B' st'.reader ∧ st'.reader.size + len ≤ r.size) ∨
        (B.length < len ∧ x = .ok (.error .unexpectedEof)) ∨
        ∃ e, E e ∧ e ≠ .interrupted ∧ x = .ok (.error e)) := by
  rw [readExact, StreamProg.run_bind, Prog.andThen_eq_some] at h
  obtain ⟨y, st₁, hfill, hrest⟩ | ⟨e, hfill, rfl⟩ := h
  · obtain ⟨hsink, ⟨hy, hd, hs⟩ | ⟨e, he, hne, hy⟩⟩ :=
      run_fill_eq_some hr (Nat.zero_le len) hfill
    · obtain rfl := Except.ok.inj hy
      simp only [List.length_nil, Nat.sub_zero, List.nil_append] at hrest hd hs
      -- the loop has filled the buffer, or the input was too short
      by_cases hlen : (B.take len).length = len
      · simp only [hlen, dite_true, StreamProg.run_pure, Option.some.injEq,
          Prod.mk.injEq] at hrest
        obtain ⟨rfl, rfl⟩ := hrest
        exact ⟨hsink, .inl ⟨⟨B.take len, hlen⟩, B.drop len, (List.take_append_drop len B).symm,
          rfl, hd, by omega⟩⟩
      · simp only [hlen, dite_false, StreamProg.run_pure, Option.some.injEq,
          Prod.mk.injEq] at hrest
        obtain ⟨rfl, rfl⟩ := hrest
        refine ⟨hsink, .inr (.inl ⟨?_, rfl⟩)⟩
        rw [List.length_take] at hlen
        omega
    · obtain rfl := Except.ok.inj hy
      obtain ⟨rfl, rfl⟩ := by simpa using hrest
      exact ⟨hsink, .inr (.inr ⟨e, he, hne, rfl⟩)⟩
  · obtain ⟨⟨y, hy⟩, -⟩ := run_fill_frame hfill
    cases hy

/-- With fuel above the reader's size, `read_exact` ends, whatever the reader does. -/
theorem run_readExact_isSome {fuel : ℕ} (len : ℕ) {st : StreamState}
    (hfuel : st.reader.size < fuel) :
    ∃ x, StreamProg.run (readExact fuel len : StreamProg ε _) st = some x := by
  obtain ⟨⟨x, st'⟩, hrun⟩ := run_fill_isSome (ε := ε) len [] hfuel
  rw [readExact, StreamProg.run_bind, hrun]
  rcases x with e | e | bs
  · exact ⟨_, rfl⟩
  · exact ⟨_, rfl⟩
  · by_cases hlen : bs.length = len
    · simp only [Prog.andThen_ok, hlen, dite_true, StreamProg.run_pure, Option.some.injEq,
        exists_eq']
    · simp only [Prog.andThen_ok, hlen, dite_false, StreamProg.run_pure, Option.some.injEq,
        exists_eq']

/-- With enough bytes left and enough fuel, `read_exact` reads them. -/
theorem run_readExact_ok {fuel len : ℕ} {a : U8Array len} {B : Bytes} {r : Reader} (sink : Sink)
    (hr : Delivers (a.val ++ B) r) (hfuel : r.size < fuel) :
    ∃ r', Delivers B r' ∧ r'.size + len ≤ r.size ∧
      StreamProg.run (readExact fuel len : StreamProg ε _) ⟨r, sink⟩ =
        some (.ok (.ok a), ⟨r', sink⟩) := by
  have hstart : (⟨r, sink⟩ : StreamState).reader.size < fuel := hfuel
  obtain ⟨⟨x, st'⟩, hrun⟩ := run_readExact_isSome (ε := ε) len hstart
  obtain ⟨rfl, ⟨a', B', hB, rfl, hd, hs⟩ | ⟨hshort, -⟩ | ⟨e, he, hne, -⟩⟩ :=
    run_readExact_eq_some hr hrun
  · obtain ⟨ha, rfl⟩ := List.append_inj hB (by simp)
    obtain rfl := Subtype.ext ha
    exact ⟨st'.reader, hd, hs, hrun⟩
  · simp at hshort
  · exact absurd he hne

/-- With too few bytes left and enough fuel, `read_exact` reports an unexpected end of file. -/
theorem run_readExact_short {fuel : ℕ} (len : ℕ) {B : Bytes} {r : Reader} (sink : Sink)
    (hr : Delivers B r) (hfuel : r.size < fuel) (hshort : B.length < len) :
    ∃ r', StreamProg.run (readExact fuel len : StreamProg ε _) ⟨r, sink⟩ =
      some (.ok (.error .unexpectedEof), ⟨r', sink⟩) := by
  have hstart : (⟨r, sink⟩ : StreamState).reader.size < fuel := hfuel
  obtain ⟨⟨x, st'⟩, hrun⟩ := run_readExact_isSome (ε := ε) len hstart
  obtain ⟨rfl, ⟨a', B', rfl, -⟩ | ⟨-, rfl⟩ | ⟨e, he, hne, -⟩⟩ := run_readExact_eq_some hr hrun
  · simp only [List.length_append, U8Array.length_val] at hshort
    omega
  · exact ⟨st'.reader, hrun⟩
  · exact absurd he hne

/-- Whatever the reader does, `read_exact` gives its result as a value, leaves the sink alone,
and takes what it reads off the front of the reader. -/
theorem run_readExact_frame {fuel len : ℕ} {st st' : StreamState}
    {x : Except ε (Except IoError (U8Array len))}
    (h : StreamProg.run (readExact fuel len) st = some (x, st')) :
    ∃ y, x = .ok y ∧ st'.sink = st.sink ∧
      ∀ a, y = .ok a → st'.reader.size + len ≤ st.reader.size ∧
        st.reader.content = a.val ++ st'.reader.content := by
  rw [readExact, StreamProg.run_bind, Prog.andThen_eq_some] at h
  obtain ⟨y, st₁, hfill, hrest⟩ | ⟨e, hfill, rfl⟩ := h
  · have hsink := (run_fill_frame hfill).2
    rcases y with e | bs
    · obtain ⟨rfl, rfl⟩ := by simpa using hrest
      exact ⟨_, rfl, hsink, by simp⟩
    · -- what was gathered is handed out only when the buffer is full
      obtain ⟨hsize, hcontent⟩ := run_fill_takes hfill
      by_cases hlen : bs.length = len
      · simp only [hlen, dite_true, StreamProg.run_pure, Option.some.injEq,
          Prod.mk.injEq] at hrest
        obtain ⟨rfl, rfl⟩ := hrest
        rw [hlen, List.length_nil, Nat.add_zero] at hsize
        refine ⟨_, rfl, hsink, fun a ha => ⟨hsize, ?_⟩⟩
        rw [← Except.ok.inj ha]
        exact hcontent
      · simp only [hlen, dite_false, StreamProg.run_pure, Option.some.injEq,
          Prod.mk.injEq] at hrest
        obtain ⟨rfl, rfl⟩ := hrest
        exact ⟨_, rfl, hsink, by simp⟩
  · obtain ⟨⟨y, hy⟩, -⟩ := run_fill_frame hfill
    cases hy

end Rust
