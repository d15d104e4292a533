import Cry.Rust.Stream

/-!
# Errors

The error type of the library layer. A fallible function returns a `CryError`; a function whose
arithmetic can overflow may also panic, which `Stop` records.
-/

namespace Cry

open Rust Effects

/-- The errors of the library layer. -/
inductive CryError
  | io (e : IoError)
  | encryptionFailed
  | decryptionFailed
  | headerTampered
  | truncated (expected got : UInt64)
  | invalidFormat (msg : String)
  | kdf (msg : String)
  | fileExists (path : String)
  | emptyPassphrase
  | passphraseMismatch
  | suspiciousChunkLen (index : UInt64) (len : ℕ)
  | verificationFailed (msg : String)
  deriving DecidableEq, Repr

/-- How a run ends other than with a value: it returns an error, or an arithmetic overflow
panics. -/
inductive Stop
  | err (e : CryError)
  | panic
  deriving DecidableEq, Repr

/-- `Result<T, std::io::Error>` under the `?` operator. -/
def ofIo {α : Type} : Except IoError α → Except Stop α
  | .ok a => .ok a
  | .error e => .error (.err (.io e))

@[simp] theorem ofIo_ok {α : Type} (a : α) : ofIo (.ok a) = .ok a := rfl

@[simp] theorem ofIo_error {α : Type} (e : IoError) :
    ofIo (.error e : Except IoError α) = .error (.err (.io e)) := rfl

/-! ## Stream operations with their errors -/

/-- `Write::write_all` under `?`. -/
def writeAll (buf : Bytes) : StreamProg Stop Unit := do
  let res ← Prog.perform (.writeAll buf)
  Prog.ofExcept (ofIo res)

/-- `Read::read_exact` with its error mapped. -/
def readExactOr (fuel len : ℕ) (onError : IoError → Stop) : StreamProg Stop (U8Array len) := do
  match ← readExact fuel len with
  | .ok a => pure a
  | .error e => .throw (onError e)

theorem run_writeAll (buf : Bytes) (st : StreamState) :
    StreamProg.run (writeAll buf) st =
      some (ofIo (st.sink.writeAll buf).1, { st with sink := (st.sink.writeAll buf).2 }) := by
  simp [writeAll]

/-- A completed `write_all` appends its buffer and leaves the reader alone. -/
theorem run_writeAll_eq_ok {buf : Bytes} {u : Unit} {st st' : StreamState}
    (h : StreamProg.run (writeAll buf) st = some (.ok u, st')) :
    st'.reader = st.reader ∧ st'.sink.written = st.sink.written ++ buf := by
  rw [run_writeAll, Option.some.injEq, Prod.mk.injEq] at h
  obtain ⟨hres, rfl⟩ := h
  refine ⟨rfl, Sink.written_of_ok ?_⟩
  cases hw : (st.sink.writeAll buf).1 with
  | ok => rfl
  | error e => simp [hw] at hres

/-- A failed `write_all` returns an I/O error and appends a part of its buffer. -/
theorem run_writeAll_eq_error {buf : Bytes} {e : Stop} {st st' : StreamState}
    (h : StreamProg.run (writeAll buf) st = some (.error e, st')) :
    (∃ e', e = .err (.io e')) ∧ st'.sink.failed = true ∧
      ∃ part, part <+: buf ∧ st'.sink.written = st.sink.written ++ part := by
  rw [run_writeAll, Option.some.injEq, Prod.mk.injEq] at h
  obtain ⟨hres, rfl⟩ := h
  cases hw : (st.sink.writeAll buf).1 with
  | ok => simp [hw] at hres
  | error e' =>
    rw [hw, ofIo_error] at hres
    exact ⟨⟨e', (Except.error.inj hres).symm⟩, Sink.written_of_error hw⟩

section ReadExactOr

variable {fuel len : ℕ} {onError : IoError → Stop}

/-- From a reader that offers `B`, a mapped `read_exact` takes the first `len` bytes of `B`, or
fails when `B` is shorter or a call fails. -/
theorem run_readExactOr_eq_some {E : IoError → Prop} {B : Bytes} {r : Reader} {sink : Sink}
    {x : Except Stop (U8Array len)} {st' : StreamState} (hr : Offers E B r)
    (h : StreamProg.run (readExactOr fuel len onError) ⟨r, sink⟩ = some (x, st')) :
    st'.sink = sink ∧
      ((∃ (a : U8Array len) (B' : Bytes), B = a.val ++ B' ∧ x = .ok a ∧
          Offers E B' st'.reader ∧ st'.reader.size + len ≤ r.size) ∨
        ∃ e, x = .error (onError e)) := by
  rw [readExactOr, Prog.bind_eq, StreamProg.run_bind, Prog.andThen_eq_some] at h
  obtain ⟨y, st₁, hread, hrest⟩ | ⟨e, hread, rfl⟩ := h
  · -- all bytes are there, too few are left, or a call fails; the last two are mapped alike
    obtain ⟨hsink, ⟨a, B', hB, hy, hd, hs⟩ | ⟨hshort, hy⟩ | ⟨e, -, -, hy⟩⟩ :=
      run_readExact_eq_some hr hread
    · obtain rfl := Except.ok.inj hy
      obtain ⟨rfl, rfl⟩ := by simpa using hrest
      exact ⟨hsink, .inl ⟨a, B', hB, rfl, hd, hs⟩⟩
    · obtain rfl := Except.ok.inj hy
      obtain ⟨rfl, rfl⟩ := by simpa using hrest
      exact ⟨hsink, .inr ⟨_, rfl⟩⟩
    · obtain rfl := Except.ok.inj hy
      obtain ⟨rfl, rfl⟩ := by simpa using hrest
      exact ⟨hsink, .inr ⟨_, rfl⟩⟩
  · obtain ⟨y, hy, -⟩ := run_readExact_frame hread
    cases hy

/-- With fuel above the reader's size, a mapped `read_exact` ends. -/
theorem run_readExactOr_isSome (len : ℕ) (onError : IoError → Stop) {st : StreamState}
    (hfuel : st.reader.size < fuel) :
    ∃ x, StreamProg.run (readExactOr fuel len onError) st = some x := by
  obtain ⟨⟨x, st'⟩, hrun⟩ := run_readExact_isSome (ε := Stop) len hfuel
  rw [readExactOr, Prog.bind_eq, StreamProg.run_bind, hrun]
  rcases x with e | e | a
  · exact ⟨_, rfl⟩
  · exact ⟨_, rfl⟩
  · exact ⟨_, rfl⟩

/-- A mapped `read_exact` fails only with a mapped error, leaves the sink alone, and takes what it
reads off the front of the reader. -/
theorem run_readExactOr_frame {x : Except Stop (U8Array len)} {st st' : StreamState}
    (h : StreamProg.run (readExactOr fuel len onError) st = some (x, st')) :
    st'.sink = st.sink ∧
      ((∃ a, x = .ok a ∧ st'.reader.size + len ≤ st.reader.size ∧
          st.reader.content = a.val ++ st'.reader.content) ∨
        ∃ e, x = .error (onError e)) := by
  rw [readExactOr, Prog.bind_eq, StreamProg.run_bind, Prog.andThen_eq_some] at h
  obtain ⟨y, st₁, hread, hrest⟩ | ⟨e, hread, rfl⟩ := h
  · obtain ⟨_, hy, hsink, hsize⟩ := run_readExact_frame hread
    obtain rfl := Except.ok.inj hy
    rcases y with e | a
    · obtain ⟨rfl, rfl⟩ := by simpa using hrest
      exact ⟨hsink, .inr ⟨e, rfl⟩⟩
    · obtain ⟨rfl, rfl⟩ := by simpa using hrest
      exact ⟨hsink, .inl ⟨a, rfl, hsize a rfl⟩⟩
  · obtain ⟨y, hy, -⟩ := run_readExact_frame hread
    cases hy

/-- With enough bytes left and enough fuel, a mapped `read_exact` reads them. -/
theorem run_readExactOr_ok (fuel : ℕ) (onError : IoError → Stop) {a : U8Array len} {B : Bytes}
    {r : Reader} (sink : Sink) (hr : Delivers (a.val ++ B) r) (hfuel : r.size < fuel) :
    ∃ r', Delivers B r' ∧ r'.size + len ≤ r.size ∧
      StreamProg.run (readExactOr fuel len onError) ⟨r, sink⟩ = some (.ok a, ⟨r', sink⟩) := by
  obtain ⟨r', hd, hs, hrun⟩ := run_readExact_ok (ε := Stop) sink hr hfuel
  exact ⟨r', hd, hs, by simp [readExactOr, hrun]⟩

/-- With enough fuel, a mapped `read_exact` from a reader that delivers `B` takes the first bytes of
`B`, or fails with a mapped error. -/
theorem run_readExactOr_cases (fuel len : ℕ) (onError : IoError → Stop) {B : Bytes} {r : Reader}
    (sink : Sink) (hr : Delivers B r) (hfuel : r.size < fuel) :
    ∃ r', (∃ (a : U8Array len) (B' : Bytes), B = a.val ++ B' ∧ Delivers B' r' ∧
        r'.size + len ≤ r.size ∧
        StreamProg.run (readExactOr fuel len onError) ⟨r, sink⟩ = some (.ok a, ⟨r', sink⟩)) ∨
      ∃ e, StreamProg.run (readExactOr fuel len onError) ⟨r, sink⟩ =
        some (.error (onError e), ⟨r', sink⟩) := by
  have hstart : (⟨r, sink⟩ : StreamState).reader.size < fuel := hfuel
  obtain ⟨⟨x, st'⟩, hrun⟩ := run_readExactOr_isSome len onError hstart
  obtain ⟨rfl, ⟨a, B', hB, rfl, hd, hs⟩ | ⟨e, rfl⟩⟩ := run_readExactOr_eq_some hr hrun
  · exact ⟨st'.reader, .inl ⟨a, B', hB, hd, hs, hrun⟩⟩
  · exact ⟨st'.reader, .inr ⟨e, hrun⟩⟩

end ReadExactOr

end Cry
