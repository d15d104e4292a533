import Cry.Bytes.BigEndian
import Cry.Rust.Path
import Mathlib.Logic.Function.Basic

/-!
# The file system

Directory entries name files, files hold bytes, and a handle refers to a file and not to a name:
a file that is renamed, replaced or removed is still read and written through the handles that are
open on it. There are no symbolic links and no two names of one file, and directories are not
modelled.

An operation runs under a `Choice`, which says whether the system fails it, how many of the
requested bytes a read or a write serves, and what the random source gives. A failed operation
leaves the file system as it was.

## Main results

* `Fs.keeps_create`, `Fs.keeps_write`, `Fs.keeps_rename`, `Fs.keeps_remove`: what the operations
  that change the file system leave alone;
* `exec_of_fails`, `exec_of_readOnly`: a failed operation and the others change nothing.
-/

namespace Rust

/-- The errors the operating system reports. None of them is the `UnexpectedEof` or the
`WriteZero` of the standard library. -/
inductive OsError
  | interrupted
  | notFound
  | other (code : ℕ)
  deriving DecidableEq, Repr

/-- The kind of `std::io::Error` of an operating system error. -/
def OsError.toIoError : OsError → IoError
  | .interrupted => .interrupted
  | .notFound => .notFound
  | .other code => .other code

theorem OsError.toIoError_ne_unexpectedEof (e : OsError) : e.toIoError ≠ .unexpectedEof := by
  cases e <;> simp [toIoError]

/-! ## States -/

/-- A file system. -/
structure Fs where
  /-- The file a path names. -/
  names : Path → Option ℕ
  /-- The bytes of a file. -/
  data : ℕ → Bytes
  /-- The file that the next creation gives. -/
  next : ℕ
  fresh : ∀ {p i}, names p = some i → i < next
  /-- No file has two names. -/
  inj : ∀ {p q i}, names p = some i → names q = some i → p = q

namespace Fs

variable (fs : Fs)

/-- The file system with one file. -/
def ofFile (p : Path) (d : Bytes) : Fs where
  names q := if q = p then some 0 else none
  data _ := d
  next := 1
  fresh {q i} h := by
    split at h
    · cases h
      exact Nat.zero_lt_one
    · cases h
  inj {q r i} hq hr := by
    split at hq
    · next hqp =>
      split at hr
      · next hrp => rw [hqp, hrp]
      · cases hr
    · cases hq

/-- What the file at a path holds. -/
def content (p : Path) : Option Bytes := (fs.names p).map fs.data

/-- `bs` written over `d` at an offset; a gap before the offset is filled with zeros. -/
def splice (d : Bytes) (off : ℕ) (bs : Bytes) : Bytes :=
  d.take off ++ List.replicate (off - d.length) 0 ++ bs ++ d.drop (off + bs.length)

/-- Write to a file at an offset. -/
def write (i off : ℕ) (bs : Bytes) : Fs :=
  { fs with data := Function.update fs.data i (splice (fs.data i) off bs) }

/-- Truncate a file. -/
def truncate (i : ℕ) : Fs := { fs with data := Function.update fs.data i [] }

/-- Make a path name a file that has no name yet, or no file. -/
def setName (q : Path) (file : Option ℕ)
    (hfile : ∀ i, file = some i → i < fs.next ∧ ∀ r, fs.names r ≠ some i) : Fs where
  names := Function.update fs.names q file
  data := fs.data
  next := fs.next
  fresh := by
    intro r i hr
    by_cases hrq : r = q
    · rw [hrq, Function.update_self] at hr
      exact (hfile i hr).1
    · rw [Function.update_of_ne hrq] at hr
      exact fs.fresh hr
  inj := by
    intro r s i hr hs
    by_cases hrq : r = q
    · by_cases hsq : s = q
      · rw [hrq, hsq]
      · rw [hrq, Function.update_self] at hr
        rw [Function.update_of_ne hsq] at hs
        exact absurd hs ((hfile i hr).2 s)
    · by_cases hsq : s = q
      · rw [hsq, Function.update_self] at hs
        rw [Function.update_of_ne hrq] at hr
        exact absurd hr ((hfile i hs).2 r)
      · rw [Function.update_of_ne hrq] at hr
        rw [Function.update_of_ne hsq] at hs
        exact fs.inj hr hs

@[simp] theorem names_setName (q r : Path) (file : Option ℕ)
    (hfile : ∀ i, file = some i → i < fs.next ∧ ∀ r, fs.names r ≠ some i) :
    (fs.setName q file hfile).names r = if r = q then file else fs.names r :=
  Function.update_apply _ _ _ _

/-- Make the next file, empty and without a name. -/
def allocate : Fs where
  names := fs.names
  data := Function.update fs.data fs.next []
  next := fs.next + 1
  fresh hp := (fs.fresh hp).trans (Nat.lt_succ_self _)
  inj := fs.inj

/-- Open a file for writing, truncating it or making it. -/
def create (p : Path) : ℕ × Fs :=
  match fs.names p with
  | some i => (i, fs.truncate i)
  | none => (fs.next, fs.allocate.setName p (some fs.next) fun _ hi =>
      Option.some.inj hi ▸ ⟨Nat.lt_succ_self _, fun _ hr => (fs.fresh hr).ne rfl⟩)

/-- Remove a name. -/
def remove (p : Path) : Fs := fs.setName p none nofun

theorem names_remove (p r : Path) :
    (fs.remove p).names r = if r = p then none else fs.names r := by
  rw [remove, names_setName]

theorem names_remove_ne {p : Path} {i : ℕ} (hp : fs.names p = some i) (r : Path) :
    (fs.remove p).names r ≠ some i := by
  rw [names_remove]
  split
  · simp
  · next hrp => exact fun hr => hrp (fs.inj hr hp)

/-- Move the file at `p`, if there is one, to `q`, replacing the file there. -/
def rename (p q : Path) : Fs :=
  match hp : fs.names p with
  | some i => (fs.remove p).setName q (some i) fun _ hi =>
      Option.some.inj hi ▸ ⟨fs.fresh hp, fs.names_remove_ne hp⟩
  | none => fs

variable {fs}

@[simp] theorem content_eq_none {p : Path} : fs.content p = none ↔ fs.names p = none :=
  Option.map_eq_none_iff

theorem data_write_self (i off : ℕ) (bs : Bytes) :
    (fs.write i off bs).data i = splice (fs.data i) off bs :=
  Function.update_self _ _ _

theorem data_write_of_ne {i j off : ℕ} {bs : Bytes} (h : j ≠ i) :
    (fs.write i off bs).data j = fs.data j :=
  Function.update_of_ne h _ _

/-- Writing at the end of a file appends to it. -/
theorem splice_length (d bs : Bytes) : splice d d.length bs = d ++ bs := by
  simp [splice]

theorem names_create (p r : Path) :
    (fs.create p).2.names r = if r = p then some (fs.create p).1 else fs.names r := by
  unfold create
  split
  · next i hp =>
    split
    · next hrp => rw [hrp]; exact hp
    · rfl
  · rw [names_setName]
    rfl

/-- A created file is empty. -/
theorem data_create_self (p : Path) : (fs.create p).2.data (fs.create p).1 = [] := by
  unfold create
  split
  · exact Function.update_self _ _ _
  · exact Function.update_self _ _ _

theorem data_create_of_ne {p : Path} {i : ℕ} (h : i ≠ (fs.create p).1) :
    (fs.create p).2.data i = fs.data i := by
  unfold create at h ⊢
  split
  · next hp =>
    rw [hp] at h
    exact Function.update_of_ne h _ _
  · next hp =>
    rw [hp] at h
    exact Function.update_of_ne h _ _

/-- A created file is not the file at another path. -/
theorem create_ne {p r : Path} {i : ℕ} (hr : fs.names r = some i) (hrp : r ≠ p) :
    i ≠ (fs.create p).1 := by
  unfold create
  split
  · next hp =>
    rintro rfl
    exact hrp (fs.inj hr hp)
  · exact (fs.fresh hr).ne

theorem names_rename {p q : Path} {i : ℕ} (hp : fs.names p = some i) (r : Path) :
    (fs.rename p q).names r = if r = q then some i else if r = p then none else fs.names r := by
  unfold rename
  split
  · next j hj =>
    obtain rfl : i = j := Option.some.inj (hp.symm.trans hj)
    rw [names_setName, names_remove]
  · next hnone =>
    rw [hp] at hnone
    cases hnone

@[simp] theorem data_rename (p q : Path) : (fs.rename p q).data = fs.data := by
  unfold rename
  split <;> rfl

/-! ## Leaving a path alone -/

/-- The path names the same file in both states, and the file holds the same. -/
def Keeps (p : Path) (fs fs' : Fs) : Prop :=
  fs'.names p = fs.names p ∧ ∀ i, fs.names p = some i → fs'.data i = fs.data i

theorem Keeps.refl (p : Path) (fs : Fs) : Keeps p fs fs := ⟨rfl, fun _ _ => rfl⟩

theorem Keeps.trans {p : Path} {fs₁ fs₂ fs₃ : Fs} (h : Keeps p fs₁ fs₂) (h' : Keeps p fs₂ fs₃) :
    Keeps p fs₁ fs₃ :=
  ⟨h'.1.trans h.1, fun i hi => (h'.2 i (h.1.trans hi)).trans (h.2 i hi)⟩

/-- A path that is left alone holds what it held. -/
theorem Keeps.content_eq {p : Path} {fs fs' : Fs} (h : Keeps p fs fs') :
    fs'.content p = fs.content p := by
  rw [content, content, h.1]
  cases hp : fs.names p with
  | none => rfl
  | some i => simp [h.2 i hp]

theorem keeps_create {p r : Path} (h : r ≠ p) : Keeps r fs (fs.create p).2 :=
  ⟨by rw [names_create, if_neg h], fun _ hi => data_create_of_ne (create_ne hi h)⟩

theorem keeps_write {r : Path} {i off : ℕ} {bs : Bytes} (h : fs.names r ≠ some i) :
    Keeps r fs (fs.write i off bs) :=
  ⟨rfl, fun _ hj => data_write_of_ne fun hji => h (hji ▸ hj)⟩

theorem keeps_rename {p q r : Path} (hp : r ≠ p) (hq : r ≠ q) : Keeps r fs (fs.rename p q) := by
  refine ⟨?_, fun i _ => by rw [data_rename]⟩
  cases hi : fs.names p with
  | some i => rw [names_rename hi, if_neg hq, if_neg hp]
  | none =>
    unfold rename
    split
    · next hj =>
      rw [hi] at hj
      cases hj
    · rfl

theorem keeps_remove {p r : Path} (h : r ≠ p) : Keeps r fs (fs.remove p) :=
  ⟨by rw [names_remove, if_neg h], fun _ _ => rfl⟩

end Fs

/-! ## Operations -/

/-- The operations of a program on the file system and the random source. -/
inductive FsOp
  /-- `Path::exists`. -/
  | pathExists (p : Path)
  /-- `fs::metadata`, of which only the length is used. -/
  | metadata (p : Path)
  /-- `File::open`. -/
  | openFile (p : Path)
  /-- `File::create`. -/
  | create (p : Path)
  /-- `File::metadata`. -/
  | fileMetadata (i : ℕ)
  /-- `File::read` at the offset of the handle. -/
  | readAt (i off cap : ℕ)
  /-- `File::write` at the offset of the handle. -/
  | writeAt (i off : ℕ) (buf : Bytes)
  /-- `fs::rename`. -/
  | rename (p q : Path)
  /-- `fs::remove_file`. -/
  | removeFile (p : Path)
  /-- `OsRng.fill_bytes`. -/
  | fillBytes (len : ℕ)
  deriving DecidableEq

/-- The answers to the operations: a length, a handle, the bytes read, the number of bytes
written. -/
abbrev FsRes : FsOp → Type
  | .pathExists _ => Bool
  | .metadata _ => Except OsError UInt64
  | .openFile _ => Except OsError ℕ
  | .create _ => Except OsError ℕ
  | .fileMetadata _ => Except OsError UInt64
  | .readAt _ _ _ => Except OsError Bytes
  | .writeAt _ _ _ => Except OsError ℕ
  | .rename _ _ => Except OsError Unit
  | .removeFile _ => Except OsError Unit
  | .fillBytes len => Except OsError (U8Array len)

/-- What the program does not control in an operation. -/
structure Choice where
  /-- The error with which the system fails the operation. -/
  fails : Option OsError := none
  /-- How many bytes a read or a write serves at most; a read serves one where there is one. -/
  amount : ℕ := 8192
  /-- The bytes the random source gives. -/
  random : ℕ → UInt8 := fun _ => 0

/-- An operation that the system may fail. -/
def Choice.orFail {α : Type} (c : Choice) (fs : Fs) (res : Except OsError α × Fs) :
    Except OsError α × Fs :=
  match c.fails with
  | some e => (.error e, fs)
  | none => res

/-- Execute an operation. -/
def exec : (o : FsOp) → Choice → Fs → FsRes o × Fs
  | .pathExists p, c, fs => (c.fails.isNone && (fs.names p).isSome, fs)
  | .metadata p, c, fs => c.orFail fs
    (match fs.content p with
      | some d => (.ok (UInt64.ofNat d.length), fs)
      | none => (.error .notFound, fs))
  | .openFile p, c, fs => c.orFail fs
    (match fs.names p with
      | some i => (.ok i, fs)
      | none => (.error .notFound, fs))
  | .create p, c, fs => c.orFail fs (.ok (fs.create p).1, (fs.create p).2)
  | .fileMetadata i, c, fs => c.orFail fs (.ok (UInt64.ofNat (fs.data i).length), fs)
  | .readAt i off cap, c, fs => c.orFail fs
    (.ok (((fs.data i).drop off).take (min cap (max 1 c.amount))), fs)
  | .writeAt i off buf, c, fs => c.orFail fs
    (.ok (min buf.length c.amount), fs.write i off (buf.take c.amount))
  | .rename p q, c, fs => c.orFail fs
    (match fs.names p with
      | some _ => (.ok (), fs.rename p q)
      | none => (.error .notFound, fs))
  | .removeFile p, c, fs => c.orFail fs
    (match fs.names p with
      | some _ => (.ok (), fs.remove p)
      | none => (.error .notFound, fs))
  | .fillBytes len, c, fs => c.orFail fs
    (.ok ⟨List.ofFn fun i : Fin len => c.random i, List.length_ofFn⟩, fs)

/-- The operations that change nothing. -/
def FsOp.ReadOnly : FsOp → Prop
  | .create _ | .writeAt _ _ _ | .rename _ _ | .removeFile _ => False
  | _ => True

/-- A failed operation leaves the file system as it was. -/
theorem exec_of_fails {o : FsOp} {c : Choice} {fs : Fs} (h : c.fails ≠ none) :
    (exec o c fs).2 = fs := by
  obtain ⟨e, he⟩ := Option.ne_none_iff_exists'.mp h
  cases o <;> simp [exec, Choice.orFail, he]

/-- An operation that changes nothing leaves the file system as it was. -/
theorem exec_of_readOnly {o : FsOp} (h : o.ReadOnly) (c : Choice) (fs : Fs) :
    (exec o c fs).2 = fs := by
  cases hf : c.fails with
  | some e => exact exec_of_fails (by simp [hf])
  | none =>
    cases o with
    | metadata p =>
      simp only [exec, Choice.orFail, hf]
      split <;> rfl
    | openFile p =>
      simp only [exec, Choice.orFail, hf]
      split <;> rfl
    | pathExists p => rfl
    | fileMetadata i => simp only [exec, Choice.orFail, hf]
    | readAt i off cap => simp only [exec, Choice.orFail, hf]
    | fillBytes len => simp only [exec, Choice.orFail, hf]
    | create p => exact h.elim
    | writeAt i off buf => exact h.elim
    | rename p q => exact h.elim
    | removeFile p => exact h.elim

end Rust
