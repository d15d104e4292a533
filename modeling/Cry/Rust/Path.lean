import Cry.Rust.Stream
import Mathlib.Data.List.TakeWhile

/-!
# Paths

A path with a file name, as `std::path::Path` takes it apart: the text before the file name and
the file name. Paths without a file name (`/`, `..`) name directories and are left out; the paths
of a program are taken as normalised, so that different paths name different directory entries. A
file name of two dots and a text without a dot (`..a`) is left out as well where its extension is
replaced: `with_extension` makes the directory `..` of it, which no file can be created at.

## Main results

* `Path.withExtension_ne`: replacing the extension by one that contains a dot changes the path.
-/

namespace Rust

/-- A path with a file name. -/
structure Path where
  /-- The text before the file name, with its last separator. -/
  dir : Bytes
  fileName : Bytes
  deriving DecidableEq

namespace Path

/-- The byte of `.`. -/
def dot : UInt8 := 46

/-- The file name without its extension: what stands before the last dot, unless nothing does. -/
def fileStem (p : Path) : Bytes :=
  match p.fileName.reverse.dropWhile (· ≠ dot) with
  | [] => p.fileName
  | [_] => p.fileName
  | _ :: b :: before => (b :: before).reverse

/-- Replace the extension, or add one to a file name that has none. -/
def withExtension (p : Path) (ext : Bytes) : Path :=
  { p with fileName := p.fileStem ++ dot :: ext }

/-- A file name is its stem, or its stem followed by a dot and an extension without one. -/
theorem fileName_eq (p : Path) :
    p.fileName = p.fileStem ∨ ∃ ext, p.fileName = p.fileStem ++ dot :: ext ∧ dot ∉ ext := by
  unfold fileStem
  cases hdrop : p.fileName.reverse.dropWhile (· ≠ dot) with
  | nil => exact .inl rfl
  | cons d before =>
    cases before with
    | nil => exact .inl rfl
    | cons b before =>
      right
      -- the stem ends at the last dot
      have hd : d = dot := by
        have hhead := List.head?_dropWhile_not (· ≠ dot) p.fileName.reverse
        rw [hdrop] at hhead
        simpa using hhead
      refine ⟨(p.fileName.reverse.takeWhile (· ≠ dot)).reverse, ?_, ?_⟩
      · have hsplit := List.takeWhile_append_dropWhile (p := (· ≠ dot)) (l := p.fileName.reverse)
        rw [hdrop, hd] at hsplit
        have hrev := congrArg List.reverse hsplit
        rw [List.reverse_append, List.reverse_reverse, List.reverse_cons, List.append_assoc] at hrev
        exact hrev.symm
      · intro hmem
        have := List.mem_takeWhile_imp (List.mem_reverse.mp hmem)
        simp at this

/-- Replacing the extension by one that contains a dot changes the path. -/
theorem withExtension_ne (p : Path) {ext : Bytes} (hext : dot ∈ ext) : p.withExtension ext ≠ p := by
  intro heq
  have hname : p.fileStem ++ dot :: ext = p.fileName := congrArg fileName heq
  obtain hstem | ⟨ext', hsplit, hdot⟩ := p.fileName_eq
  · rw [hstem] at hname
    simp at hname
  · rw [hsplit, List.append_cancel_left_eq, List.cons.injEq] at hname
    exact hdot (hname.2 ▸ hext)

/-! ## Display -/

/-- For the first byte of a character of two to four bytes: how many bytes follow, the range of
the next one, and the bits the first byte contributes. -/
def leadByte (b : UInt8) : Option (ℕ × UInt8 × UInt8 × ℕ) :=
  if b < 0xC2 then none
  else if b < 0xE0 then some (1, 0x80, 0xBF, b.toNat % 32)
  else if b < 0xF0 then
    some (2, if b = 0xE0 then 0xA0 else 0x80, if b = 0xED then 0x9F else 0xBF, b.toNat % 16)
  else if b < 0xF5 then
    some (3, if b = 0xF0 then 0x90 else 0x80, if b = 0xF4 then 0x8F else 0xBF, b.toNat % 8)
  else none

/-- Read `n` continuation bytes, the first of them between `lo` and `hi`: the code point, if they
are all there, and what is left. -/
def continuation : (n : ℕ) → (lo hi : UInt8) → (acc : ℕ) → Bytes → Option ℕ × Bytes
  | 0, _, _, acc, bs => (some acc, bs)
  | _ + 1, _, _, _, [] => (none, [])
  | n + 1, lo, hi, acc, b :: bs =>
    if lo ≤ b ∧ b ≤ hi then continuation n 0x80 0xBF (acc * 64 + b.toNat % 64) bs
    else (none, b :: bs)

/-- Decode UTF-8, each maximal invalid part becoming one replacement character. -/
def decodeLossy : (fuel : ℕ) → Bytes → List Char
  | 0, _ => []
  | _ + 1, [] => []
  | fuel + 1, b :: bs =>
    if b < 0x80 then Char.ofNat b.toNat :: decodeLossy fuel bs
    else
      match leadByte b with
      | none => Char.ofNat 0xFFFD :: decodeLossy fuel bs
      | some (n, lo, hi, acc) =>
        match continuation n lo hi acc bs with
        | (some code, rest) => Char.ofNat code :: decodeLossy fuel rest
        | (none, rest) => Char.ofNat 0xFFFD :: decodeLossy fuel rest

/-- The whole path as text. -/
def display (p : Path) : String :=
  String.ofList (decodeLossy (p.dir ++ p.fileName).length (p.dir ++ p.fileName))

end Path

end Rust
