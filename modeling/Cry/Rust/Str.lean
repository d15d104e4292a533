import Cry.Rust.Path
import Mathlib.Data.List.DropRight

/-!
# Text

The functions of `str` that take a text apart, on its characters.

* `isWhitespace`, `trim`, `trimEndMatches`: what is cut off the ends;
* `stripPrefix`, `lines`, `splitn`: the parts;
* `fromUtf8Lossy`: the text of bytes, every invalid part of them replaced.
-/

namespace Rust

namespace Str

/-- The characters with the property `White_Space`. -/
def isWhitespace (c : Char) : Bool :=
  (0x9 ≤ c.toNat && c.toNat ≤ 0xD) || c.toNat ∈ [0x20, 0x85, 0xA0, 0x1680] ||
    (0x2000 ≤ c.toNat && c.toNat ≤ 0x200A) ||
    c.toNat ∈ [0x2028, 0x2029, 0x202F, 0x205F, 0x3000]

/-- `str::trim`. -/
def trim (s : List Char) : List Char := (s.dropWhile isWhitespace).rdropWhile isWhitespace

/-- `str::trim_end_matches`. -/
def trimEndMatches (c : Char) (s : List Char) : List Char := s.rdropWhile (· == c)

/-- `str::strip_prefix`. -/
def stripPrefix (start s : List Char) : Option (List Char) := s.dropPrefix? start

/-- A terminated line without its line ending. -/
def stripCarriageReturn (line : List Char) : List Char :=
  if line.getLast? = some '\r' then line.dropLast else line

/-- `str::lines`: the terminated lines, and what is left if there is something. -/
def lines (s : List Char) : List (List Char) :=
  let pieces := s.splitOn '\n'
  let terminated := pieces.dropLast.map stripCarriageReturn
  match pieces.getLast? with
  | some (c :: cs) => terminated ++ [c :: cs]
  | _ => terminated

/-- `str::splitn`: at most `n` parts, the last of them unsplit. -/
def splitn : (n : ℕ) → Char → List Char → List (List Char)
  | 0, _, _ => []
  | 1, _, s => [s]
  | n + 2, c, s =>
    match s.dropWhile (· != c) with
    | [] => [s]
    | _ :: rest => s.takeWhile (· != c) :: splitn (n + 1) c rest

/-! ## Trimming -/

/-- A text with no white space at its ends is trimmed already. -/
theorem trim_of_ends {s : List Char} (hhead : ∀ c ∈ s.head?, isWhitespace c = false)
    (hlast : ∀ c ∈ s.getLast?, isWhitespace c = false) : trim s = s := by
  have hdrop : s.dropWhile isWhitespace = s := by
    cases s with
    | nil => rfl
    | cons c s => exact List.dropWhile_cons_of_neg (by simp [hhead c rfl])
  rw [trim, hdrop, List.rdropWhile_eq_self_iff]
  intro hne
  simp [hlast _ (List.getLast?_eq_some_getLast hne)]

/-- Trimming cuts off a beginning of white space, and then an end. -/
theorem trim_prefix (s : List Char) : trim s <+: s.dropWhile isWhitespace :=
  List.rdropWhile_prefix _ _

/-- A trimmed text does not begin with white space. -/
theorem isWhitespace_of_head_trim {s : List Char} {c : Char} (h : c ∈ (trim s).head?) :
    isWhitespace c = false := by
  obtain ⟨t, ht⟩ := trim_prefix s
  have hhead : (s.dropWhile isWhitespace).head? = some c := by
    rw [← ht, List.head?_append, Option.mem_def.mp h]
    rfl
  have hnot := List.head?_dropWhile_not isWhitespace s
  rw [hhead] at hnot
  simpa using hnot

/-! ## Parts -/

/-- A prefix is stripped off exactly when there is one. -/
theorem stripPrefix_eq_some_iff {start s rest : List Char} :
    stripPrefix start s = some rest ↔ s = start ++ rest := by
  rw [stripPrefix, List.dropPrefix?_eq_some_iff]
  constructor
  · rintro ⟨start', hs, hstart⟩
    rw [hs, eq_of_beq hstart]
  · intro hs
    exact ⟨start, hs, beq_self_eq_true start⟩

/-- Texts that continue differently where they leave their first parts, neither of which has the
other's next character, are different. -/
theorem append_cons_ne {a b s t : List Char} {c d : Char} (hcd : c ≠ d) (hc : c ∉ b)
    (hd : d ∉ a) : a ++ c :: s ≠ b ++ d :: t := by
  intro h
  obtain ⟨x, hx, hs⟩ | ⟨x, hx, hs⟩ := List.append_eq_append_iff.mp h
  · -- the character after `a` is in `b`, or the one after `b`
    cases x with
    | nil => exact hcd (List.cons.inj hs).1
    | cons e x =>
      obtain ⟨rfl, -⟩ := List.cons.inj hs
      exact hc (by simp [hx])
  · cases x with
    | nil => exact hcd (List.cons.inj hs).1.symm
    | cons e x =>
      obtain ⟨rfl, -⟩ := List.cons.inj hs
      exact hd (by simp [hx])

/-- A text is split at the first separator. -/
theorem splitn_append {c : Char} {part : List Char} (hpart : c ∉ part) (n : ℕ)
    (rest : List Char) : splitn (n + 2) c (part ++ c :: rest) = part :: splitn (n + 1) c rest := by
  have hall : ∀ x ∈ part, (x != c) = true := by
    intro x hx
    rw [bne_iff_ne]
    rintro rfl
    exact hpart hx
  have hdrop : (part ++ c :: rest).dropWhile (· != c) = c :: rest := by
    rw [List.dropWhile_append_of_pos hall, List.dropWhile_cons_of_neg (by simp)]
  have htake : (part ++ c :: rest).takeWhile (· != c) = part := by
    rw [List.takeWhile_append_of_pos hall, List.takeWhile_cons_of_neg (by simp), List.append_nil]
  rw [splitn, hdrop, htake]

/-- A text without a separator is its only part. -/
theorem splitn_of_notMem {c : Char} {s : List Char} (hs : c ∉ s) (n : ℕ) :
    splitn (n + 1) c s = [s] := by
  cases n with
  | zero => rfl
  | succ n =>
    have hdrop : s.dropWhile (· != c) = [] := by
      rw [List.dropWhile_eq_nil_iff]
      intro x hx
      rw [bne_iff_ne]
      rintro rfl
      exact hs hx
    rw [splitn, hdrop]

/-- A text is its only part, or it is split at its first separator. -/
theorem splitn_cases (c : Char) (s : List Char) (n : ℕ) :
    (c ∉ s ∧ splitn (n + 2) c s = [s]) ∨
      ∃ part rest, c ∉ part ∧ s = part ++ c :: rest ∧
        splitn (n + 2) c s = part :: splitn (n + 1) c rest := by
  by_cases hs : c ∈ s
  · obtain ⟨part, rest, rfl, hpart⟩ := List.eq_append_cons_of_mem hs
    exact .inr ⟨part, rest, hpart, rfl, splitn_append hpart n rest⟩
  · exact .inl ⟨hs, splitn_of_notMem hs (n + 1)⟩

/-- `String::from_utf8_lossy`. -/
def fromUtf8Lossy (bytes : Bytes) : String :=
  String.ofList (Path.decodeLossy bytes.length bytes)

end Str

end Rust
