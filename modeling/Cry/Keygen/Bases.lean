import Cry.Keygen.Commands
import Cry.Rust.Lossy

/-!
# Key files of different bases

The paths of the key files are the text of the base with one of four suffixes. No suffix ends with
another, so the key files of two bases can only be the same where the texts of the bases are. The
text of a base has its invalid parts replaced, and two bases in one directory have the same text
exactly when their names do.

## Main results

* `disjoint_iff`: two bases share no key file exactly when their texts are different;
* `files_eq_of_run`: a run touches no file but the key files of its base;
* `bases_separate_iff`: exactly when two names in one directory are kept apart.
-/

namespace Cry

open Rust Effects

namespace Keygen

/-! ## Paths -/

/-- A path that the commands may write for a base, over all algorithms. -/
def OutputPath (base : Bytes) (path : String) : Prop :=
  ∃ algo, path = (names base algo).1 ∨ (names base algo).2 = some path ∨
    path = opensshPath (names base algo).1 ∨ path = opensshPubPath (names base algo).1

/-- These are the key files of the base. -/
theorem outputPath_iff {base : Bytes} {path : String} :
    OutputPath base path ↔ path ∈ keyFiles base := by
  simp only [keyFiles, List.mem_cons, List.not_mem_nil, or_false]
  constructor
  · rintro ⟨algo, h | h | h | h⟩
    · exact .inl (by cases algo <;> exact h)
    · refine .inr (.inl ?_)
      cases algo with
      | aes256Gcm => cases h
      | ed25519 => exact (Option.some.inj h).symm
      | rsa => exact (Option.some.inj h).symm
    · exact .inr (.inr (.inl (by cases algo <;> exact h)))
    · exact .inr (.inr (.inr (by cases algo <;> exact h)))
  · rintro (rfl | rfl | rfl | rfl)
    · exact ⟨.ed25519, .inl rfl⟩
    · exact ⟨.ed25519, .inr (.inl rfl)⟩
    · exact ⟨.ed25519, .inr (.inr (.inl rfl))⟩
    · exact ⟨.ed25519, .inr (.inr (.inr rfl))⟩

/-- No suffix ends with another. -/
theorem eq_of_suffix : ∀ s ∈ suffixes, ∀ s' ∈ suffixes, s.toList <:+ s'.toList → s = s' := by
  decide

/-- Texts with suffixes are the same only if the texts are. -/
theorem eq_of_append_suffix {a b s s' : String} (hs : s ∈ suffixes) (hs' : s' ∈ suffixes)
    (h : a ++ s = b ++ s') : a = b := by
  have hlist : a.toList ++ s.toList = b.toList ++ s'.toList := by
    rw [← String.toList_append, ← String.toList_append, h]
  have heq : s = s' := by
    obtain hend | hend := List.suffix_or_suffix_of_suffix
      ⟨a.toList, hlist⟩ (List.suffix_append b.toList s'.toList)
    · exact eq_of_suffix s hs s' hs' hend
    · exact (eq_of_suffix s' hs' s hs hend).symm
  rw [heq, List.append_cancel_right_eq] at hlist
  exact String.toList_inj.mp hlist

/-- Two bases share no key file exactly when their texts are different. -/
theorem disjoint_iff {base base' : Bytes} :
    (∀ path, ¬(OutputPath base path ∧ OutputPath base' path)) ↔ display base ≠ display base' := by
  constructor
  · intro h heq
    refine h (privPath base) ⟨outputPath_iff.mpr (by simp [keyFiles]), outputPath_iff.mpr ?_⟩
    rw [privPath, heq]
    simp [keyFiles, privPath]
  · rintro hne path ⟨hpath, hpath'⟩
    rw [outputPath_iff, keyFiles_eq_map, List.mem_map] at hpath hpath'
    obtain ⟨s, hs, rfl⟩ := hpath
    obtain ⟨s', hs', heq⟩ := hpath'
    exact hne (eq_of_append_suffix hs hs' heq.symm)

/-- A name in a directory, or alone. -/
def inDirectory : Option Bytes → Bytes → Bytes
  | none, name => name
  | some dir, name => dir ++ utf8 "/" ++ name

/-- In one directory, paths have the same text exactly when the names do. -/
theorem display_inDirectory_eq_iff (dir : Option Bytes) (name name' : Bytes) :
    display (inDirectory dir name) = display (inDirectory dir name') ↔
      Path.lossy name = Path.lossy name' := by
  have hdisplay : ∀ base, (display base).toList = Path.lossy base := fun base =>
    String.toList_ofList
  rw [← String.toList_inj, hdisplay, hdisplay]
  cases dir with
  | none => rfl
  | some dir =>
    have hslash : ∀ name, inDirectory (some dir) name = dir ++ 47 :: name := fun name =>
      List.append_assoc ..
    rw [hslash, hslash, Path.lossy_append (by decide), Path.lossy_append (by decide),
      List.append_cancel_left_eq, List.cons.injEq]
    simp

/-! ## Runs -/

variable {K : KeyPrimitives} (P : Primitives)

/-- A run touches no file but the key files of its base. -/
theorem files_eq_of_run {call : Call K} {files files' : Files}
    {schedule : Script.Schedule IoError} {r : Except Stop Unit}
    (hrun : (call.prog P).run files schedule = some (r, files')) {path : String}
    (hpath : path ∉ keyFiles call.base) : files' path = files path := by
  rw [Call.run_eq] at hrun
  obtain ⟨-, rfl⟩ := Prod.mk.inj (Option.some.inj hrun)
  exact Script.replay_of_notMem
    (fun hmem => hpath (Call.mem_keyFiles (Call.mem_outputs_of_written P hmem))) files

/-- The key files of two names in one directory are kept apart, in their paths and by every run on
one of the two bases, with `--force` or without, if and only if the texts of the names are
different. -/
theorem bases_separate_iff (dir : Option Bytes) (name name' : Bytes) :
    ((∀ path, ¬(OutputPath (inDirectory dir name) path ∧
        OutputPath (inDirectory dir name') path)) ∧
      ∀ (call : Call K) (files files' : Files) (schedule : Script.Schedule IoError)
        (r : Except Stop Unit), call.base = inDirectory dir name →
        (call.prog P).run files schedule = some (r, files') →
          ∀ path, OutputPath (inDirectory dir name') path → files' path = files path) ↔
      Path.lossy name ≠ Path.lossy name' := by
  rw [Ne, ← display_inDirectory_eq_iff dir, ← Ne, ← disjoint_iff]
  refine ⟨And.left, fun hdisjoint => ⟨hdisjoint, ?_⟩⟩
  intro call files files' schedule r hbase hrun path hpath
  refine files_eq_of_run P hrun fun hmem => hdisjoint path ⟨?_, hpath⟩
  rwa [outputPath_iff, ← hbase]

/-- Names that are valid text are always kept apart. -/
theorem disjoint_of_utf8 (dir : Option Bytes) {name name' : String} (h : name ≠ name')
    (path : String) :
    ¬(OutputPath (inDirectory dir (utf8 name)) path ∧
      OutputPath (inDirectory dir (utf8 name')) path) := by
  refine disjoint_iff.mpr ?_ path
  rw [Ne, display_inDirectory_eq_iff, Path.lossy_utf8, Path.lossy_utf8, String.toList_inj]
  exact h

/-- Two names of one byte that is no text have the same key files, and with `--force` a run on one
overwrites the private key of the other. -/
theorem names_collide :
    ∃ (name name' : Bytes) (path : String) (call : Call transparentKeys) (files files' : Files),
      name ≠ name' ∧ OutputPath name path ∧ OutputPath name' path ∧ call.base = name ∧
        (call.prog transparent).run files [] = some (.ok (), files') ∧
          files' path ≠ files path := by
  refine ⟨[0xFF], [0xFE], privPath [0xFF],
    Call.transparentKeygen { output := [0xFF], force := true } 7, fun _ => some [], _,
    by decide, outputPath_iff.mpr (by decide), outputPath_iff.mpr (by decide), rfl,
    Call.run_eq transparent _ _ _, ?_⟩
  decide

end Keygen

end Cry
