import Cry.Cli.Main
import Cry.Crydna.Signature

/-!
# The verify command

`verify` takes a public key and a signature as text from the command line, both of them untrusted,
and shows the first and the last eight bytes of an accepted signature. Texts are sliced by byte
offsets in two places, in the hexadecimal decoder and in the display. The display comes after a
signature was decoded, so its slices are of digits; the decoder slices what it was given.

## Main results

* `verify_eq_panic_iff`: on which texts the command panics;
* `verify_ends_iff`: the command ends with success or with an error exactly on the others;
* `main_verify`: the command is the one that the dispatch runs.
-/

namespace Cry.Cli

open Rust Rust.Str Crydna Effects

variable (P : Primitives) (S : SignaturePrimitives)

/-- A slice of a text that is not checked beforehand. -/
def orPanic {α : Type} : Except (Failure Empty) α → Except Stop α
  | .ok a => .ok a
  | .error (.err e) => nomatch e
  | .error .panic => .error .panic

/-- What is shown of an accepted signature: its first and its last eight bytes. -/
def shownSignature (signature : String) : Except Stop Bytes := do
  let len := (utf8 signature).length
  let first ← orPanic (slice signature 0 8)
  let last ← orPanic (slice signature (len - 8) len)
  pure (first ++ utf8 "…" ++ last)

/-- The `verify` command on the result of reading its file, with what it shows of the signature. -/
def verify (content : Except IoError Bytes) (args : VerifyArgs) : Except Stop Bytes := do
  let content ← ofIo content
  verifyContentSignature P S args.publicKey content args.signature
  shownSignature args.signature

/-! ## Where the command panics -/

/-- What is shown of a signature that was decoded is sliced between characters. -/
theorem shownSignature_ok {signature : String} {sig : U8Array 64}
    (hsig : Denotes signature sig.val) : ∃ shown, shownSignature signature = .ok shown := by
  have hascii := hsig.1.utf8Size.2
  have hbytes : (utf8 signature).length = signature.toList.length := by
    rw [utf8_eq_encode, length_encode_of_size_one hascii]
  -- 64 bytes are 128 digits
  have hchars : signature.toList.length = 128 := by
    have hcount := congrArg List.length hsig.2
    rw [List.length_map, length_bytesToHex, sig.length_val] at hcount
    exact hcount.symm
  obtain ⟨first, hfirst⟩ := exists_slice_of_size_one (ε := Empty) hascii (Nat.zero_le 8)
    (by omega)
  obtain ⟨last, hlast⟩ := exists_slice_of_size_one (ε := Empty) hascii
    (show signature.toList.length - 8 ≤ signature.toList.length by omega) le_rfl
  rw [shownSignature, hbytes, hfirst, hlast]
  exact ⟨_, rfl⟩

/-- The command panics exactly when its file was read and the decoder slices through a character of
the public key, or of the signature after the public key has been decoded. -/
theorem verify_eq_panic_iff {content : Except IoError Bytes} {args : VerifyArgs} :
    verify P S content args = .error .panic ↔
      ∃ bytes, content = .ok bytes ∧
        (CutsCharacter args.publicKey ∨
          ∃ (key : U8Array 32) (vk : S.VerifyingKey), Denotes args.publicKey key.val ∧
            S.fromBytes key = .ok vk ∧ CutsCharacter args.signature) := by
  cases content with
  | error e => exact ⟨nofun, nofun⟩
  | ok bytes =>
    simp only [verify, ofIo_ok, bind_eq_panic_iff, reduceCtorEq, Except.ok.injEq, exists_eq_left',
      false_or, verifyContentSignature_eq_panic_iff]
    refine or_iff_left_of_imp ?_
    -- the display comes after a signature was decoded
    rintro ⟨_, hverify, hshown⟩
    obtain ⟨sig, hsig⟩ := denotes_of_verifyContentSignature P S hverify
    obtain ⟨shown, hok⟩ := shownSignature_ok hsig
    rw [hok] at hshown
    cases hshown

/-- The command ends with success or with an error if and only if, where its file was read, the
decoder slices through no character: not of the public key, and not of the signature where the
public key is that of a key. -/
theorem verify_ends_iff (content : Except IoError Bytes) (args : VerifyArgs) :
    ((∃ shown, verify P S content args = .ok shown) ∨
        ∃ e, verify P S content args = .error (.err e)) ↔
      ∀ bytes, content = .ok bytes → ¬ CutsCharacter args.publicKey ∧
        ∀ (key : U8Array 32) (vk : S.VerifyingKey), Denotes args.publicKey key.val →
          S.fromBytes key = .ok vk → ¬ CutsCharacter args.signature := by
  have hends : ((∃ shown, verify P S content args = .ok shown) ∨
      ∃ e, verify P S content args = .error (.err e)) ↔
        verify P S content args ≠ .error .panic := by
    rcases verify P S content args with (e | _) | shown
    · simp
    · simp
    · simp
  rw [hends, Ne, verify_eq_panic_iff]
  constructor
  · intro h bytes hbytes
    exact ⟨fun hcuts => h ⟨bytes, hbytes, .inl hcuts⟩,
      fun key vk hkey hvk hcuts => h ⟨bytes, hbytes, .inr ⟨key, vk, hkey, hvk, hcuts⟩⟩⟩
  · rintro h ⟨bytes, hbytes, hcuts | ⟨key, vk, hkey, hvk, hcuts⟩⟩
    · exact (h bytes hbytes).1 hcuts
    · exact (h bytes hbytes).2 key vk hkey hvk hcuts

/-- A public key of a character of three bytes and one of one byte makes the command panic. -/
theorem euro_panics :
    ¬ ((∃ shown, verify transparent transparentSignatures (.ok []) ⟨[], "", "€a"⟩ = .ok shown) ∨
      ∃ e, verify transparent transparentSignatures (.ok []) ⟨[], "", "€a"⟩ = .error (.err e)) := by
  have hpanic : verify transparent transparentSignatures (.ok []) ⟨[], "", "€a"⟩ =
      .error .panic :=
    (verify_eq_panic_iff _ _).mpr ⟨[], rfl, .inl ⟨by decide, .wide (by decide)⟩⟩
  rw [hpanic]
  rintro (⟨shown, h⟩ | ⟨e, h⟩)
  · cases h
  · cases h

/-! ## The dispatch -/

/-- A result without what is shown of it. -/
def ended {α : Type} (x : Except Stop α) : Except Stop Unit := x.map fun _ => ()

/-- Where the command does not panic, the dispatch ends as it does. -/
theorem main_verify {content : Except IoError Bytes} {args : VerifyArgs}
    (answer : (o : CliOp) → CliRes o) (hread : answer (.readFile args.file) = content)
    (hverify : ∀ bytes, content = .ok bytes →
      (answer (.verifyContentSignature args.publicKey bytes args.signature)).mapError .err =
        verifyContentSignature P S args.publicKey bytes args.signature) :
    (Prog.run (fun o (s : Unit) => (answer o, s)) (main (.verify args)) ()).map
        (fun x => x.1.mapError .err) = some (ended (verify P S content args)) := by
  subst hread
  rw [main, Prog.bind_eq, Prog.perform_bind, Prog.run_op]
  cases hread : answer (.readFile args.file) with
  | error e => rfl
  | ok bytes =>
    have hcall := hverify bytes hread
    simp only [orIo, Prog.bind_eq, Prog.pure_bind, Prog.perform_bind, Prog.run_op]
    simp only [verify, ofIo_ok, bind, Except.bind]
    rw [← hcall]
    cases hres : answer (.verifyContentSignature args.publicKey bytes args.signature) with
    | error e => rfl
    | ok u =>
      -- an accepted signature is shown
      rw [hres] at hcall
      obtain ⟨sig, hsig⟩ := denotes_of_verifyContentSignature P S hcall.symm
      obtain ⟨shown, hshown⟩ := shownSignature_ok hsig
      simp only [Except.mapError, hshown]
      rfl

end Cry.Cli
