import Cry.Rust.Slice
import Cry.Rust.Str

/-!
# Text with its invalid parts replaced

Decoding bytes as UTF-8, with every maximal invalid part replaced by one character, goes from
character to character. An ASCII byte is a character of its own wherever it stands, so the text of a
path is put together from the texts of what stands before and after a separator. On valid UTF-8 the
decoding undoes the encoding, and there only it does not lose anything.

## Main results

* `lossy_cons`: the decoding as a recursion on the bytes;
* `lossy_append`: the decoding around an ASCII byte;
* `lossy_encode`, `Str.fromUtf8Lossy_utf8`: the decoding of valid UTF-8.
-/

namespace Rust

namespace Path

/-- Bytes as text, every invalid part of them replaced. -/
def lossy (bs : Bytes) : List Char := decodeLossy bs.length bs

/-! ## One character -/

/-- The first character of bytes, and what is left. -/
def nextChar (b : UInt8) (bs : Bytes) : Char × Bytes :=
  if b < 0x80 then (Char.ofNat b.toNat, bs)
  else
    match leadByte b with
    | none => (Char.ofNat 0xFFFD, bs)
    | some (n, lo, hi, acc) =>
      match continuation n lo hi acc bs with
      | (some code, rest) => (Char.ofNat code, rest)
      | (none, rest) => (Char.ofNat 0xFFFD, rest)

theorem decodeLossy_succ (fuel : ℕ) (b : UInt8) (bs : Bytes) :
    decodeLossy (fuel + 1) (b :: bs) =
      (nextChar b bs).1 :: decodeLossy fuel (nextChar b bs).2 := by
  rw [decodeLossy, nextChar]
  split
  · rfl
  · rcases leadByte b with _ | ⟨n, lo, hi, acc⟩
    · rfl
    · dsimp only
      rcases continuation n lo hi acc bs with ⟨_ | code, rest⟩ <;> rfl

/-- Continuation bytes are taken from the front. -/
theorem length_continuation_le (n : ℕ) (lo hi : UInt8) (acc : ℕ) (bs : Bytes) :
    (continuation n lo hi acc bs).2.length ≤ bs.length := by
  induction n generalizing lo hi acc bs with
  | zero => exact le_rfl
  | succ n ih =>
    cases bs with
    | nil => exact le_rfl
    | cons b bs =>
      rw [continuation]
      split
      · exact (ih _ _ _ _).trans (Nat.le_succ _)
      · exact le_rfl

theorem length_nextChar_le (b : UInt8) (bs : Bytes) : (nextChar b bs).2.length ≤ bs.length := by
  rw [nextChar]
  split
  · exact le_rfl
  · split
    · exact le_rfl
    · next n lo hi acc _ =>
      have hle := length_continuation_le n lo hi acc bs
      split
      · next hrest => rwa [hrest] at hle
      · next hrest => rwa [hrest] at hle

/-- A byte of fuel for every byte is enough. -/
theorem decodeLossy_of_le {fuel : ℕ} {bs : Bytes} (h : bs.length ≤ fuel) :
    decodeLossy fuel bs = lossy bs := by
  -- by induction on one of two amounts of fuel that are both enough
  suffices hfuel : ∀ (m n : ℕ) (bs : Bytes), bs.length ≤ m → bs.length ≤ n →
      decodeLossy m bs = decodeLossy n bs from hfuel _ _ bs h le_rfl
  intro m
  induction m with
  | zero =>
    intro n bs hm _
    obtain rfl := List.length_eq_zero_iff.mp (Nat.le_zero.mp hm)
    cases n <;> rfl
  | succ m ih =>
    intro n bs hm hn
    cases bs with
    | nil => cases n <;> rfl
    | cons b bs =>
      cases n with
      | zero => cases hn
      | succ n =>
        have hle := length_nextChar_le b bs
        rw [List.length_cons] at hm hn
        rw [decodeLossy_succ, decodeLossy_succ, ih n _ (by omega) (by omega)]

/-- Bytes are decoded character by character. -/
theorem lossy_cons (b : UInt8) (bs : Bytes) :
    lossy (b :: bs) = (nextChar b bs).1 :: lossy (nextChar b bs).2 := by
  rw [lossy, List.length_cons, decodeLossy_succ, decodeLossy_of_le (length_nextChar_le b bs)]

/-! ## ASCII bytes -/

/-- The range of the byte after a first one has no ASCII byte. -/
theorem le_of_leadByte {b : UInt8} {n acc : ℕ} {lo hi : UInt8}
    (h : leadByte b = some (n, lo, hi, acc)) : 0x80 ≤ lo := by
  unfold leadByte at h
  split at h
  · cases h
  · split at h
    · cases h
      decide
    · split at h
      · cases h
        split <;> decide
      · split at h
        · cases h
          split <;> decide
        · cases h

/-- An ASCII byte does not continue a character, and so ends it like the end of the input. -/
theorem continuation_append {n : ℕ} {lo hi : UInt8} {acc : ℕ} (hlo : 0x80 ≤ lo) {b : UInt8}
    (hb : b < 0x80) (bs t : Bytes) :
    continuation n lo hi acc (bs ++ b :: t) =
      ((continuation n lo hi acc bs).1, (continuation n lo hi acc bs).2 ++ b :: t) := by
  induction n generalizing lo hi acc bs with
  | zero => rfl
  | succ n ih =>
    cases bs with
    | nil =>
      have hout : ¬(lo ≤ b ∧ b ≤ hi) :=
        fun h => absurd (UInt8.le_trans hlo h.1) (UInt8.not_le.mpr hb)
      have hend : continuation (n + 1) lo hi acc [] = (none, []) := rfl
      rw [List.nil_append, hend, continuation, if_neg hout]
      rfl
    | cons x bs =>
      rw [List.cons_append, continuation, continuation]
      split
      · exact ih (by decide) bs
      · rfl

theorem nextChar_append {b : UInt8} (hb : b < 0x80) (x : UInt8) (bs t : Bytes) :
    nextChar x (bs ++ b :: t) = ((nextChar x bs).1, (nextChar x bs).2 ++ b :: t) := by
  rw [nextChar, nextChar]
  split
  · rfl
  · split
    · rfl
    · next n lo hi acc hlead =>
      rw [continuation_append (le_of_leadByte hlead) hb]
      rcases continuation n lo hi acc bs with ⟨_ | code, rest⟩
      · rfl
      · rfl

/-- An ASCII byte is a character of its own, between what stands before and after it. -/
theorem lossy_append {b : UInt8} (hb : b < 0x80) (bs t : Bytes) :
    lossy (bs ++ b :: t) = lossy bs ++ Char.ofNat b.toNat :: lossy t := by
  -- induction on the number of bytes in front, of which a character takes one at least
  induction hlen : bs.length using Nat.strong_induction_on generalizing bs with
  | _ n ih =>
    cases bs with
    | nil => rw [List.nil_append, lossy_cons, nextChar, if_pos hb]; rfl
    | cons x bs =>
      have hle := length_nextChar_le x bs
      rw [List.length_cons] at hlen
      rw [List.cons_append, lossy_cons, lossy_cons, nextChar_append hb,
        ih _ (by omega) _ rfl, List.cons_append]

/-! ## Valid text -/

/-- A byte that continues a character adds its low six bits. -/
theorem continuation_succ {n : ℕ} {lo hi : UInt8} {acc m : ℕ} (hm : m < 0x40)
    (hlo : lo.toNat ≤ m + 0x80) (hhi : m + 0x80 ≤ hi.toNat) (bs : Bytes) :
    continuation (n + 1) lo hi acc (UInt8.ofNat (m + 0x80) :: bs) =
      continuation n 0x80 0xBF (acc * 64 + m) bs := by
  have hnat : (UInt8.ofNat (m + 0x80)).toNat = m + 0x80 := by
    rw [UInt8.toNat_ofNat', Nat.mod_eq_of_lt (by omega)]
  have hrange : lo ≤ UInt8.ofNat (m + 0x80) ∧ UInt8.ofNat (m + 0x80) ≤ hi := by
    rw [UInt8.le_iff_toNat_le, UInt8.le_iff_toNat_le, hnat]
    exact ⟨hlo, hhi⟩
  have hbits : (UInt8.ofNat (m + 0x80)).toNat % 64 = m := by omega
  rw [continuation, if_pos hrange, hbits]

/-- What the first byte of an encoding says, for two, three and four bytes. -/
theorem leadByte_encode :
    (∀ m < 0x20, 2 ≤ m → leadByte (UInt8.ofNat (m + 0xC0)) = some (1, 0x80, 0xBF, m)) ∧
      (∀ m < 0x10, leadByte (UInt8.ofNat (m + 0xE0)) =
        some (2, if m = 0 then 0xA0 else 0x80, if m = 13 then 0x9F else 0xBF, m)) ∧
      ∀ m < 5, leadByte (UInt8.ofNat (m + 0xF0)) =
        some (3, if m = 0 then 0x90 else 0x80, if m = 4 then 0x8F else 0xBF, m) := by
  refine ⟨fun m hlt hle => ?_, by decide, by decide⟩
  have htable : ∀ m < 0x1E,
      leadByte (UInt8.ofNat (m + 2 + 0xC0)) = some (1, 0x80, 0xBF, m + 2) := by decide
  obtain ⟨k, rfl⟩ : ∃ k, m = k + 2 := ⟨m - 2, by omega⟩
  exact htable k (by omega)

/-- After the first byte of an encoding come the bytes that continue it. -/
theorem nextChar_of_continuation {m n k acc : ℕ} {lo hi : UInt8} {bs rest : Bytes}
    (hm : 0x80 ≤ m) (hlt : m < 0x100) (hlead : leadByte (UInt8.ofNat m) = some (n, lo, hi, acc))
    (hrest : continuation n lo hi acc bs = (some k, rest)) :
    nextChar (UInt8.ofNat m) bs = (Char.ofNat k, rest) := by
  have hascii : ¬UInt8.ofNat m < 0x80 := by
    rw [UInt8.not_lt, UInt8.le_iff_toNat_le, UInt8.toNat_ofNat', Nat.mod_eq_of_lt hlt]
    exact hm
  rw [nextChar, if_neg hascii, hlead]
  simp only [hrest]

/-- The encoding of a character is decoded to the character. -/
theorem nextChar_encode (c : Char) (bs : Bytes) :
    ∃ b rest, String.utf8EncodeChar c ++ bs = b :: rest ∧ nextChar b rest = (c, bs) := by
  obtain ⟨htwo, hthree, hfour⟩ := leadByte_encode
  have hvalid := c.valid
  simp only [UInt32.isValidChar, Nat.isValidChar] at hvalid
  have hchar : ∀ n, n = c.val.toNat → Char.ofNat n = c := by
    rintro n rfl
    exact c.ofNat_toNat
  fun_cases String.utf8EncodeChar c with
  | case1 v h =>
    refine ⟨_, _, rfl, ?_⟩
    have hnat : (UInt8.ofNat v).toNat = v := by
      rw [UInt8.toNat_ofNat', Nat.mod_eq_of_lt (by omega)]
    have hascii : UInt8.ofNat v < 0x80 := by
      rw [UInt8.lt_iff_toNat_lt, hnat]
      exact Nat.lt_succ_of_le h
    rw [nextChar, if_pos hascii, hnat]
    simp [hchar v rfl]
  | case2 v =>
    refine ⟨_, _, rfl, ?_⟩
    have hk := hchar (v / 64 % 32 * 64 + v % 64) (by omega)
    rw [← hk]
    refine nextChar_of_continuation (by omega) (by omega)
      (htwo _ (Nat.mod_lt _ (by decide)) (by omega)) ?_
    exact continuation_succ (by omega) (by simp) (by simp; omega) _
  | case3 v =>
    refine ⟨_, _, rfl, ?_⟩
    have hk := hchar ((v / 4096 % 16 * 64 + v / 64 % 64) * 64 + v % 64) (by omega)
    rw [← hk]
    refine nextChar_of_continuation (by omega) (by omega)
      (hthree _ (Nat.mod_lt _ (by decide))) ?_
    refine (continuation_succ (by omega) (by split <;> simp; omega) (by split <;> simp <;> omega)
      _).trans ?_
    exact continuation_succ (by omega) (by simp) (by simp; omega) _
  | case4 v =>
    refine ⟨_, _, rfl, ?_⟩
    have hk := hchar (((v / 262144 % 8 * 64 + v / 4096 % 64) * 64 + v / 64 % 64) * 64 + v % 64)
      (by omega)
    rw [← hk]
    refine nextChar_of_continuation (by omega) (by omega) (hfour _ (by omega)) ?_
    refine (continuation_succ (by omega) (by split <;> simp; omega) (by split <;> simp <;> omega)
      _).trans ?_
    refine (continuation_succ (by omega) (by simp) (by simp; omega) _).trans ?_
    exact continuation_succ (by omega) (by simp) (by simp; omega) _

/-- Valid text is decoded without a loss. -/
theorem lossy_encode (cs : List Char) : lossy (Str.encode cs) = cs := by
  induction cs with
  | nil => rfl
  | cons c cs ih =>
    obtain ⟨b, rest, hbytes, hnext⟩ := nextChar_encode c (Str.encode cs)
    rw [Str.encode_cons, hbytes, lossy_cons, hnext, ih]

/-- Different texts are told apart. -/
theorem lossy_utf8 (s : String) : lossy (utf8 s) = s.toList := by
  rw [Str.utf8_eq_encode, lossy_encode]

end Path

/-- A text survives the conversion to bytes and back. -/
theorem Str.fromUtf8Lossy_utf8 (s : String) : fromUtf8Lossy (utf8 s) = s := by
  have hlist : Path.decodeLossy (utf8 s).length (utf8 s) = s.toList := Path.lossy_utf8 s
  rw [fromUtf8Lossy, hlist, String.ofList_toList]

end Rust
