import Mathlib.Data.List.Induction
import Mathlib.Tactic.Common
import Mathlib.Tactic.Ring

/-!
# Big-endian byte strings

The fixed-width big-endian encoding of natural numbers, and of 32-bit and 64-bit words, as lists
of bytes. Encoding and decoding are inverse in both directions, so the encoding is injective on
values that fit and the decoding is injective on byte strings of one length.
-/

/-- Byte arrays of a fixed length. -/
abbrev U8Array (n : ℕ) := { bs : List UInt8 // bs.length = n }

@[simp] theorem U8Array.length_val {n : ℕ} (a : U8Array n) : a.val.length = n := a.property

/-- A byte string starts with an array of any length up to its own. -/
theorem U8Array.exists_append (n : ℕ) (bs : List UInt8) (h : n ≤ bs.length) :
    ∃ (a : U8Array n) (rest : List UInt8), bs = a.val ++ rest ∧ rest.length = bs.length - n :=
  ⟨⟨bs.take n, by simp [h]⟩, bs.drop n, (List.take_append_drop n bs).symm, by simp⟩

namespace BigEndian

/-- The low `width` bytes of a number, most significant first. -/
def toBytes : (width : ℕ) → ℕ → List UInt8
  | 0, _ => []
  | width + 1, n => toBytes width (n / 256) ++ [UInt8.ofNat n]

/-- The number a byte string spells, most significant byte first. -/
def ofBytes (bs : List UInt8) : ℕ := bs.foldl (fun acc b => acc * 256 + b.toNat) 0

@[simp] theorem length_toBytes (width n : ℕ) : (toBytes width n).length = width := by
  induction width generalizing n with
  | zero => rfl
  | succ width ih => simp [toBytes, ih]

@[simp] theorem ofBytes_nil : ofBytes [] = 0 := rfl

theorem ofBytes_concat (bs : List UInt8) (b : UInt8) :
    ofBytes (bs ++ [b]) = ofBytes bs * 256 + b.toNat := by
  simp [ofBytes]

/-- A byte string spells a number below `256` to the power of its length. -/
theorem ofBytes_lt (bs : List UInt8) : ofBytes bs < 256 ^ bs.length := by
  induction bs using List.reverseRecOn with
  | nil => simp
  | append_singleton bs b ih =>
    have hb : b.toNat < 256 := b.toNat_lt
    rw [ofBytes_concat, List.length_append, List.length_singleton, Nat.pow_succ]
    omega

/-- Decoding a concatenation: the first part is shifted by the width of the second. -/
theorem ofBytes_append (as bs : List UInt8) :
    ofBytes (as ++ bs) = ofBytes as * 256 ^ bs.length + ofBytes bs := by
  induction bs using List.reverseRecOn with
  | nil => simp
  | append_singleton bs b ih =>
    rw [← List.append_assoc, ofBytes_concat, ih, ofBytes_concat, List.length_append,
      List.length_singleton]
    ring

/-- Decoding inverts encoding, up to the width. -/
theorem ofBytes_toBytes (width n : ℕ) : ofBytes (toBytes width n) = n % 256 ^ width := by
  induction width generalizing n with
  | zero => simp [toBytes, Nat.mod_one]
  | succ width ih =>
    have hlow : (UInt8.ofNat n).toNat = n % 256 := UInt8.toNat_ofNat'
    rw [toBytes, ofBytes_concat, ih, hlow, Nat.pow_succ' (n := width), Nat.mod_mul]
    omega

/-- Decoding inverts encoding on values that fit. -/
theorem ofBytes_toBytes_of_lt {width n : ℕ} (h : n < 256 ^ width) :
    ofBytes (toBytes width n) = n := by
  rw [ofBytes_toBytes, Nat.mod_eq_of_lt h]

/-- Encoding inverts decoding at the width of the string. -/
theorem toBytes_ofBytes (bs : List UInt8) : toBytes bs.length (ofBytes bs) = bs := by
  induction bs using List.reverseRecOn with
  | nil => rfl
  | append_singleton bs b ih =>
    have hb : b.toNat < 256 := b.toNat_lt
    have hdiv : (ofBytes bs * 256 + b.toNat) / 256 = ofBytes bs := by omega
    have hlow : UInt8.ofNat (ofBytes bs * 256 + b.toNat) = b := by
      apply UInt8.toNat_inj.mp
      rw [UInt8.toNat_ofNat']
      omega
    rw [List.length_append, List.length_singleton, toBytes, ofBytes_concat, hdiv, ih, hlow]

/-! ## 32-bit and 64-bit words -/

/-- The four bytes of a 32-bit word, most significant first. -/
def ofU32 (x : UInt32) : List UInt8 := toBytes 4 x.toNat

/-- The 32-bit word that four bytes spell. -/
def toU32 (bs : U8Array 4) : UInt32 := UInt32.ofNat (ofBytes bs.val)

/-- The eight bytes of a 64-bit word, most significant first. -/
def ofU64 (x : UInt64) : List UInt8 := toBytes 8 x.toNat

/-- The 64-bit word that eight bytes spell. -/
def toU64 (bs : U8Array 8) : UInt64 := UInt64.ofNat (ofBytes bs.val)

@[simp] theorem length_ofU32 (x : UInt32) : (ofU32 x).length = 4 := length_toBytes 4 _

@[simp] theorem length_ofU64 (x : UInt64) : (ofU64 x).length = 8 := length_toBytes 8 _

theorem toNat_toU32 (bs : U8Array 4) : (toU32 bs).toNat = ofBytes bs.val := by
  have h := ofBytes_lt bs.val
  rw [bs.length_val] at h
  exact UInt32.toNat_ofNat_of_lt' h

theorem toNat_toU64 (bs : U8Array 8) : (toU64 bs).toNat = ofBytes bs.val := by
  have h := ofBytes_lt bs.val
  rw [bs.length_val] at h
  exact UInt64.toNat_ofNat_of_lt' h

theorem ofBytes_ofU32 (x : UInt32) : ofBytes (ofU32 x) = x.toNat :=
  ofBytes_toBytes_of_lt x.toNat_lt

theorem ofBytes_ofU64 (x : UInt64) : ofBytes (ofU64 x) = x.toNat :=
  ofBytes_toBytes_of_lt x.toNat_lt

@[simp] theorem toU32_ofU32 (x : UInt32) : toU32 ⟨ofU32 x, length_ofU32 x⟩ = x := by
  apply UInt32.toNat_inj.mp
  rw [toNat_toU32, ofBytes_ofU32]

@[simp] theorem toU64_ofU64 (x : UInt64) : toU64 ⟨ofU64 x, length_ofU64 x⟩ = x := by
  apply UInt64.toNat_inj.mp
  rw [toNat_toU64, ofBytes_ofU64]

@[simp] theorem ofU32_toU32 (bs : U8Array 4) : ofU32 (toU32 bs) = bs.val := by
  have h := toBytes_ofBytes bs.val
  rw [bs.length_val] at h
  rw [ofU32, toNat_toU32, h]

@[simp] theorem ofU64_toU64 (bs : U8Array 8) : ofU64 (toU64 bs) = bs.val := by
  have h := toBytes_ofBytes bs.val
  rw [bs.length_val] at h
  rw [ofU64, toNat_toU64, h]

theorem ofU32_injective : Function.Injective ofU32 := by
  intro x y h
  apply UInt32.toNat_inj.mp
  rw [← ofBytes_ofU32, h, ofBytes_ofU32]

theorem ofU64_injective : Function.Injective ofU64 := by
  intro x y h
  apply UInt64.toNat_inj.mp
  rw [← ofBytes_ofU64, h, ofBytes_ofU64]

end BigEndian
