import Mathlib.Data.List.DropRight
import Mathlib.Tactic.Common

/-!
# Base64

The standard Base64 encoding with padding: three bytes give four digits of six bits, and a last
group of one or two bytes is filled up with `=`. The decoder takes padding only at the end and only
after zero bits, so it accepts one text for each byte string.

## Main results

* `decode_encode`: decoding undoes encoding;
* `mem_encode`: what an encoded text consists of;
* `unpadded_inj`: byte strings of one length are told apart by their texts without padding.
-/

namespace Base64

/-- The digits, in the order of their values. -/
def alphabet : List Char :=
  "ABCDEFGHIJKLMNOPQRSTUVWXYZabcdefghijklmnopqrstuvwxyz0123456789+/".toList

/-- The digit of a value below 64. -/
def digit (n : ℕ) : Char := alphabet.getD n 'A'

/-- The value of a digit. -/
def value (c : Char) : Option ℕ := alphabet.findIdx? (· == c)

/-- Encode bytes as text. -/
def encode : List UInt8 → List Char
  | [] => []
  | [a] => [digit (a.toNat / 4), digit (a.toNat % 4 * 16), '=', '=']
  | [a, b] =>
    [digit (a.toNat / 4), digit (a.toNat % 4 * 16 + b.toNat / 16), digit (b.toNat % 16 * 4), '=']
  | a :: b :: c :: bs =>
    digit (a.toNat / 4) :: digit (a.toNat % 4 * 16 + b.toNat / 16) ::
      digit (b.toNat % 16 * 4 + c.toNat / 64) :: digit (c.toNat % 64) :: encode bs

/-- The byte of a last group with two characters of padding. -/
def lastOne (w x : Char) : Option (List UInt8) := do
  let m ← value w
  let n ← value x
  if n % 16 = 0 then some [UInt8.ofNat (m * 4 + n / 16)] else none

/-- The bytes of a last group with one character of padding. -/
def lastTwo (w x y : Char) : Option (List UInt8) := do
  let m ← value w
  let n ← value x
  let o ← value y
  if o % 4 = 0 then some [UInt8.ofNat (m * 4 + n / 16), UInt8.ofNat (n % 16 * 16 + o / 4)]
  else none

/-- Decode text into bytes. -/
def decode : List Char → Option (List UInt8)
  | [] => some []
  | w :: x :: y :: z :: rest =>
    if rest = [] ∧ z = '=' then
      if y = '=' then lastOne w x else lastTwo w x y
    else do
      let m ← value w
      let n ← value x
      let o ← value y
      let p ← value z
      let bytes ← decode rest
      some (UInt8.ofNat (m * 4 + n / 16) :: UInt8.ofNat (n % 16 * 16 + o / 4) ::
        UInt8.ofNat (o % 4 * 64 + p) :: bytes)
  | _ => none

/-! ## Digits -/

private theorem digits_spec : (List.range 64).all (fun n =>
    value (digit n) == some n && digit n != '=' && alphabet.contains (digit n)) = true := by
  decide +kernel

/-- A digit has its value and is one of the alphabet, which padding is not. -/
theorem digit_spec {n : ℕ} (h : n < 64) :
    value (digit n) = some n ∧ digit n ≠ '=' ∧ digit n ∈ alphabet := by
  have hspec := List.all_eq_true.mp digits_spec n (List.mem_range.mpr h)
  simp only [Bool.and_eq_true, beq_iff_eq, bne_iff_ne, List.contains_iff_mem] at hspec
  exact ⟨hspec.1.1, hspec.1.2, hspec.2⟩

/-- The two digits around the high part of a byte give the byte. -/
private theorem ofNat_eq {a : UInt8} {n : ℕ} (h : n = a.toNat) : UInt8.ofNat n = a := by
  rw [h, UInt8.ofNat_toNat]

/-- Decoding undoes encoding. -/
theorem decode_encode (bs : List UInt8) : decode (encode bs) = some bs := by
  induction bs using encode.induct with
  | case1 => rfl
  | case2 a =>
    have ha := a.toNat_lt
    rw [encode, decode, if_pos ⟨rfl, rfl⟩, if_pos rfl, lastOne,
      (digit_spec (show a.toNat / 4 < 64 by omega)).1,
      (digit_spec (show a.toNat % 4 * 16 < 64 by omega)).1]
    simp only [Option.bind_eq_bind, Option.bind_some]
    rw [if_pos (by omega), ofNat_eq (a := a) (by omega)]
  | case3 a b =>
    have ha := a.toNat_lt
    have hb := b.toNat_lt
    obtain ⟨hvalue, hne, -⟩ := digit_spec (show b.toNat % 16 * 4 < 64 by omega)
    rw [encode, decode, if_pos ⟨rfl, rfl⟩, if_neg hne, lastTwo,
      (digit_spec (show a.toNat / 4 < 64 by omega)).1,
      (digit_spec (show a.toNat % 4 * 16 + b.toNat / 16 < 64 by omega)).1, hvalue]
    simp only [Option.bind_eq_bind, Option.bind_some]
    rw [if_pos (by omega), ofNat_eq (a := a) (by omega), ofNat_eq (a := b) (by omega)]
  | case4 a b c bs ih =>
    have ha := a.toNat_lt
    have hb := b.toNat_lt
    have hc := c.toNat_lt
    obtain ⟨hvalue, hne, -⟩ := digit_spec (show c.toNat % 64 < 64 by omega)
    rw [encode, decode, if_neg fun h => hne h.2,
      (digit_spec (show a.toNat / 4 < 64 by omega)).1,
      (digit_spec (show a.toNat % 4 * 16 + b.toNat / 16 < 64 by omega)).1,
      (digit_spec (show b.toNat % 16 * 4 + c.toNat / 64 < 64 by omega)).1, hvalue, ih]
    simp only [Option.bind_eq_bind, Option.bind_some]
    rw [ofNat_eq (a := a) (by omega), ofNat_eq (a := b) (by omega), ofNat_eq (a := c) (by omega)]

/-- Different byte strings have different texts. -/
theorem encode_injective : Function.Injective encode := by
  intro as bs h
  have hdecode := congrArg decode h
  rw [decode_encode, decode_encode] at hdecode
  exact Option.some.inj hdecode

/-! ## Padding -/

/-- A text is digits and then padding, whose length depends on the number of bytes. -/
theorem encode_eq_append (bs : List UInt8) :
    ∃ body, encode bs = body ++ List.replicate ((3 - bs.length % 3) % 3) '=' ∧
      ∀ c ∈ body, c ∈ alphabet ∧ c ≠ '=' := by
  have hdigit : ∀ n, n < 64 → digit n ∈ alphabet ∧ digit n ≠ '=' := fun n hn =>
    ⟨(digit_spec hn).2.2, (digit_spec hn).2.1⟩
  induction bs using encode.induct with
  | case1 => exact ⟨[], rfl, nofun⟩
  | case2 a =>
    have ha := a.toNat_lt
    refine ⟨[_, _], rfl, ?_⟩
    simp only [List.forall_mem_cons]
    exact ⟨hdigit _ (by omega), hdigit _ (by omega), nofun⟩
  | case3 a b =>
    have ha := a.toNat_lt
    have hb := b.toNat_lt
    refine ⟨[_, _, _], rfl, ?_⟩
    simp only [List.forall_mem_cons]
    exact ⟨hdigit _ (by omega), hdigit _ (by omega), hdigit _ (by omega), nofun⟩
  | case4 a b c bs ih =>
    have ha := a.toNat_lt
    have hb := b.toNat_lt
    have hc := c.toNat_lt
    obtain ⟨body, hbody, hmem⟩ := ih
    refine ⟨digit (a.toNat / 4) :: digit (a.toNat % 4 * 16 + b.toNat / 16) ::
      digit (b.toNat % 16 * 4 + c.toNat / 64) :: digit (c.toNat % 64) :: body, ?_, ?_⟩
    · rw [encode, hbody, List.length_cons, List.length_cons, List.length_cons,
        show (bs.length + 1 + 1 + 1) % 3 = bs.length % 3 by omega]
      rfl
    · simp only [List.forall_mem_cons]
      exact ⟨hdigit _ (by omega), hdigit _ (by omega), hdigit _ (by omega),
        hdigit _ (by omega), hmem⟩

/-- A text consists of digits and padding. -/
theorem mem_encode {bs : List UInt8} {c : Char} (h : c ∈ encode bs) : c ∈ alphabet ∨ c = '=' := by
  obtain ⟨body, hbody, hmem⟩ := encode_eq_append bs
  rw [hbody, List.mem_append] at h
  obtain h | h := h
  · exact .inl (hmem c h).1
  · exact .inr (List.eq_of_mem_replicate h)

/-- The text without its padding. -/
def unpadded (bs : List UInt8) : List Char := (encode bs).rdropWhile (· == '=')

/-- Cutting the padding off leaves the digits. -/
theorem encode_eq_unpadded (bs : List UInt8) :
    encode bs = unpadded bs ++ List.replicate ((3 - bs.length % 3) % 3) '=' := by
  obtain ⟨body, hbody, hmem⟩ := encode_eq_append bs
  have hdrop : unpadded bs = body := by
    rw [unpadded, hbody, List.rdropWhile, List.reverse_append, List.reverse_replicate,
      List.dropWhile_append_of_pos fun c hc => by simp [List.eq_of_mem_replicate hc]]
    cases hrev : body.reverse with
    | nil => rw [List.dropWhile_nil, ← hrev, List.reverse_reverse]
    | cons c cs =>
      have hc : c ∈ body := List.mem_reverse.mp (hrev ▸ List.mem_cons_self)
      rw [List.dropWhile_cons_of_neg (by simp [(hmem c hc).2]), ← hrev, List.reverse_reverse]
  rw [hdrop, hbody]

/-- Byte strings of one length are told apart by their texts without padding. -/
theorem unpadded_inj {as bs : List UInt8} (hlen : as.length = bs.length)
    (h : unpadded as = unpadded bs) : as = bs := by
  apply encode_injective
  rw [encode_eq_unpadded, encode_eq_unpadded bs, h, hlen]

end Base64
