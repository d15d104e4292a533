import Cry.Header
import Cry.Keygen.Files
import Cry.Rust.Slice

/-!
# Hexadecimal text

The encoder writes two digits for each byte. The decoder slices the text by byte offsets, two at a
time, and hands each part to `u8::from_str_radix`. That function takes a sign in front of a digit,
and the slice panics when it cuts a character, so the decoder is told apart from the inverse of
the encoder by the two predicates of this file: `HexPairs`, what it accepts, and `Splits`, where
it panics.

## Main results

* `hexToBytes_eq_ok_iff`, `hexToBytes_eq_panic_iff`: when the decoder accepts and when it panics;
* `hexToBytes_bytesToHex`: the decoder undoes the encoder;
* `hex_exact_iff`: the decoder accepts exactly hexadecimal text, and the encoder gives that text
  back in lower case, on exactly the texts that are not pairs with a sign among them.
-/

namespace Cry.Crydna

open Rust Rust.Str

/-! ## Encoder and decoder -/

/-- Encode bytes as lowercase hexadecimal text. -/
def bytesToHex (bytes : Bytes) : String := String.join (bytes.map hexByte)

/-- The two bytes of the text from an offset on as a number. -/
def hexPair (s : String) (i : ℕ) : Except (Failure String) UInt8 := do
  let part ← slice s i (i + 2)
  match fromStrRadix 16 part with
  | .ok b => .ok b
  | .error e => .error (.err e)

/-- Decode hexadecimal text. The first part that is refused, or that cannot be sliced, ends it. -/
def hexToBytes (s : String) : Except (Failure String) Bytes :=
  let len := (utf8 s).length
  if len % 2 ≠ 0 then .error (.err ("odd hex length (" ++ toString len ++ ")"))
  else (List.range' 0 (len / 2) 2).mapM (hexPair s)

/-! ## Digits -/

/-- The hexadecimal digits. -/
def hexDigits : List Char := "0123456789abcdefABCDEF".toList

/-- The character that the encoder writes where the decoder has accepted `c`. -/
def normalize (c : Char) : Char := if c = '+' then '0' else c.toLower

/-- What a byte below 128 is as a digit. -/
theorem toDigit_ofNat : ∀ n < 0x80, (toDigit 16 (UInt8.ofNat n)).map Nat.digitChar =
    if Char.ofNat n ∈ hexDigits then some (Char.ofNat n).toLower else none := by
  decide +kernel

/-- A character of one byte is a digit exactly when it is one of the hexadecimal digits, and the
encoder writes its value as that digit in lower case. -/
theorem toDigit_of_size_one {c : Char} (h : c.utf8Size = 1) :
    (toDigit 16 (UInt8.ofNat c.toNat)).map Nat.digitChar =
      if c ∈ hexDigits then some c.toLower else none := by
  have hdigit := toDigit_ofNat c.toNat (utf8EncodeChar_of_size_one h).1
  rwa [Char.ofNat_toNat] at hdigit

theorem plus_notMem : '+' ∉ hexDigits := by decide

theorem normalize_of_mem {c : Char} (h : c ∈ hexDigits) : normalize c = c.toLower := by
  rw [normalize, if_neg]
  rintro rfl
  exact plus_notMem h

/-- In front of a digit a sign counts as well. -/
theorem leadDigit_of_size_one {c : Char} (h : c.utf8Size = 1) :
    (leadDigit (UInt8.ofNat c.toNat)).map Nat.digitChar =
      if c ∈ hexDigits ∨ c = '+' then some (normalize c) else none := by
  by_cases hc : c = '+'
  · subst hc
    rfl
  · have hlt := (utf8EncodeChar_of_size_one h).1
    have hne : UInt8.ofNat c.toNat ≠ 43 := by
      intro heq
      have hnat := congrArg UInt8.toNat heq
      rw [UInt8.toNat_ofNat', Nat.mod_eq_of_lt (by omega)] at hnat
      exact hc (Char.toNat_inj.mp hnat)
    rw [leadDigit, if_neg hne, toDigit_of_size_one h]
    simp only [hc, or_false]
    split
    · next hmem => rw [normalize_of_mem hmem]
    · rfl

theorem utf8Size_of_mem {c : Char} (h : c ∈ hexDigits) : c.utf8Size = 1 := by
  have hall : hexDigits.all (fun c => c.utf8Size == 1) = true := by decide
  exact beq_iff_eq.mp (List.all_eq_true.mp hall c h)

/-- The number of a pair of digits is printed as the pair. -/
theorem toList_hexByte {m n : ℕ} (hm : m < 16) (hn : n < 16) :
    (hexByte (UInt8.ofNat (m * 16 + n))).toList = [Nat.digitChar m, Nat.digitChar n] := by
  have hnat : (UInt8.ofNat (m * 16 + n)).toNat = m * 16 + n := by
    rw [UInt8.toNat_ofNat']
    omega
  rw [hexByte, hnat, String.toList_ofList, show (m * 16 + n) / 16 = m by omega,
    show (m * 16 + n) % 16 = n by omega]

/-! ## What the decoder accepts, and where it panics -/

/-- Two characters that are taken as a number: two digits, or a sign and a digit. -/
def IsHexPair (c d : Char) : Prop := (c ∈ hexDigits ∨ c = '+') ∧ d ∈ hexDigits

/-- The characters are pairs that are taken as numbers. -/
def HexPairs : List Char → Prop
  | [] => True
  | [_] => False
  | c :: d :: cs => IsHexPair c d ∧ HexPairs cs

/-- After pairs that are taken as numbers, two bytes end inside a character: a character of three
or four bytes follows, or one of one byte and then a longer one. -/
inductive Splits : List Char → Prop
  | wide {c : Char} {cs : List Char} : 3 ≤ c.utf8Size → Splits (c :: cs)
  | across {c d : Char} {cs : List Char} :
      c.utf8Size = 1 → 2 ≤ d.utf8Size → Splits (c :: d :: cs)
  | pair {c d : Char} {cs : List Char} : IsHexPair c d → Splits cs → Splits (c :: d :: cs)

/-- The text is read as these bytes: it is pairs that are taken as numbers, and the bytes are
written as the text with zeros for the signs and in lower case. -/
def Denotes (text : String) (bytes : Bytes) : Prop :=
  HexPairs text.toList ∧ (bytesToHex bytes).toList = text.toList.map normalize

/-- The text has an even number of bytes, and after pairs that are taken as numbers two bytes of it
end inside a character. -/
def CutsCharacter (text : String) : Prop := (utf8 text).length % 2 = 0 ∧ Splits text.toList

theorem IsHexPair.utf8Size {c d : Char} (h : IsHexPair c d) :
    c.utf8Size = 1 ∧ d.utf8Size = 1 := by
  obtain ⟨hc | rfl, hd⟩ := h
  · exact ⟨utf8Size_of_mem hc, utf8Size_of_mem hd⟩
  · exact ⟨rfl, utf8Size_of_mem hd⟩

/-- Pairs that are taken as numbers are an even number of characters of one byte. -/
theorem HexPairs.utf8Size {cs : List Char} (h : HexPairs cs) :
    cs.length % 2 = 0 ∧ ∀ c ∈ cs, c.utf8Size = 1 := by
  induction cs using HexPairs.induct with
  | case1 => exact ⟨rfl, nofun⟩
  | case2 c => exact h.elim
  | case3 c d cs ih =>
    obtain ⟨hc, hd⟩ := h.1.utf8Size
    obtain ⟨hlen, hcs⟩ := ih h.2
    rw [List.forall_mem_cons, List.forall_mem_cons]
    refine ⟨?_, hc, hd, hcs⟩
    rw [List.length_cons, List.length_cons]
    omega

/-- Pairs that are taken as numbers are two bytes each. -/
theorem HexPairs.length_encode {cs : List Char} (h : HexPairs cs) :
    (encode cs).length % 2 = 0 := by
  rw [length_encode_of_size_one h.utf8Size.2, h.utf8Size.1]

/-- The decoder does not panic on what it accepts. -/
theorem HexPairs.not_splits {cs : List Char} (h : HexPairs cs) : ¬ Splits cs := by
  intro hs
  induction hs with
  | @wide c cs hc =>
    cases cs with
    | nil => exact h
    | cons d cs =>
      have := h.1.utf8Size.1
      omega
  | across hc hd =>
    have := h.1.utf8Size.2
    omega
  | pair _ _ ih => exact ih h.2

/-- A pair of one-byte characters is taken as the number that prints as the pair, or refused. -/
theorem fromStrRadix_encode {c d : Char} (hc : c.utf8Size = 1) (hd : d.utf8Size = 1) :
    (IsHexPair c d ∧ ∃ b, fromStrRadix 16 (encode [c, d]) = .ok b ∧
        (hexByte b).toList = [normalize c, normalize d]) ∨
      ¬ IsHexPair c d ∧ fromStrRadix 16 (encode [c, d]) = .error invalidDigit := by
  have hbytes : encode [c, d] = [UInt8.ofNat c.toNat, UInt8.ofNat d.toNat] := by
    simp [(utf8EncodeChar_of_size_one hc).2, (utf8EncodeChar_of_size_one hd).2]
  have hlead := leadDigit_of_size_one hc
  have hdigit := toDigit_of_size_one hd
  rw [hbytes, fromStrRadix_pair]
  cases hm : leadDigit (UInt8.ofNat c.toNat) with
  | none =>
    rw [hm, Option.map_none] at hlead
    refine .inr ⟨fun hpair => ?_, rfl⟩
    rw [if_pos hpair.1] at hlead
    cases hlead
  | some m =>
    cases hn : toDigit 16 (UInt8.ofNat d.toNat) with
    | none =>
      rw [hn, Option.map_none] at hdigit
      refine .inr ⟨fun hpair => ?_, rfl⟩
      rw [if_pos hpair.2] at hdigit
      cases hdigit
    | some n =>
      rw [hm, Option.map_some] at hlead
      rw [hn, Option.map_some] at hdigit
      have hcmem : c ∈ hexDigits ∨ c = '+' := by
        by_contra hmem
        rw [if_neg hmem] at hlead
        cases hlead
      have hdmem : d ∈ hexDigits := by
        by_contra hmem
        rw [if_neg hmem] at hdigit
        cases hdigit
      rw [if_pos hcmem, Option.some.injEq] at hlead
      rw [if_pos hdmem, Option.some.injEq, ← normalize_of_mem hdmem] at hdigit
      refine .inl ⟨⟨hcmem, hdmem⟩, _, rfl, ?_⟩
      rw [toList_hexByte (leadDigit_lt hm) (toDigit_lt hn), hlead, hdigit]

/-! ## The encoder -/

theorem toList_bytesToHex (bs : Bytes) :
    (bytesToHex bs).toList = bs.flatMap fun b => (hexByte b).toList := by
  rw [bytesToHex, String.toList_join, List.flatMap_map]

@[simp] theorem toList_bytesToHex_nil : (bytesToHex []).toList = [] := by
  rw [toList_bytesToHex, List.flatMap_nil]

theorem toList_bytesToHex_cons (b : UInt8) (bs : Bytes) :
    (bytesToHex (b :: bs)).toList = (hexByte b).toList ++ (bytesToHex bs).toList := by
  rw [toList_bytesToHex, List.flatMap_cons, ← toList_bytesToHex]

/-- The digits of a byte. -/
theorem toList_hexByte_eq (b : UInt8) :
    (hexByte b).toList = [Nat.digitChar (b.toNat / 16), Nat.digitChar (b.toNat % 16)] := by
  rw [hexByte, String.toList_ofList]

theorem length_bytesToHex (bs : Bytes) : (bytesToHex bs).toList.length = 2 * bs.length := by
  induction bs with
  | nil => rw [toList_bytesToHex_nil, List.length_nil, List.length_nil]
  | cons b bs ih =>
    rw [toList_bytesToHex_cons, List.length_append, ih, toList_hexByte_eq, List.length_cons,
      List.length_cons, List.length_nil, List.length_cons]
    omega

/-- A value below 16 is written as a digit that is in lower case already. -/
theorem digitChar_spec {n : ℕ} (h : n < 16) :
    Nat.digitChar n ∈ hexDigits ∧ (Nat.digitChar n).toLower = Nat.digitChar n ∧
      UInt8.ofNat (Nat.digitChar n).toNat = hexDigit n := by
  interval_cases n <;> decide

/-- The text of a key file is the encoder's. -/
theorem utf8_bytesToHex (bs : Bytes) : utf8 (bytesToHex bs) = hexEncode bs := by
  rw [utf8_eq_encode]
  induction bs with
  | nil =>
    rw [toList_bytesToHex_nil]
    rfl
  | cons b bs ih =>
    have hb := b.toNat_lt
    obtain ⟨hhi, -, hhi'⟩ := digitChar_spec (show b.toNat / 16 < 16 by omega)
    obtain ⟨hlo, -, hlo'⟩ := digitChar_spec (show b.toNat % 16 < 16 by omega)
    rw [toList_bytesToHex_cons, encode_append, ih, toList_hexByte_eq, encode_cons, encode_cons,
      (utf8EncodeChar_of_size_one (utf8Size_of_mem hhi)).2,
      (utf8EncodeChar_of_size_one (utf8Size_of_mem hlo)).2, hhi', hlo']
    rfl

theorem bytesToHex_injective : Function.Injective bytesToHex := by
  intro as bs h
  apply hexEncode_injective
  rw [← utf8_bytesToHex, h, utf8_bytesToHex]

/-- What the encoder writes is pairs of digits, in lower case. -/
theorem hexPairs_bytesToHex (bs : Bytes) :
    HexPairs (bytesToHex bs).toList ∧ '+' ∉ (bytesToHex bs).toList ∧
      (bytesToHex bs).toList.map normalize = (bytesToHex bs).toList := by
  induction bs with
  | nil =>
    rw [toList_bytesToHex_nil]
    exact ⟨trivial, List.not_mem_nil, rfl⟩
  | cons b bs ih =>
    have hb := b.toNat_lt
    obtain ⟨hhi, hhi', -⟩ := digitChar_spec (show b.toNat / 16 < 16 by omega)
    obtain ⟨hlo, hlo', -⟩ := digitChar_spec (show b.toNat % 16 < 16 by omega)
    obtain ⟨hpairs, hplus, hnorm⟩ := ih
    rw [toList_bytesToHex_cons, toList_hexByte_eq]
    refine ⟨⟨⟨.inl hhi, hlo⟩, hpairs⟩, ?_, ?_⟩
    · simp only [List.cons_append, List.nil_append, List.mem_cons, not_or]
      exact ⟨fun heq => plus_notMem (heq ▸ hhi), fun heq => plus_notMem (heq ▸ hlo), hplus⟩
    · rw [List.map_append, hnorm, List.map_cons, List.map_cons, List.map_nil,
        normalize_of_mem hhi, normalize_of_mem hlo, hhi', hlo']

/-! ## The decoder -/

/-- Characters that start with one of two bytes are not accepted, and do not end inside a character
there. -/
theorem not_hexPairs_of_two {c : Char} (cs : List Char) (h : c.utf8Size = 2) :
    ¬ HexPairs (c :: cs) ∧ ¬ Splits (c :: cs) := by
  constructor
  · intro hpairs
    cases cs with
    | nil => exact hpairs
    | cons d cs =>
      have := hpairs.1.utf8Size.1
      omega
  · intro hsplits
    cases hsplits with
    | wide hc => omega
    | across hc => omega
    | pair hpair =>
      have := hpair.utf8Size.1
      omega

/-- Characters that start with a refused pair are not accepted, and do not end inside a character
there. -/
theorem not_hexPairs_of_pair {c d : Char} (cs : List Char) (hc : c.utf8Size = 1)
    (hd : d.utf8Size = 1) (hpair : ¬ IsHexPair c d) :
    ¬ HexPairs (c :: d :: cs) ∧ ¬ Splits (c :: d :: cs) := by
  refine ⟨fun hpairs => hpair hpairs.1, fun hsplits => ?_⟩
  cases hsplits with
  | wide hc => omega
  | across _ hd => omega
  | pair hpair' => exact hpair hpair'

/-- A part that is one character of two bytes is refused. -/
theorem hexPair_of_two {s : String} {pre cs : List Char} {c : Char} (hs : s.toList = pre ++ c :: cs)
    (h : c.utf8Size = 2) : hexPair s (encode pre).length = .error (.err invalidDigit) := by
  obtain ⟨x, y, hc, hx⟩ := utf8EncodeChar_of_size_two h
  have hslice := slice_append (ε := String) pre [c] cs hs
  rw [encode_cons, encode_nil, List.append_nil, String.length_utf8EncodeChar, h, hc] at hslice
  rw [hexPair, hslice]
  simp only [bind, Except.bind, fromStrRadix_pair, leadDigit_eq_none hx]

/-- A part that is two characters is taken as their number, or refused. -/
theorem hexPair_of_one {s : String} {pre cs : List Char} {c d : Char}
    (hs : s.toList = pre ++ c :: d :: cs) (hc : c.utf8Size = 1) (hd : d.utf8Size = 1) :
    (IsHexPair c d ∧ ∃ b, hexPair s (encode pre).length = .ok b ∧
        (hexByte b).toList = [normalize c, normalize d]) ∨
      ¬ IsHexPair c d ∧ hexPair s (encode pre).length = .error (.err invalidDigit) := by
  have hslice := slice_append (ε := String) pre [c, d] cs hs
  have hlen : (encode [c, d]).length = 2 := by simp [hc, hd]
  rw [hlen] at hslice
  rw [hexPair, hslice]
  obtain ⟨hpair, b, hb, hprint⟩ | ⟨hpair, herr⟩ := fromStrRadix_encode hc hd
  · exact .inl ⟨hpair, b, by simp only [bind, Except.bind, hb], hprint⟩
  · exact .inr ⟨hpair, by simp only [bind, Except.bind, herr]⟩

/-- How the loop ends on the characters from an offset on: with bytes that print as them, with a
panic, or with an error. -/
theorem mapM_hexPair (s : String) (pre cs : List Char) (hs : s.toList = pre ++ cs) (n : ℕ)
    (hn : (encode cs).length = 2 * n) :
    (HexPairs cs ∧ ∃ bs, (List.range' (encode pre).length n 2).mapM (hexPair s) = .ok bs ∧
        (bytesToHex bs).toList = cs.map normalize) ∨
      (Splits cs ∧ (List.range' (encode pre).length n 2).mapM (hexPair s) = .error .panic) ∨
      ¬ HexPairs cs ∧ ¬ Splits cs ∧
        ∃ e, (List.range' (encode pre).length n 2).mapM (hexPair s) = .error (.err e) := by
  -- induction on the rounds; the offset is always between two characters
  induction n generalizing pre cs with
  | zero =>
    cases cs with
    | nil => exact .inl ⟨trivial, [], rfl, toList_bytesToHex_nil⟩
    | cons c cs =>
      have hpos := c.utf8Size_pos
      simp only [encode_cons, List.length_append, String.length_utf8EncodeChar] at hn
      omega
  | succ n ih =>
    rw [List.range'_succ, List.mapM_cons]
    cases cs with
    | nil => cases hn
    | cons c cs =>
      have hsize := c.utf8Size_eq
      rw [encode_cons, List.length_append, String.length_utf8EncodeChar] at hn
      by_cases hwide : 3 ≤ c.utf8Size
      · -- the first character alone is longer than the part
        right; left
        refine ⟨.wide hwide, ?_⟩
        rw [hexPair, slice_inside _ _ _ _ hs (by omega) (by omega)]
        rfl
      by_cases htwo : c.utf8Size = 2
      · -- the part is one character, which is no digit
        right; right
        obtain ⟨hpairs, hsplits⟩ := not_hexPairs_of_two cs htwo
        refine ⟨hpairs, hsplits, invalidDigit, ?_⟩
        rw [hexPair_of_two hs htwo]
        rfl
      have hone : c.utf8Size = 1 := by omega
      cases cs with
      | nil =>
        rw [encode_nil, List.length_nil] at hn
        omega
      | cons d cs =>
        by_cases hd : d.utf8Size = 1
        · obtain ⟨hpair, b, hb, hprint⟩ | ⟨hpair, herr⟩ := hexPair_of_one hs hone hd
          · -- the part is taken, and the loop goes on behind it
            rw [encode_cons, List.length_append, String.length_utf8EncodeChar, hone, hd] at hn
            have hrec := ih (pre ++ [c, d]) cs (by rw [hs]; simp) (by omega)
            have hoff : (encode (pre ++ [c, d])).length = (encode pre).length + 2 := by
              simp [hone, hd]
            rw [hoff] at hrec
            rw [hb]
            obtain ⟨hpairs, bs, hbs, hprint'⟩ | ⟨hsplits, hbs⟩ | ⟨hpairs, hsplits, e, hbs⟩ := hrec
            · refine .inl ⟨⟨hpair, hpairs⟩, b :: bs, by rw [hbs]; rfl, ?_⟩
              rw [toList_bytesToHex_cons, hprint, hprint']
              rfl
            · exact .inr (.inl ⟨.pair hpair hsplits, by rw [hbs]; rfl⟩)
            · refine .inr (.inr ⟨fun h => hpairs h.2, ?_, e, by rw [hbs]; rfl⟩)
              intro h
              cases h with
              | wide hc => omega
              | across _ hd' => omega
              | pair _ h => exact hsplits h
          · right; right
            obtain ⟨hpairs, hsplits⟩ := not_hexPairs_of_pair cs hone hd hpair
            refine ⟨hpairs, hsplits, invalidDigit, ?_⟩
            rw [herr]
            rfl
        · -- the part ends inside the second character
          right; left
          have hdpos := d.utf8Size_pos
          refine ⟨.across hone (by omega), ?_⟩
          have hinside := slice_inside (ε := String) (pre ++ [c]) d cs
            (encode pre).length (by rw [hs]; simp) Nat.one_pos (by omega)
          rw [encode_append, List.length_append, encode_cons, encode_nil, List.append_nil,
            String.length_utf8EncodeChar, hone] at hinside
          rw [hexPair, hinside]
          rfl

/-- How the decoder ends: with bytes that print as the text, with a panic, or with an error. -/
theorem hexToBytes_cases (s : String) :
    (∃ bs, hexToBytes s = .ok bs ∧ Denotes s bs) ∨
      (CutsCharacter s ∧ hexToBytes s = .error .panic) ∨
      ¬ HexPairs s.toList ∧ ¬ CutsCharacter s ∧ ∃ e, hexToBytes s = .error (.err e) := by
  unfold hexToBytes CutsCharacter
  rw [utf8_eq_encode]
  by_cases hodd : (encode s.toList).length % 2 = 0
  · rw [if_neg (not_not.mpr hodd)]
    obtain ⟨hpairs, bs, hbs, hprint⟩ | ⟨hsplits, hbs⟩ | ⟨hpairs, hsplits, e, hbs⟩ :=
      mapM_hexPair s [] s.toList rfl ((encode s.toList).length / 2) (by omega)
    · exact .inl ⟨bs, hbs, hpairs, hprint⟩
    · exact .inr (.inl ⟨⟨hodd, hsplits⟩, hbs⟩)
    · exact .inr (.inr ⟨hpairs, fun h => hsplits h.2, e, hbs⟩)
  · rw [if_pos hodd]
    exact .inr (.inr ⟨fun h => hodd h.length_encode, fun h => hodd h.1, _, rfl⟩)

/-- The decoder accepts exactly pairs of digits with signs among the first digits, and its result
prints as the text, with zeros for the signs and in lower case. -/
theorem hexToBytes_eq_ok_iff {s : String} {bs : Bytes} :
    hexToBytes s = .ok bs ↔ Denotes s bs := by
  obtain ⟨bs', hbs, hdenotes⟩ | ⟨hcuts, hbs⟩ | ⟨hpairs, -, e, hbs⟩ := hexToBytes_cases s
  · rw [hbs, Except.ok.injEq]
    constructor
    · rintro rfl
      exact hdenotes
    · rintro ⟨-, h⟩
      exact bytesToHex_injective (String.toList_inj.mp (hdenotes.2.trans h.symm))
  · rw [hbs]
    exact ⟨nofun, fun h => absurd hcuts.2 h.1.not_splits⟩
  · rw [hbs]
    exact ⟨nofun, fun h => absurd h.1 hpairs⟩

/-- The decoder panics exactly on texts of even length in which, after pairs that are accepted, two
bytes end inside a character. -/
theorem hexToBytes_eq_panic_iff {s : String} : hexToBytes s = .error .panic ↔ CutsCharacter s := by
  obtain ⟨bs, hbs, hdenotes⟩ | ⟨hcuts, hbs⟩ | ⟨-, hcuts, e, hbs⟩ := hexToBytes_cases s
  · rw [hbs]
    exact ⟨nofun, fun h => absurd h.2 hdenotes.1.not_splits⟩
  · rw [hbs]
    exact ⟨fun _ => hcuts, fun _ => rfl⟩
  · rw [hbs]
    exact ⟨nofun, fun h => absurd h hcuts⟩

/-- Pairs that are taken as numbers are accepted. -/
theorem HexPairs.exists_ok {s : String} (h : HexPairs s.toList) : ∃ bs, hexToBytes s = .ok bs := by
  obtain ⟨bs, hbs, -⟩ | ⟨hcuts, -⟩ | ⟨hpairs, -⟩ := hexToBytes_cases s
  · exact ⟨bs, hbs⟩
  · exact absurd hcuts.2 h.not_splits
  · exact absurd h hpairs

/-- Pairs without a sign are digits. -/
theorem HexPairs.digits {cs : List Char} (h : HexPairs cs) (hplus : '+' ∉ cs) :
    ∀ c ∈ cs, c ∈ hexDigits := by
  induction cs using HexPairs.induct with
  | case1 => nofun
  | case2 c => exact h.elim
  | case3 c d cs ih =>
    simp only [List.mem_cons, not_or] at hplus
    simp only [List.mem_cons, forall_eq_or_imp]
    exact ⟨h.1.1.resolve_right fun heq => hplus.1 heq.symm, h.1.2, ih h.2 hplus.2.2⟩

/-- An even number of digits are pairs. -/
theorem hexPairs_of_digits {cs : List Char} (hlen : cs.length % 2 = 0)
    (h : ∀ c ∈ cs, c ∈ hexDigits) : HexPairs cs := by
  induction cs using HexPairs.induct with
  | case1 => trivial
  | case2 c => cases hlen
  | case3 c d cs ih =>
    simp only [List.mem_cons, forall_eq_or_imp] at h
    rw [List.length_cons, List.length_cons] at hlen
    exact ⟨⟨.inl h.1, h.2.1⟩, ih (by omega) h.2.2⟩

/-- The decoder undoes the encoder. -/
theorem hexToBytes_bytesToHex (bs : Bytes) : hexToBytes (bytesToHex bs) = .ok bs := by
  obtain ⟨hpairs, -, hnorm⟩ := hexPairs_bytesToHex bs
  exact hexToBytes_eq_ok_iff.mpr ⟨hpairs, hnorm.symm⟩

/-- The decoder is the inverse of the encoder, and on a text it does what a hexadecimal decoder is
to do, accept exactly an even number of digits, and give bytes that are written as that text in
lower case, if and only if the text is not one of pairs with a sign in front of a digit. -/
theorem hex_exact_iff (bs : Bytes) (s : String) :
    hexToBytes (bytesToHex bs) = .ok bs ∧
      ((((∃ bs, hexToBytes s = .ok bs) ↔ s.length % 2 = 0 ∧ ∀ c ∈ s.toList, c ∈ hexDigits) ∧
          ∀ bs, hexToBytes s = .ok bs → (bytesToHex bs).toList = s.toList.map Char.toLower) ↔
        ¬ (HexPairs s.toList ∧ '+' ∈ s.toList)) := by
  refine ⟨hexToBytes_bytesToHex bs, ?_⟩
  constructor
  · rintro ⟨haccepts, -⟩ ⟨hpairs, hplus⟩
    -- a pair with a sign is accepted
    exact plus_notMem ((haccepts.mp hpairs.exists_ok).2 _ hplus)
  · intro hsign
    refine ⟨⟨?_, ?_⟩, ?_⟩
    · rintro ⟨bs, hbs⟩
      obtain ⟨hpairs, -⟩ := hexToBytes_eq_ok_iff.mp hbs
      rw [← String.length_toList]
      exact ⟨hpairs.utf8Size.1, hpairs.digits fun hplus => hsign ⟨hpairs, hplus⟩⟩
    · rintro ⟨hlen, hdigits⟩
      rw [← String.length_toList] at hlen
      exact (hexPairs_of_digits hlen hdigits).exists_ok
    · intro bs hbs
      obtain ⟨hpairs, hprint⟩ := hexToBytes_eq_ok_iff.mp hbs
      have hdigits := hpairs.digits fun hplus => hsign ⟨hpairs, hplus⟩
      rw [hprint]
      exact List.map_congr_left fun c hc => normalize_of_mem (hdigits c hc)

/-- A sign in front of a digit is taken for a number. -/
theorem plus_accepted :
    hexToBytes "+f" = .ok [15] ∧
      ¬ ((∃ bs, hexToBytes "+f" = .ok bs) ↔
        "+f".length % 2 = 0 ∧ ∀ c ∈ "+f".toList, c ∈ hexDigits) := by
  have hok : hexToBytes "+f" = .ok [15] := by decide
  exact ⟨hok, fun h => plus_notMem ((h.mp ⟨_, hok⟩).2 '+' (by decide))⟩

end Cry.Crydna
