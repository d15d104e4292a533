import Cry.Rust.Stream

/-!
# Text by byte offsets

A text is sliced by offsets into its UTF-8 bytes. A slice whose end lies inside a character, or
beyond the text, is a panic. Numbers are parsed from the bytes of a text.

* `slice`, `isCharBoundary`: slices;
* `fromStrRadix`: `u8::from_str_radix`;
* `Failure`: how a call fails that returns errors and may panic.

## Main results

* `slice_append`: a slice from character to character is the bytes of the characters;
* `slice_inside`: a slice that ends inside a character panics.
-/

namespace Rust

/-- How a call fails: it returns an error, or it panics. -/
inductive Failure (ε : Type)
  | err (e : ε)
  | panic
  deriving DecidableEq, Repr

namespace Str

/-! ## Characters as bytes -/

/-- The UTF-8 bytes of characters. -/
def encode (cs : List Char) : Bytes := cs.flatMap String.utf8EncodeChar

theorem utf8_eq_encode (s : String) : utf8 s = encode s.toList := by
  conv_lhs => rw [← String.ofList_toList (s := s)]
  rw [utf8, String.toUTF8_eq_toByteArray, String.toByteArray_ofList, List.utf8Encode]
  exact List.toList_data_toByteArray

@[simp] theorem encode_nil : encode [] = [] := rfl

@[simp] theorem encode_cons (c : Char) (cs : List Char) :
    encode (c :: cs) = String.utf8EncodeChar c ++ encode cs := rfl

@[simp] theorem encode_append (cs ds : List Char) : encode (cs ++ ds) = encode cs ++ encode ds :=
  List.flatMap_append

/-- A byte that continues a character. -/
def isContinuation (b : UInt8) : Bool := 0x80 ≤ b.toNat && b.toNat < 0xC0

theorem isContinuation_ofNat {n : ℕ} (h : n < 0x100) :
    isContinuation (UInt8.ofNat n) = decide (0x80 ≤ n ∧ n < 0xC0) := by
  rw [isContinuation, UInt8.toNat_ofNat', Nat.mod_eq_of_lt h, Bool.decide_and]

/-- The low six bits of a code point go into a byte that continues a character. -/
theorem isContinuation_mod (n : ℕ) : isContinuation (UInt8.ofNat (n % 0x40 + 0x80)) = true := by
  rw [isContinuation_ofNat (by omega), decide_eq_true_iff]
  omega

/-- A character is encoded as its code point, or as a byte from `0xC0` on and bytes that continue
the character. -/
theorem utf8EncodeChar_eq (c : Char) :
    (c.toNat < 0x80 ∧ String.utf8EncodeChar c = [UInt8.ofNat c.toNat]) ∨
      ∃ b bs, String.utf8EncodeChar c = b :: bs ∧ 0xC0 ≤ b.toNat ∧ bs ≠ [] ∧
        ∀ x ∈ bs, isContinuation x = true := by
  have hlead : ∀ m n, m < 0x40 → 0xC0 ≤ n → n + m < 0x100 → 0xC0 ≤ (UInt8.ofNat (m + n)).toNat := by
    intro m n hm hn hlt
    rw [UInt8.toNat_ofNat']
    omega
  fun_cases String.utf8EncodeChar c with
  | case1 v h => exact .inl ⟨Nat.lt_succ_of_le h, rfl⟩
  | case2 v =>
    refine .inr ⟨_, _, rfl, hlead _ _ (by omega) (by omega) (by omega), nofun, ?_⟩
    simp only [List.mem_cons, List.not_mem_nil, or_false, forall_eq, isContinuation_mod]
  | case3 v =>
    refine .inr ⟨_, _, rfl, hlead _ _ (by omega) (by omega) (by omega), nofun, ?_⟩
    simp only [List.mem_cons, List.not_mem_nil, or_false, forall_eq_or_imp, forall_eq,
      isContinuation_mod, and_self]
  | case4 v =>
    refine .inr ⟨_, _, rfl, hlead _ _ (by omega) (by omega) (by omega), nofun, ?_⟩
    simp only [List.mem_cons, List.not_mem_nil, or_false, forall_eq_or_imp, forall_eq,
      isContinuation_mod, and_self]

/-- A character is encoded as a byte that starts one, and bytes that continue it. -/
theorem utf8EncodeChar_eq_cons (c : Char) :
    ∃ b bs, String.utf8EncodeChar c = b :: bs ∧ isContinuation b = false ∧
      ∀ x ∈ bs, isContinuation x = true := by
  obtain ⟨hlt, hc⟩ | ⟨b, bs, hc, hb, -, hbs⟩ := utf8EncodeChar_eq c
  · refine ⟨_, _, hc, ?_, nofun⟩
    rw [isContinuation_ofNat (by omega), decide_eq_false_iff_not]
    omega
  · refine ⟨_, _, hc, ?_, hbs⟩
    rw [isContinuation, Bool.and_eq_false_iff, decide_eq_false_iff_not, decide_eq_false_iff_not]
    omega

/-- A character of one byte is encoded as its code point. -/
theorem utf8EncodeChar_of_size_one {c : Char} (h : c.utf8Size = 1) :
    c.toNat < 0x80 ∧ String.utf8EncodeChar c = [UInt8.ofNat c.toNat] := by
  obtain hone | ⟨b, bs, hc, -, hne, -⟩ := utf8EncodeChar_eq c
  · exact hone
  · have hlen := String.length_utf8EncodeChar c
    have hpos := List.length_pos_iff.mpr hne
    rw [hc, h, List.length_cons] at hlen
    omega

/-- A character of two bytes is encoded as two bytes beyond ASCII. -/
theorem utf8EncodeChar_of_size_two {c : Char} (h : c.utf8Size = 2) :
    ∃ x y, String.utf8EncodeChar c = [x, y] ∧ 0x80 ≤ x.toNat := by
  have hlen := String.length_utf8EncodeChar c
  obtain ⟨-, hc⟩ | ⟨b, bs, hc, hb, -, -⟩ := utf8EncodeChar_eq c
  · rw [hc, h] at hlen
    cases hlen
  · rw [hc, h, List.length_cons] at hlen
    obtain ⟨y, rfl⟩ := List.length_eq_one_iff.mp (show bs.length = 1 by omega)
    exact ⟨b, y, hc, by omega⟩

/-! ## Slices -/

/-- `str::is_char_boundary`. -/
def isCharBoundary (s : Bytes) (i : ℕ) : Bool :=
  i == 0 || if h : i < s.length then !isContinuation s[i] else i == s.length

/-- The bytes of `&s[i..j]`, or a panic. -/
def slice {ε : Type} (s : String) (i j : ℕ) : Except (Failure ε) Bytes :=
  if i ≤ j ∧ isCharBoundary (utf8 s) i ∧ isCharBoundary (utf8 s) j then
    .ok (((utf8 s).drop i).take (j - i))
  else .error .panic

/-- Between two characters is a boundary. -/
theorem isCharBoundary_append (pre post : List Char) :
    isCharBoundary (encode pre ++ encode post) (encode pre).length = true := by
  rw [isCharBoundary, Bool.or_eq_true]
  right
  cases post with
  | nil => simp
  | cons c post =>
    obtain ⟨b, bs, hc, hb, -⟩ := utf8EncodeChar_eq_cons c
    simp [hc, hb]

/-- Inside a character is no boundary. -/
theorem isCharBoundary_inside (pre : List Char) (c : Char) (post : List Char) {k : ℕ}
    (hpos : 0 < k) (hk : k < c.utf8Size) :
    isCharBoundary (encode pre ++ encode (c :: post)) ((encode pre).length + k) = false := by
  obtain ⟨b, bs, hc, -, hbs⟩ := utf8EncodeChar_eq_cons c
  obtain ⟨j, rfl⟩ : ∃ j, k = j + 1 := ⟨k - 1, by omega⟩
  have hlen := String.length_utf8EncodeChar c
  rw [hc, List.length_cons] at hlen
  have hj : j < bs.length := by omega
  rw [isCharBoundary, Bool.or_eq_false_iff]
  refine ⟨by simp, ?_⟩
  rw [dif_pos (by simp [hc]; omega), Bool.not_eq_false']
  -- the byte at the offset is one that continues the character
  have hget : ∀ _h : (encode pre).length + (j + 1) < (encode pre ++ encode (c :: post)).length,
      (encode pre ++ encode (c :: post))[(encode pre).length + (j + 1)] = bs[j] := by
    intro h
    rw [List.getElem_append_right (by omega)]
    simp [hc, List.getElem_append_left, hj]
  rw [hget]
  exact hbs _ (List.getElem_mem hj)

variable {ε : Type}

/-- A slice from character to character is the bytes of the characters between. -/
theorem slice_append {s : String} (pre mid post : List Char)
    (hs : s.toList = pre ++ (mid ++ post)) :
    (slice s (encode pre).length ((encode pre).length + (encode mid).length) :
      Except (Failure ε) Bytes) = .ok (encode mid) := by
  have hutf : utf8 s = encode pre ++ (encode mid ++ encode post) := by
    rw [utf8_eq_encode, hs, encode_append, encode_append]
  have hstart := isCharBoundary_append pre (mid ++ post)
  have hend := isCharBoundary_append (pre ++ mid) post
  rw [encode_append] at hstart
  rw [encode_append, List.append_assoc, List.length_append] at hend
  rw [slice, hutf, if_pos ⟨by omega, hstart, hend⟩, List.drop_left, Nat.add_sub_cancel_left,
    List.take_left]

/-- A slice that ends inside a character panics. -/
theorem slice_inside {s : String} (pre : List Char) (c : Char) (post : List Char) {k : ℕ} (i : ℕ)
    (hs : s.toList = pre ++ c :: post) (hpos : 0 < k) (hk : k < c.utf8Size) :
    (slice s i ((encode pre).length + k) : Except (Failure ε) Bytes) = .error .panic := by
  have hutf : utf8 s = encode pre ++ encode (c :: post) := by
    rw [utf8_eq_encode, hs, encode_append]
  rw [slice, hutf, if_neg]
  rintro ⟨-, -, hend⟩
  rw [isCharBoundary_inside pre c post hpos hk] at hend
  cases hend

/-- Characters of one byte are as many bytes. -/
theorem length_encode_of_size_one {cs : List Char} (h : ∀ c ∈ cs, c.utf8Size = 1) :
    (encode cs).length = cs.length := by
  induction cs with
  | nil => rfl
  | cons c cs ih =>
    rw [List.forall_mem_cons] at h
    rw [encode_cons, List.length_append, String.length_utf8EncodeChar, h.1, ih h.2,
      List.length_cons, Nat.add_comm]

/-- A text of characters of one byte is sliced at any offset. -/
theorem exists_slice_of_size_one {s : String} (h : ∀ c ∈ s.toList, c.utf8Size = 1) {i j : ℕ}
    (hij : i ≤ j) (hj : j ≤ s.toList.length) :
    ∃ part, (slice s i j : Except (Failure ε) Bytes) = .ok part := by
  -- the offsets count characters
  have hpre : (encode (s.toList.take i)).length = i := by
    rw [length_encode_of_size_one fun c hc => h c (List.mem_of_mem_take hc), List.length_take]
    omega
  have hmid : (encode ((s.toList.drop i).take (j - i))).length = j - i := by
    rw [length_encode_of_size_one fun c hc => h c (List.mem_of_mem_drop (List.mem_of_mem_take hc)),
      List.length_take, List.length_drop]
    omega
  have hsplit : s.toList = s.toList.take i ++
      ((s.toList.drop i).take (j - i) ++ (s.toList.drop i).drop (j - i)) := by
    rw [List.take_append_drop, List.take_append_drop]
  have hslice := slice_append (ε := ε) _ _ _ hsplit
  rw [hpre, hmid, Nat.add_sub_cancel' hij] at hslice
  exact ⟨_, hslice⟩

/-! ## Numbers -/

/-- `char::to_digit` of a byte. -/
def toDigit (radix : ℕ) (b : UInt8) : Option ℕ :=
  let n := b.toNat
  if 48 ≤ n ∧ n ≤ 57 ∧ n - 48 < radix then some (n - 48)
  else if 97 ≤ n ∧ n ≤ 122 ∧ n - 87 < radix then some (n - 87)
  else if 65 ≤ n ∧ n ≤ 90 ∧ n - 55 < radix then some (n - 55)
  else none

/-- The text of the error for a character that is no digit. -/
def invalidDigit : String := "invalid digit found in string"

/-- The digits of a number up to 255, after those that make up `acc`. -/
def parseDigits (radix : ℕ) : (acc : ℕ) → Bytes → Except String ℕ
  | acc, [] => .ok acc
  | acc, b :: bs =>
    match toDigit radix b with
    | none => .error invalidDigit
    | some d =>
      if 255 < acc * radix + d then .error "number too large to fit in target type"
      else parseDigits radix (acc * radix + d) bs

/-- `u8::from_str_radix`, with the text of its error. A leading plus sign is accepted. -/
def fromStrRadix (radix : ℕ) : Bytes → Except String UInt8
  | [] => .error "cannot parse integer from empty string"
  | b :: bs =>
    if bs = [] ∧ (b = 43 ∨ b = 45) then .error invalidDigit
    else (parseDigits radix 0 (if b = 43 then bs else b :: bs)).map UInt8.ofNat

theorem toDigit_lt {radix : ℕ} {b : UInt8} {d : ℕ} (h : toDigit radix b = some d) : d < radix := by
  unfold toDigit at h
  dsimp only at h
  split at h
  · obtain rfl := Option.some.inj h
    omega
  · split at h
    · obtain rfl := Option.some.inj h
      omega
    · split at h
      · obtain rfl := Option.some.inj h
        omega
      · cases h

/-- A byte beyond ASCII is no digit. -/
theorem toDigit_eq_none {radix : ℕ} {b : UInt8} (h : 128 ≤ b.toNat) : toDigit radix b = none := by
  unfold toDigit
  dsimp only
  rw [if_neg (by omega), if_neg (by omega), if_neg (by omega)]

/-- The value of the first character of a pair: a sign counts nothing. -/
def leadDigit (b : UInt8) : Option ℕ := if b = 43 then some 0 else toDigit 16 b

theorem leadDigit_lt {b : UInt8} {d : ℕ} (h : leadDigit b = some d) : d < 16 := by
  unfold leadDigit at h
  split at h
  · obtain rfl := Option.some.inj h
    omega
  · exact toDigit_lt h

/-- A byte beyond ASCII is neither a sign nor a digit. -/
theorem leadDigit_eq_none {b : UInt8} (h : 0x80 ≤ b.toNat) : leadDigit b = none := by
  rw [leadDigit, if_neg, toDigit_eq_none h]
  rintro rfl
  exact absurd h (by decide)

/-- Two bytes are a hexadecimal number when they are two digits, or a sign and a digit. -/
theorem fromStrRadix_pair (x y : UInt8) :
    fromStrRadix 16 [x, y] =
      match leadDigit x, toDigit 16 y with
      | some m, some n => .ok (UInt8.ofNat (m * 16 + n))
      | _, _ => .error invalidDigit := by
  rw [fromStrRadix, if_neg (by simp), leadDigit]
  by_cases hx : x = 43
  · rw [if_pos hx, if_pos hx, parseDigits]
    cases hy : toDigit 16 y with
    | none => rfl
    | some n =>
      have hn := toDigit_lt hy
      simp only [Nat.zero_mul, Nat.zero_add]
      rw [if_neg (by omega)]
      rfl
  · rw [if_neg hx, if_neg hx, parseDigits]
    cases hm : toDigit 16 x with
    | none => rfl
    | some m =>
      have hm := toDigit_lt hm
      simp only [Nat.zero_mul, Nat.zero_add]
      rw [if_neg (by omega), parseDigits]
      cases hy : toDigit 16 y with
      | none => rfl
      | some n =>
        have hn := toDigit_lt hy
        simp only
        rw [if_neg (by omega)]
        rfl

end Str

end Rust
