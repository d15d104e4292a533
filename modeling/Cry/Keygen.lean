import Cry.Crydna

/-!
# Deterministic AES keys

The AES-256-GCM arm of `derive` formats the context into one text and hashes it into the Argon2
salt. The markers `"|ver="` and `"|sub="` may occur inside the namespace and the sub-identity, and
an absent sub-identity is formatted like an empty one, so one text can stand for two contexts.

## Main results

* `saltInput_eq_iff`: two contexts are formatted to one text exactly when they differ at most in
  an absent against an empty sub-identity, or one is a re-reading of the other;
* `key_separation_iff`: two contexts are separated, as texts and as keys, exactly when neither of
  the two is the case.
-/

namespace Cry

open Rust

namespace Keygen

variable (P : Primitives)

/-- The sub-identity as it is formatted: an absent one is the empty string. -/
def subIdPart (subId : Option String) : String := subId.getD ""

/-- The text hashed into the salt. -/
def saltInput (ns : String) (keyVersion : UInt32) (subId : Option String) : String :=
  "cry:derive:aes256gcm|ns=" ++ ns ++ "|ver=" ++ toString keyVersion.toNat ++ "|sub=" ++
    subIdPart subId

/-- The salt of a context: the whole hash of the text. -/
def salt (ns : String) (keyVersion : UInt32) (subId : Option String) : U8Array 32 :=
  P.sha256 (utf8 (saltInput ns keyVersion subId))

/-- The key of the AES-256-GCM arm of `derive`, with the Argon2id parameters of `derive_key`. -/
def deriveAesKey (passphrase : Bytes) (ns : String) (keyVersion : UInt32)
    (subId : Option String) : Except Stop (U8Array 32) :=
  deriveKey P passphrase (salt P ns keyVersion subId).val

/-! ## Re-readings -/

/-- The contexts differ exactly in an absent against an empty sub-identity. -/
def DiffersInEmptySub (c c' : Context) : Prop :=
  c.ns = c'.ns ∧ c.version = c'.version ∧
    ((c.subId = none ∧ c'.subId = some "") ∨ (c.subId = some "" ∧ c'.subId = none))

/-- The sub-identity of `c` holds, after some `u`, what `c'` has from its version on, and the
namespace of `c'` holds what `c` has up to there. -/
def Rereads (c c' : Context) : Prop :=
  ∃ u, c'.ns = c.ns ++ "|ver=" ++ toString c.version.toNat ++ "|sub=" ++ u ∧
    subIdPart c.subId =
      u ++ "|ver=" ++ toString c'.version.toNat ++ "|sub=" ++ subIdPart c'.subId

/-- The decimal digits of a version determine it. -/
theorem digits_injective {v v' : UInt32}
    (h : Nat.toDigits 10 v.toNat = Nat.toDigits 10 v'.toNat) : v = v' := by
  apply UInt32.toNat_inj.mp
  rw [← Nat.ofDigitChars_toDigits (b := 10) (n := v.toNat) (by omega) (by omega), h,
    Nat.ofDigitChars_toDigits (by omega) (by omega)]

/-- No decimal digit is a separator. -/
theorem bar_notMem_digits (n : ℕ) : '|' ∉ Nat.toDigits 10 n := by
  intro h
  have := Nat.isDigit_of_mem_toDigits (by omega) (by omega) h
  simp at this

/-- The part of the formatted text after the namespace, as characters. -/
def tail (keyVersion : UInt32) (subId : Option String) : List Char :=
  "|ver=".toList ++ (Nat.toDigits 10 keyVersion.toNat ++ ("|sub=".toList ++
    (subIdPart subId).toList))

private theorem toList_toString (n : ℕ) : (toString n).toList = Nat.toDigits 10 n := by
  rw [Nat.toString_eq_repr, Nat.toList_repr]

theorem toList_saltInput (ns : String) (keyVersion : UInt32) (subId : Option String) :
    (saltInput ns keyVersion subId).toList =
      "cry:derive:aes256gcm|ns=".toList ++ (ns.toList ++ tail keyVersion subId) := by
  unfold saltInput tail
  simp only [String.toList_append, toList_toString, List.append_assoc]

/-- Two contexts are read from one text. -/
theorem saltInput_eq_iff_tail {c c' : Context} :
    saltInput c.ns c.version c.subId = saltInput c'.ns c'.version c'.subId ↔
      c.ns.toList ++ tail c.version c.subId = c'.ns.toList ++ tail c'.version c'.subId := by
  rw [← String.toList_inj, toList_saltInput, toList_saltInput, List.append_cancel_left_eq]

/-- A separator-free part followed by a separator is determined by the whole. -/
theorem append_bar_inj {d d' s s' : List Char} (hd : '|' ∉ d) (hd' : '|' ∉ d')
    (h : d ++ '|' :: s = d' ++ '|' :: s') : d = d' ∧ s = s' := by
  -- induction on the first part, up to its separator
  induction d generalizing d' with
  | nil =>
    cases d' with
    | nil => exact ⟨rfl, (List.cons.inj h).2⟩
    | cons c d' =>
      obtain ⟨rfl, -⟩ := List.cons.inj h
      simp at hd'
  | cons c d ih =>
    cases d' with
    | nil =>
      obtain ⟨rfl, -⟩ := List.cons.inj h
      simp at hd
    | cons c' d' =>
      obtain ⟨rfl, hrest⟩ := List.cons.inj h
      obtain ⟨rfl, rfl⟩ := ih (fun hm => hd (List.mem_cons_of_mem _ hm))
        (fun hm => hd' (List.mem_cons_of_mem _ hm)) hrest
      exact ⟨rfl, rfl⟩

/-- A separator after a separator-free part lies behind it: at its own separator, or after the
text that follows. -/
theorem bar_after {d s x s' : List Char} (hd : '|' ∉ d) (h : d ++ s = x ++ '|' :: s') :
    ∃ y, x = d ++ y ∧ s = y ++ '|' :: s' := by
  obtain ⟨y, hx, hs⟩ | ⟨y, hd', hs⟩ := List.append_eq_append_iff.mp h
  · exact ⟨y, hx, hs⟩
  · cases y with
    | nil => exact ⟨[], by simpa using hd'.symm, by simpa using hs.symm⟩
    | cons b y =>
      obtain ⟨rfl, -⟩ := List.cons.inj hs
      rw [hd'] at hd
      simp at hd

/-- Where the tail of one context continues, after `x`, as the tail of another: inside the
sub-identity. -/
theorem tail_eq_append {v v' : UInt32} {sub sub' : Option String} {x : List Char} (hx : x ≠ [])
    (h : tail v sub = x ++ tail v' sub') :
    ∃ u, x = "|ver=".toList ++ (Nat.toDigits 10 v.toNat ++ ("|sub=".toList ++ u)) ∧
      (subIdPart sub).toList = u ++ tail v' sub' := by
  obtain ⟨r, hr⟩ : ∃ r, tail v' sub' = '|' :: 'v' :: r := ⟨_, rfl⟩
  rw [hr] at h ⊢
  have hver : '|' ∉ "ver=".toList ++ Nat.toDigits 10 v.toNat := by
    rw [List.mem_append]
    exact not_or.mpr ⟨by decide, bar_notMem_digits _⟩
  obtain ⟨b, x, rfl⟩ := List.exists_cons_of_ne_nil hx
  have htail : tail v sub = '|' :: (("ver=".toList ++ Nat.toDigits 10 v.toNat) ++
      '|' :: ("sub=".toList ++ (subIdPart sub).toList)) := by
    rw [List.append_assoc]
    rfl
  rw [htail, List.cons_append] at h
  obtain ⟨rfl, hrest⟩ := List.cons.inj h
  obtain ⟨y, rfl, hy⟩ := bar_after hver hrest
  cases y with
  | nil =>
    -- the version marker would have to match the sub-identity marker
    obtain ⟨-, hs⟩ := List.cons.inj hy
    exact absurd (List.cons.inj hs).1 (by decide)
  | cons b y =>
    obtain ⟨rfl, hsub⟩ := List.cons.inj hy
    obtain ⟨u, rfl, hu⟩ := bar_after (by decide) hsub
    refine ⟨u, ?_, hu⟩
    rw [List.append_assoc]
    rfl

/-- The formatted sub-identity determines it up to an absent against an empty one. -/
theorem subIdPart_eq_iff {sub sub' : Option String} :
    subIdPart sub = subIdPart sub' ↔
      sub = sub' ∨ (sub = none ∧ sub' = some "") ∨ (sub = some "" ∧ sub' = none) := by
  cases sub with
  | none =>
    cases sub' with
    | none => simp
    | some s' => simp [subIdPart, eq_comm]
  | some s =>
    cases sub' with
    | none => simp [subIdPart]
    | some s' => simp [subIdPart]

/-- When the namespace of one context starts with that of another and they give one text, they
differ at most in an absent against an empty sub-identity, or the longer one re-reads the
shorter. -/
theorem eq_or_rereads_of_append {c c' : Context} {x : List Char}
    (hns : c'.ns.toList = c.ns.toList ++ x)
    (h : tail c.version c.subId = x ++ tail c'.version c'.subId) :
    c = c' ∨ DiffersInEmptySub c c' ∨ Rereads c c' := by
  rcases eq_or_ne x [] with rfl | hx
  · rw [List.append_nil] at hns
    rw [List.nil_append] at h
    obtain ⟨hdigits, hsub⟩ := append_bar_inj (bar_notMem_digits _) (bar_notMem_digits _)
      (List.append_cancel_left h)
    -- the version ends at its separator, and the rest is the sub-identity
    have hv := digits_injective hdigits
    have hns' := String.toList_inj.mp hns
    obtain heq | hdiff := subIdPart_eq_iff.mp (String.toList_inj.mp (List.append_cancel_left hsub))
    · obtain ⟨ns, version, subId⟩ := c
      obtain ⟨ns', version', subId'⟩ := c'
      rw [Context.mk.injEq]
      exact .inl ⟨hns'.symm, hv, heq⟩
    · exact .inr (.inl ⟨hns'.symm, hv, hdiff⟩)
  · obtain ⟨u, rfl, hu⟩ := tail_eq_append hx h
    refine .inr (.inr ⟨String.ofList u, ?_, ?_⟩)
    · rw [← String.toList_inj, hns]
      simp only [String.toList_append, toList_toString, String.toList_ofList, List.append_assoc]
    · rw [← String.toList_inj, hu]
      unfold tail
      simp only [String.toList_append, toList_toString, String.toList_ofList, List.append_assoc]

/-- A re-reading gives the same text. -/
theorem Rereads.saltInput_eq {c c' : Context} (h : Rereads c c') :
    saltInput c.ns c.version c.subId = saltInput c'.ns c'.version c'.subId := by
  obtain ⟨u, hns, hsub⟩ := h
  rw [saltInput_eq_iff_tail]
  unfold tail
  rw [hns, hsub]
  simp only [String.toList_append, toList_toString, List.append_assoc]

/-- A re-reading has a longer namespace. -/
theorem Rereads.length_lt {c c' : Context} (h : Rereads c c') :
    c.ns.toList.length < c'.ns.toList.length := by
  obtain ⟨u, hns, -⟩ := h
  have hpos : 0 < "|ver=".toList.length := by decide
  rw [hns]
  simp only [String.toList_append, List.length_append]
  omega

/-- A re-reading is of another context. -/
theorem Rereads.ne {c c' : Context} (h : Rereads c c') : c ≠ c' := by
  rintro rfl
  exact Nat.lt_irrefl _ h.length_lt

/-- An absent and an empty sub-identity give the same text. -/
theorem DiffersInEmptySub.saltInput_eq {c c' : Context} (h : DiffersInEmptySub c c') :
    saltInput c.ns c.version c.subId = saltInput c'.ns c'.version c'.subId := by
  obtain ⟨hns, hv, hsub⟩ := h
  unfold saltInput
  rw [hns, hv, subIdPart_eq_iff.mpr (.inr hsub)]

theorem DiffersInEmptySub.ne {c c' : Context} (h : DiffersInEmptySub c c') : c ≠ c' := by
  rintro rfl
  obtain ⟨-, -, ⟨hn, hs⟩ | ⟨hs, hn⟩⟩ := h
  · rw [hn] at hs
    cases hs
  · rw [hn] at hs
    cases hs

theorem DiffersInEmptySub.symm {c c' : Context} (h : DiffersInEmptySub c c') :
    DiffersInEmptySub c' c :=
  ⟨h.1.symm, h.2.1.symm, h.2.2.symm.imp And.symm And.symm⟩

/-- Two contexts are formatted to one text exactly when they differ at most in an absent against
an empty sub-identity, or one is a re-reading of the other. -/
theorem saltInput_eq_iff {c c' : Context} :
    saltInput c.ns c.version c.subId = saltInput c'.ns c'.version c'.subId ↔
      c = c' ∨ DiffersInEmptySub c c' ∨ Rereads c c' ∨ Rereads c' c := by
  constructor
  · intro h
    rw [saltInput_eq_iff_tail, List.append_eq_append_iff] at h
    obtain ⟨x, hns, htail⟩ | ⟨x, hns, htail⟩ := h
    · obtain heq | hdiff | hr := eq_or_rereads_of_append hns htail
      · exact .inl heq
      · exact .inr (.inl hdiff)
      · exact .inr (.inr (.inl hr))
    · obtain heq | hdiff | hr := eq_or_rereads_of_append hns htail
      · exact .inl heq.symm
      · exact .inr (.inl hdiff.symm)
      · exact .inr (.inr (.inr hr))
  · rintro (rfl | h | h | h)
    · rfl
    · exact h.saltInput_eq
    · exact h.saltInput_eq
    · exact h.saltInput_eq.symm

/-- Equal texts come only from equal contexts exactly when the two do not differ in an absent
against an empty sub-identity and neither is a re-reading of the other. -/
theorem saltInput_separated_iff {c c' : Context} :
    (saltInput c.ns c.version c.subId = saltInput c'.ns c'.version c'.subId → c = c') ↔
      ¬ DiffersInEmptySub c c' ∧ ¬ Rereads c c' ∧ ¬ Rereads c' c := by
  constructor
  · intro h
    exact ⟨fun hd => hd.ne (h hd.saltInput_eq), fun hr => hr.ne (h hr.saltInput_eq),
      fun hr => hr.ne (h hr.saltInput_eq.symm).symm⟩
  · rintro ⟨hd, hl, hr⟩ heq
    obtain h | h | h | h := saltInput_eq_iff.mp heq
    · exact h
    · exact absurd h hd
    · exact absurd h hl
    · exact absurd h hr

/-! ## Separation of keys -/

/-- Two contexts are separated exactly when they do not differ in an absent against an empty
sub-identity and neither is a re-reading of the other. The first equivalence is about the texts
that are hashed; the second about the keys derived from them under one passphrase, for all
primitives whose hash does not collide on the two texts and whose Argon2id does not collide on the
two salts. -/
theorem key_separation_iff (c c' : Context) :
    ((saltInput c.ns c.version c.subId = saltInput c'.ns c'.version c'.subId → c = c') ↔
        ¬ DiffersInEmptySub c c' ∧ ¬ Rereads c c' ∧ ¬ Rereads c' c) ∧
      ((∀ (P : Primitives) (passphrase : Bytes) (key : U8Array 32),
          (salt P c.ns c.version c.subId = salt P c'.ns c'.version c'.subId →
            saltInput c.ns c.version c.subId = saltInput c'.ns c'.version c'.subId) →
          (∀ key, P.argon2id passphrase (salt P c.ns c.version c.subId).val = .ok key →
            P.argon2id passphrase (salt P c'.ns c'.version c'.subId).val = .ok key →
              salt P c.ns c.version c.subId = salt P c'.ns c'.version c'.subId) →
          deriveAesKey P passphrase c.ns c.version c.subId = .ok key →
          deriveAesKey P passphrase c'.ns c'.version c'.subId = .ok key → c = c') ↔
        ¬ DiffersInEmptySub c c' ∧ ¬ Rereads c c' ∧ ¬ Rereads c' c) := by
  refine ⟨saltInput_separated_iff, Iff.trans ?_ saltInput_separated_iff⟩
  simp only [deriveAesKey, deriveKey_eq_ok_iff]
  exact separated_iff_of_salt (fun P x => P.sha256 (utf8 x)) _ _ (c = c')

/-- An absent and an empty sub-identity give one text, and the sub-identity `"b|ver=2|sub=c"` of
namespace `"a"` at version 1 re-reads as the sub-identity `"c"` of namespace `"a|ver=1|sub=b"` at
version 2. -/
theorem texts_collide :
    (∃ c c' : Context, c ≠ c' ∧ c.ns = c'.ns ∧
      saltInput c.ns c.version c.subId = saltInput c'.ns c'.version c'.subId) ∧
      ∃ c c' : Context, c ≠ c' ∧ c.ns ≠ c'.ns ∧
        saltInput c.ns c.version c.subId = saltInput c'.ns c'.version c'.subId :=
  ⟨⟨⟨"default", 0, none⟩, ⟨"default", 0, some ""⟩, by decide, rfl, by decide⟩,
    ⟨⟨"a", 1, some "b|ver=2|sub=c"⟩, ⟨"a|ver=1|sub=b", 2, some "c"⟩, by decide, by decide,
      by decide⟩⟩

end Keygen

end Cry
