import Cry.Primitives

/-!
# Deterministic identities

An identity is derived from a passphrase and a context of namespace, version and optional
sub-identity. The context enters through the Argon2 salt, a truncated hash of a byte string in
which the parts are separated by `":v"` and `":sub:"`. The parts are not length-prefixed and may
contain the separators, so one byte string can be read as two contexts.

## Main results

* `saltInput_eq_iff`: two contexts give one hashed byte string exactly when they are equal or one
  is a re-reading of the other;
* `context_separation_iff`: two contexts are separated, as byte strings and as identities, exactly
  when neither is a re-reading of the other.
-/

namespace Cry

open Rust

/-- What selects a key under a passphrase. -/
structure Context where
  /-- The namespace. -/
  ns : String
  version : UInt32
  subId : Option String
  deriving DecidableEq, Repr

namespace Crydna

variable (P : Primitives)

/-- The domain tag mixed into every salt. -/
def domain : Bytes := utf8 "CryDNA-v1"

/-- The part of the hashed bytes that an optional sub-identity adds. -/
def subPart : Option String → Bytes
  | some sub => utf8 ":sub:" ++ utf8 sub
  | none => []

/-- The bytes that `derive_salt` feeds to SHA-256. -/
def saltInput (ns : String) (version : UInt32) (subId : Option String) : Bytes :=
  domain ++ utf8 ":" ++ utf8 ns ++ utf8 ":v" ++ BigEndian.ofU32 version ++ subPart subId

/-- The salt of a context: the first 16 bytes of the hash. -/
def deriveSalt (ns : String) (version : UInt32) (subId : Option String) : U8Array 16 :=
  ⟨(P.sha256 (saltInput ns version subId)).val.take 16, by simp⟩

/-- A derived identity: the seed is the secret part of the signing key. -/
structure Identity where
  signingKey : U8Array 32
  deriving DecidableEq

/-- Derive an identity, with the Argon2id parameters of `derive_key`. -/
def Identity.derive (passphrase : Bytes) (ns : String) (version : UInt32)
    (subId : Option String) : Except Stop Identity := do
  let salt := deriveSalt P ns version subId
  let seed ← deriveKey P passphrase salt.val
  pure { signingKey := seed }

/-! ## Re-readings -/

/-- The sub-identity of `c` holds what `c'` has from its version on, and the namespace of `c'`
holds what `c` has up to there. Three places in the sub-identity part allow it: the `"v"` of the
version marker at the front of the sub-identity, the whole marker further on, and a version that
ends in the marker while the sub-identity starts with `"sub:"`. -/
def Rereads (c c' : Context) : Prop :=
  ∃ s, c.subId = some s ∧
    ((utf8 c'.ns = utf8 c.ns ++ utf8 ":v" ++ BigEndian.ofU32 c.version ++ utf8 ":sub" ∧
        utf8 s = utf8 "v" ++ BigEndian.ofU32 c'.version ++ subPart c'.subId) ∨
      (∃ u, utf8 c'.ns = utf8 c.ns ++ utf8 ":v" ++ BigEndian.ofU32 c.version ++ utf8 ":sub:" ++ u ∧
        utf8 s = u ++ utf8 ":v" ++ BigEndian.ofU32 c'.version ++ subPart c'.subId) ∨
      ∃ a b, BigEndian.ofU32 c.version = [a, b] ++ utf8 ":v" ∧
        BigEndian.ofU32 c'.version = utf8 ":sub" ∧ utf8 c'.ns = utf8 c.ns ++ utf8 ":v" ++ [a, b] ∧
        ∃ s', c'.subId = some s' ∧ utf8 s = utf8 "sub:" ++ utf8 s')

/-- Two contexts are read from one byte string. -/
theorem saltInput_eq_iff_tail {c c' : Context} :
    saltInput c.ns c.version c.subId = saltInput c'.ns c'.version c'.subId ↔
      utf8 c.ns ++ (utf8 ":v" ++ (BigEndian.ofU32 c.version ++ subPart c.subId)) =
        utf8 c'.ns ++ (utf8 ":v" ++ (BigEndian.ofU32 c'.version ++ subPart c'.subId)) := by
  simp only [saltInput, List.append_assoc, List.append_cancel_left_eq]

private theorem exists_four (v : U8Array 4) : ∃ a b c d, v.val = [a, b, c, d] := by
  match v with
  | ⟨[a, b, c, d], _⟩ => exact ⟨a, b, c, d, rfl⟩

/-- A non-empty sub-identity part starts with its marker. -/
theorem subPart_eq_cons {sub : Option String} {b : UInt8} {rest : Bytes}
    (h : b :: rest = subPart sub) :
    ∃ s, sub = some s ∧ b = 58 ∧ rest = utf8 "sub:" ++ utf8 s := by
  cases sub with
  | none => cases h
  | some s =>
    obtain ⟨hb, hrest⟩ := List.cons.inj (show b :: rest = 58 :: (utf8 "sub:" ++ utf8 s) from h)
    exact ⟨s, rfl, hb, hrest⟩

/-- Where the tail of one context continues, after `x`, as the tail of another: at one of three
places. The version marker has to fall on bytes `":v"` of the first tail, so every other length of
`x` puts it across fixed bytes that differ. -/
theorem tail_eq_append (v v' : U8Array 4) {sub sub' : Option String} {x : Bytes} (hx : x ≠ [])
    (h : utf8 ":v" ++ (v.val ++ subPart sub) = x ++ (utf8 ":v" ++ (v'.val ++ subPart sub'))) :
    ∃ s, sub = some s ∧
      ((x = utf8 ":v" ++ v.val ++ utf8 ":sub" ∧ utf8 s = utf8 "v" ++ v'.val ++ subPart sub') ∨
        (∃ u, x = utf8 ":v" ++ v.val ++ utf8 ":sub:" ++ u ∧
          utf8 s = u ++ utf8 ":v" ++ v'.val ++ subPart sub') ∨
        ∃ a b, v.val = [a, b] ++ utf8 ":v" ∧ v'.val = utf8 ":sub" ∧ x = utf8 ":v" ++ [a, b] ∧
          ∃ s', sub' = some s' ∧ utf8 s = utf8 "sub:" ++ utf8 s') := by
  obtain ⟨a, b, c, d, hv⟩ := exists_four v
  obtain ⟨a', b', c', d', hv'⟩ := exists_four v'
  cases sub with
  | none =>
    have hlen := congrArg List.length h
    have hpos := List.length_pos_iff.mpr hx
    simp only [subPart, List.length_append, U8Array.length_val, List.length_nil] at hlen
    omega
  | some s =>
    refine ⟨s, rfl, ?_⟩
    rw [hv, hv'] at h ⊢
    have h' : 58 :: 118 :: a :: b :: c :: d :: 58 :: 115 :: 117 :: 98 :: 58 :: utf8 s =
        x ++ 58 :: 118 :: a' :: b' :: c' :: d' :: subPart sub' := h
    match x with
    | [] => exact absurd rfl hx
    | [_] => simp at h'
    | [_, _] =>
      simp only [List.cons_append, List.nil_append, List.cons.injEq] at h'
      obtain ⟨s', -, hb, -⟩ := subPart_eq_cons h'.2.2.2.2.2.2.2.2
      cases hb
    | [_, _, _] =>
      simp only [List.cons_append, List.nil_append, List.cons.injEq] at h'
      obtain ⟨s', -, hb, -⟩ := subPart_eq_cons h'.2.2.2.2.2.2.2.2.2
      cases hb
    | [_, _, _, _] =>
      -- the version ends in the marker
      simp only [List.cons_append, List.nil_append, List.cons.injEq] at h'
      obtain ⟨rfl, rfl, rfl, rfl, rfl, rfl, rfl, rfl, rfl, rfl, hsub⟩ := h'
      obtain ⟨s', rfl, -, hs⟩ := subPart_eq_cons hsub
      exact .inr (.inr ⟨a, b, rfl, rfl, rfl, s', rfl, hs⟩)
    | [_, _, _, _, _] => simp at h'
    | [_, _, _, _, _, _] => simp at h'
    | [_, _, _, _, _, _, _] => simp at h'
    | [_, _, _, _, _, _, _, _] => simp at h'
    | [_, _, _, _, _, _, _, _, _] => simp at h'
    | [_, _, _, _, _, _, _, _, _, _] =>
      simp only [List.cons_append, List.nil_append, List.cons.injEq] at h'
      obtain ⟨rfl, rfl, rfl, rfl, rfl, rfl, rfl, rfl, rfl, rfl, -, hs⟩ := h'
      exact .inl ⟨rfl, hs⟩
    | _ :: _ :: _ :: _ :: _ :: _ :: _ :: _ :: _ :: _ :: _ :: u =>
      simp only [List.cons_append, List.cons.injEq] at h'
      obtain ⟨rfl, rfl, rfl, rfl, rfl, rfl, rfl, rfl, rfl, rfl, rfl, hs⟩ := h'
      refine .inr (.inl ⟨u, rfl, ?_⟩)
      rw [hs]
      simp [show utf8 ":v" = [58, 118] from rfl]

/-- The part of an optional sub-identity determines it. -/
theorem subPart_injective : Function.Injective subPart := by
  intro sub sub' h
  cases sub with
  | none =>
    cases sub' with
    | none => rfl
    | some s' => cases h
  | some s =>
    cases sub' with
    | none => cases h
    | some s' => rw [utf8_injective (List.append_cancel_left h)]

/-- When the namespace of one context starts with that of another and they give one byte string,
they are equal or the longer one re-reads the shorter. -/
theorem eq_or_rereads_of_append {c c' : Context} {x : Bytes} (hns : utf8 c'.ns = utf8 c.ns ++ x)
    (h : utf8 ":v" ++ (BigEndian.ofU32 c.version ++ subPart c.subId) =
      x ++ (utf8 ":v" ++ (BigEndian.ofU32 c'.version ++ subPart c'.subId))) :
    c = c' ∨ Rereads c c' := by
  rcases eq_or_ne x [] with rfl | hx
  · rw [List.append_nil] at hns
    rw [List.nil_append] at h
    obtain ⟨hv, hsub⟩ := List.append_inj (List.append_cancel_left h) (by simp)
    -- the namespaces are equal, and the version has a fixed length
    obtain ⟨ns, version, subId⟩ := c
    obtain ⟨ns', version', subId'⟩ := c'
    rw [Context.mk.injEq]
    exact .inl ⟨utf8_injective hns.symm, BigEndian.ofU32_injective hv, subPart_injective hsub⟩
  · obtain ⟨s, hs, hplace⟩ := tail_eq_append ⟨BigEndian.ofU32 c.version, by simp⟩
      ⟨BigEndian.ofU32 c'.version, by simp⟩ hx h
    refine .inr ⟨s, hs, ?_⟩
    -- where the separator of the second lies in the tail of the first
    obtain ⟨rfl, hutf⟩ | ⟨u, rfl, hutf⟩ | ⟨a, b, hv, hv', rfl, s', hs', hutf⟩ := hplace
    · exact .inl ⟨by simp [hns], hutf⟩
    · exact .inr (.inl ⟨u, by simp [hns], hutf⟩)
    · exact .inr (.inr ⟨a, b, hv, hv', by simp [hns], s', hs', hutf⟩)

/-- A re-reading gives the same byte string. -/
theorem Rereads.saltInput_eq {c c' : Context} (h : Rereads c c') :
    saltInput c.ns c.version c.subId = saltInput c'.ns c'.version c'.subId := by
  rw [saltInput_eq_iff_tail]
  obtain ⟨s, hs, ⟨hns, hutf⟩ | ⟨u, hns, hutf⟩ | ⟨a, b, hv, hv', hns, s', hs', hutf⟩⟩ := h
  · have hmarker : utf8 ":sub:" = utf8 ":sub" ++ utf8 ":" := rfl
    have hversion : utf8 ":v" = utf8 ":" ++ utf8 "v" := rfl
    rw [hs, hns, subPart, hutf, hmarker]
    conv_rhs => enter [2, 1]; rw [hversion]
    simp only [List.append_assoc]
  · rw [hs, hns, subPart, hutf]
    simp only [List.append_assoc]
  · have hmarker : utf8 ":sub:" = utf8 ":sub" ++ utf8 ":" := rfl
    have hrest : utf8 ":sub:" = utf8 ":" ++ utf8 "sub:" := rfl
    rw [hs, hs', hns, hv, hv', subPart, subPart, hutf]
    conv_lhs => enter [2, 2, 2, 1]; rw [hmarker]
    conv_rhs => enter [2, 2, 2, 1]; rw [hrest]
    simp only [List.append_assoc]

/-- A re-reading has a longer namespace. -/
theorem Rereads.length_lt {c c' : Context} (h : Rereads c c') :
    (utf8 c.ns).length < (utf8 c'.ns).length := by
  have hpos : 0 < (utf8 ":v").length := by decide
  obtain ⟨s, -, ⟨hns, -⟩ | ⟨u, hns, -⟩ | ⟨a, b, -, -, hns, -⟩⟩ := h
  · rw [hns]
    simp only [List.length_append]
    omega
  · rw [hns]
    simp only [List.length_append]
    omega
  · rw [hns]
    simp only [List.length_append]
    omega

/-- A re-reading is of another context. -/
theorem Rereads.ne {c c' : Context} (h : Rereads c c') : c ≠ c' := by
  rintro rfl
  exact Nat.lt_irrefl _ h.length_lt

/-- Two contexts give one hashed byte string exactly when they are equal or one is a re-reading of
the other. -/
theorem saltInput_eq_iff {c c' : Context} :
    saltInput c.ns c.version c.subId = saltInput c'.ns c'.version c'.subId ↔
      c = c' ∨ Rereads c c' ∨ Rereads c' c := by
  constructor
  · intro h
    rw [saltInput_eq_iff_tail, List.append_eq_append_iff] at h
    obtain ⟨x, hns, htail⟩ | ⟨x, hns, htail⟩ := h
    · exact (eq_or_rereads_of_append hns htail).imp_right .inl
    · exact (eq_or_rereads_of_append hns htail).imp Eq.symm .inr
  · rintro (rfl | h | h)
    · rfl
    · exact h.saltInput_eq
    · exact h.saltInput_eq.symm

/-- Equal byte strings come only from equal contexts exactly when neither is a re-reading of the
other. -/
theorem saltInput_separated_iff {c c' : Context} :
    (saltInput c.ns c.version c.subId = saltInput c'.ns c'.version c'.subId → c = c') ↔
      ¬ Rereads c c' ∧ ¬ Rereads c' c := by
  constructor
  · intro h
    exact ⟨fun hr => hr.ne (h hr.saltInput_eq), fun hr => hr.ne (h hr.saltInput_eq.symm).symm⟩
  · rintro ⟨hl, hr⟩ heq
    obtain h | h | h := saltInput_eq_iff.mp heq
    · exact h
    · exact absurd h hl
    · exact absurd h hr

/-! ## Separation of identities -/

variable {P} in
/-- A derived identity is the Argon2id output under the salt of its context. -/
theorem derive_eq_ok_iff {passphrase : Bytes} {ns : String} {version : UInt32}
    {subId : Option String} {id : Identity} :
    Identity.derive P passphrase ns version subId = .ok id ↔
      P.argon2id passphrase (deriveSalt P ns version subId).val = .ok id.signingKey := by
  simp only [Identity.derive, deriveKey]
  cases P.argon2id passphrase (deriveSalt P ns version subId).val with
  | error e => simp [bind, Except.bind]
  | ok seed =>
    obtain ⟨key⟩ := id
    simp [bind, Except.bind, pure, Except.pure]

/-- Two contexts are separated exactly when neither is a re-reading of the other. The first
equivalence is about the byte strings fed to SHA-256; the second about the identities derived from
them under one passphrase, for all primitives whose truncated hash does not collide on the two
byte strings and whose Argon2id does not collide on the two salts. -/
theorem context_separation_iff (c c' : Context) :
    ((saltInput c.ns c.version c.subId = saltInput c'.ns c'.version c'.subId → c = c') ↔
        ¬ Rereads c c' ∧ ¬ Rereads c' c) ∧
      ((∀ (P : Primitives) (passphrase : Bytes) (id : Identity),
          (deriveSalt P c.ns c.version c.subId = deriveSalt P c'.ns c'.version c'.subId →
            saltInput c.ns c.version c.subId = saltInput c'.ns c'.version c'.subId) →
          (∀ key, P.argon2id passphrase (deriveSalt P c.ns c.version c.subId).val = .ok key →
            P.argon2id passphrase (deriveSalt P c'.ns c'.version c'.subId).val = .ok key →
              deriveSalt P c.ns c.version c.subId = deriveSalt P c'.ns c'.version c'.subId) →
          Identity.derive P passphrase c.ns c.version c.subId = .ok id →
          Identity.derive P passphrase c'.ns c'.version c'.subId = .ok id → c = c') ↔
        ¬ Rereads c c' ∧ ¬ Rereads c' c) := by
  refine ⟨saltInput_separated_iff, Iff.trans ?_ saltInput_separated_iff⟩
  simp only [derive_eq_ok_iff]
  refine Iff.trans ?_ (separated_iff_of_salt
    (fun P x => (⟨(P.sha256 x).val.take 16, by simp⟩ : U8Array 16)) _ _ (c = c'))
  -- an identity is its signing key
  exact ⟨fun h P passphrase key => h P passphrase ⟨key⟩,
    fun h P passphrase id => h P passphrase id.signingKey⟩

/-- The sub-identity `"y:vEFGH"` of namespace `"x"` at version `"abcd"` re-reads as the namespace
`"x:vabcd:sub:y"` at version `"EFGH"`. -/
theorem contexts_collide :
    ∃ c c' : Context, c ≠ c' ∧
      saltInput c.ns c.version c.subId = saltInput c'.ns c'.version c'.subId :=
  ⟨⟨"x", 0x61626364, some "y:vEFGH"⟩, ⟨"x:vabcd:sub:y", 0x45464748, none⟩, by decide,
    by decide⟩

end Crydna

end Cry
