import Cry.Primitives

/-!
# The authenticated file header

The 73-byte header: magic, algorithm, salt, base nonce and chunk count, followed by an HMAC of
these under a sub-key of the file key.

## Main results

* `parse_eq_ok_iff`: parsing 73 bytes accepts exactly the serialisation of the header it returns,
  with a tag that verifies;
* `run_write_eq_ok`: what `Header.write` writes;
* `preHmacBytes_injective`: the serialised fields determine the header.
-/

namespace Cry

open Rust Effects

def magic : Bytes := [67, 82, 89, 2]

def saltLen : ℕ := 16

def nonceLen : ℕ := 12

def hmacLen : ℕ := 32

def headerLen : ℕ := 4 + 1 + saltLen + nonceLen + 8 + hmacLen

/-- The domain tag of the sub-key, `b"cry-header-hmac-v2"`. -/
def hmacInfo : Bytes := utf8 "cry-header-hmac-v2"

/-! ## Algorithm identifiers -/

/-- The AEAD of a file. -/
inductive Algorithm
  | aes256Gcm
  | chaCha20Poly1305
  deriving DecidableEq, Repr

/-- The identifier byte of an algorithm. -/
def Algorithm.toByte : Algorithm → UInt8
  | .aes256Gcm => 0x01
  | .chaCha20Poly1305 => 0x02

/-- Two lowercase hexadecimal digits, as `{:02x}` prints a byte. -/
def hexByte (b : UInt8) : String :=
  String.ofList [Nat.digitChar (b.toNat / 16), Nat.digitChar (b.toNat % 16)]

/-- The algorithm of an identifier byte. -/
def Algorithm.fromByte (b : UInt8) : Except Stop Algorithm :=
  if b = 0x01 then .ok .aes256Gcm
  else if b = 0x02 then .ok .chaCha20Poly1305
  else .error (.err (.invalidFormat
    ("Unknown algorithm identifier 0x" ++ hexByte b ++
      " — was this file created with a newer version of cry?")))

@[simp] theorem Algorithm.fromByte_toByte (a : Algorithm) : fromByte a.toByte = .ok a := by
  cases a <;> rfl

theorem Algorithm.fromByte_eq_ok_iff {b : UInt8} {a : Algorithm} :
    fromByte b = .ok a ↔ b = a.toByte := by
  constructor
  · intro h
    unfold fromByte at h
    split at h
    · next hb =>
      cases h
      exact hb
    · split at h
      · next hb =>
        cases h
        exact hb
      · simp at h
  · rintro rfl
    exact fromByte_toByte a

/-- An unknown identifier byte is an error, not a panic. -/
theorem Algorithm.fromByte_eq_error {b : UInt8} {e : Stop} (h : fromByte b = .error e) :
    ∃ e', e = .err e' := by
  unfold fromByte at h
  split at h
  · cases h
  · split at h
    · cases h
    · exact ⟨_, (Except.error.inj h).symm⟩

theorem Algorithm.toByte_injective : Function.Injective Algorithm.toByte := by
  intro a b h
  cases a <;> cases b <;> simp_all [toByte]

/-! ## The header -/

/-- The fields of the header. -/
structure Header where
  algo : Algorithm
  salt : U8Array 16
  nonce : U8Array 12
  /-- Number of ciphertext chunks in the file body. -/
  chunkCount : UInt64
  deriving DecidableEq

namespace Header

/-- The serialised header without its HMAC. -/
def preHmacBytes (h : Header) : Bytes :=
  magic ++ [h.algo.toByte] ++ h.salt.val ++ h.nonce.val ++ BigEndian.ofU64 h.chunkCount

variable (P : Primitives)

/-- HKDF-Expand to one block: HMAC of the domain tag and the block counter under the file key. -/
def deriveHmacSubkey (masterKey : U8Array 32) : U8Array 32 :=
  P.hmacSha256 masterKey.val (hmacInfo ++ [0x01])

/-- The HMAC of the serialised header under the sub-key. -/
def computeHmac (preHmac : Bytes) (masterKey : U8Array 32) : U8Array 32 :=
  P.hmacSha256 (deriveHmacSubkey P masterKey).val preHmac

/-- Write the authenticated header. -/
def write (h : Header) (key : U8Array 32) : StreamProg Stop Unit := do
  let preHmac := h.preHmacBytes
  let hmac := computeHmac P preHmac key
  writeAll preHmac
  writeAll hmac.val

/-- The error for bytes that are not the magic. -/
def badMagic (magicBytes : Bytes) : Stop :=
  .err (.invalidFormat
    ("Not a cry v2 encrypted file (bad magic " ++ toString (magicBytes.map UInt8.toNat) ++
      "). Files from cry v0.1 are not compatible — re-encrypt with the new version."))

/-- Read and authenticate the header. -/
def read (fuel : ℕ) (key : U8Array 32) : StreamProg Stop Header := do
  let magicBytes ← readExactOr fuel 4 fun _ => .err (.invalidFormat "Failed to read magic bytes")
  if magicBytes.val ≠ magic then
    Prog.throw (badMagic magicBytes.val)
  else
    let algoByte ← readExactOr fuel 1 fun _ =>
      .err (.invalidFormat "Failed to read algorithm byte")
    let algo ← Prog.ofExcept (Algorithm.fromByte (algoByte.val.headD 0))
    let salt ← readExactOr fuel 16 fun _ => .err (.invalidFormat "Failed to read salt")
    let nonce ← readExactOr fuel 12 fun _ => .err (.invalidFormat "Failed to read nonce")
    let countBuf ← readExactOr fuel 8 fun _ =>
      .err (.invalidFormat "Failed to read chunk count")
    let storedHmac ← readExactOr fuel 32 fun _ =>
      .err (.invalidFormat "Failed to read header HMAC")
    let header : Header := { algo, salt, nonce, chunkCount := BigEndian.toU64 countBuf }
    if P.hmacVerify (deriveHmacSubkey P key).val header.preHmacBytes storedHmac.val then
      pure header
    else Prog.throw (.err .headerTampered)

/-- `Header::read` on a byte slice. A slice never interrupts a call, so one call for each byte
is fuel enough. -/
def parse (key : U8Array 32) (raw : Bytes) : Option (Except Stop Header) :=
  (read P (raw.length + 2) key).evalSlice raw

/-! ## Parsing -/

/-- What the six fields of a header decide. -/
def ofFields (key : U8Array 32) (m : U8Array 4) (a : U8Array 1) (s : U8Array 16)
    (n : U8Array 12) (c : U8Array 8) (t : U8Array 32) : Except Stop Header :=
  if m.val ≠ magic then .error (badMagic m.val) else
    (Algorithm.fromByte (a.val.headD 0)).bind fun algo =>
      let header : Header := { algo, salt := s, nonce := n, chunkCount := BigEndian.toU64 c }
      if P.hmacVerify (deriveHmacSubkey P key).val header.preHmacBytes t.val then .ok header
      else .error (.err .headerTampered)

/-- From a reader that delivers the six fields and more, reading takes the fields and decides by
them. It leaves the rest when it accepts. -/
theorem run_read_append (key : U8Array 32) (m : U8Array 4) (a : U8Array 1) (s : U8Array 16)
    (n : U8Array 12) (c : U8Array 8) (t : U8Array 32) {B : Bytes} {r : Reader} (sink : Sink)
    {fuel : ℕ}
    (hr : Delivers (m.val ++ (a.val ++ (s.val ++ (n.val ++ (c.val ++ (t.val ++ B)))))) r)
    (hfuel : r.size < fuel) :
    ∃ r', StreamProg.run (read P fuel key) ⟨r, sink⟩ =
        some (ofFields P key m a s n c t, ⟨r', sink⟩) ∧
      ∀ h, ofFields P key m a s n c t = .ok h → Delivers B r' := by
  -- one field after the other is taken off the front
  obtain ⟨r₁, hd₁, hs₁, hrun₁⟩ := run_readExactOr_ok fuel (fun _ =>
    .err (.invalidFormat "Failed to read magic bytes")) sink hr hfuel
  rw [read, Prog.bind_eq, StreamProg.run_bind, hrun₁, Prog.andThen_ok, ofFields]
  by_cases hm : m.val = magic
  · rw [if_neg (not_not.mpr hm), if_neg (not_not.mpr hm)]
    obtain ⟨r₂, hd₂, hs₂, hrun₂⟩ := run_readExactOr_ok fuel (fun _ =>
      .err (.invalidFormat "Failed to read algorithm byte")) sink hd₁ (by omega)
    rw [Prog.bind_eq, StreamProg.run_bind, hrun₂, Prog.andThen_ok]
    cases Algorithm.fromByte (a.val.headD 0) with
    | error e => exact ⟨r₂, rfl, nofun⟩
    | ok algo =>
      obtain ⟨r₃, hd₃, hs₃, hrun₃⟩ := run_readExactOr_ok fuel (fun _ =>
        .err (.invalidFormat "Failed to read salt")) sink hd₂ (by omega)
      obtain ⟨r₄, hd₄, hs₄, hrun₄⟩ := run_readExactOr_ok fuel (fun _ =>
        .err (.invalidFormat "Failed to read nonce")) sink hd₃ (by omega)
      obtain ⟨r₅, hd₅, hs₅, hrun₅⟩ := run_readExactOr_ok fuel (fun _ =>
        .err (.invalidFormat "Failed to read chunk count")) sink hd₄ (by omega)
      obtain ⟨r₆, hd₆, -, hrun₆⟩ := run_readExactOr_ok fuel (fun _ =>
        .err (.invalidFormat "Failed to read header HMAC")) sink hd₅ (by omega)
      refine ⟨r₆, ?_, fun _ _ => hd₆⟩
      simp only [Prog.bind_eq, Prog.ofExcept_ok, Prog.pure_bind, StreamProg.run_bind, hrun₃,
        hrun₄, hrun₅, hrun₆, Prog.andThen_ok, Except.bind]
      split <;> rfl
  · rw [if_pos hm, if_pos hm]
    exact ⟨r₁, rfl, nofun⟩

/-- Parsing the six fields of a header decides by them. -/
theorem parse_append (key : U8Array 32) (m : U8Array 4) (a : U8Array 1) (s : U8Array 16)
    (n : U8Array 12) (c : U8Array 8) (t : U8Array 32) :
    parse P key (m.val ++ (a.val ++ (s.val ++ (n.val ++ (c.val ++ t.val))))) =
      some (ofFields P key m a s n c t) := by
  -- a slice delivers its bytes, and the fuel is above its size
  have hd := delivers_ofSlice (m.val ++ (a.val ++ (s.val ++ (n.val ++ (c.val ++ (t.val ++ []))))))
  obtain ⟨r', hrun, -⟩ := run_read_append P key m a s n c t {} hd (Nat.lt_succ_self _)
  rw [List.append_nil] at hrun
  exact congrArg (Option.map Prod.fst) hrun

/-- A byte string of header length has the six fields. -/
theorem exists_fields {raw : Bytes} (h : raw.length = headerLen) :
    ∃ (m : U8Array 4) (a : U8Array 1) (s : U8Array 16) (n : U8Array 12) (c : U8Array 8)
      (t : U8Array 32), raw = m.val ++ (a.val ++ (s.val ++ (n.val ++ (c.val ++ t.val)))) := by
  change raw.length = 73 at h
  obtain ⟨m, rest₁, rfl, h₁⟩ := U8Array.exists_append 4 raw (by omega)
  obtain ⟨a, rest₂, rfl, h₂⟩ := U8Array.exists_append 1 rest₁ (by omega)
  obtain ⟨s, rest₃, rfl, h₃⟩ := U8Array.exists_append 16 rest₂ (by omega)
  obtain ⟨n, rest₄, rfl, h₄⟩ := U8Array.exists_append 12 rest₃ (by omega)
  obtain ⟨c, rest₅, rfl, h₅⟩ := U8Array.exists_append 8 rest₄ (by omega)
  exact ⟨m, a, s, n, c, ⟨rest₅, by omega⟩, rfl⟩

theorem length_preHmacBytes (h : Header) : h.preHmacBytes.length = 41 := by
  simp [preHmacBytes, magic]

/-- The serialised fields, with the concatenation nested to the right. -/
theorem preHmacBytes_append (h : Header) (t : Bytes) :
    h.preHmacBytes ++ t =
      magic ++ ([h.algo.toByte] ++
        (h.salt.val ++ (h.nonce.val ++ (BigEndian.ofU64 h.chunkCount ++ t)))) := by
  simp [preHmacBytes]

/-- The serialised fields, followed by anything, determine the header. -/
theorem preHmacBytes_append_inj {h h' : Header} {t t' : Bytes}
    (heq : h.preHmacBytes ++ t = h'.preHmacBytes ++ t') : h = h' ∧ t = t' := by
  obtain ⟨algo, salt, nonce, count⟩ := h
  obtain ⟨algo', salt', nonce', count'⟩ := h'
  rw [preHmacBytes_append, preHmacBytes_append] at heq
  -- all fields have a fixed length
  obtain ⟨-, heq⟩ := List.append_inj heq rfl
  obtain ⟨halgo, heq⟩ := List.append_inj heq rfl
  obtain ⟨hsalt, heq⟩ := List.append_inj heq (by simp)
  obtain ⟨hnonce, heq⟩ := List.append_inj heq (by simp)
  obtain ⟨hcount, ht⟩ := List.append_inj heq (by simp)
  refine ⟨?_, ht⟩
  rw [Header.mk.injEq]
  exact ⟨Algorithm.toByte_injective (List.singleton_inj.mp halgo), Subtype.ext hsalt,
    Subtype.ext hnonce, BigEndian.ofU64_injective hcount⟩

/-- The serialised fields determine the header. -/
theorem preHmacBytes_injective : Function.Injective preHmacBytes := by
  intro h h' heq
  have hnil : h.preHmacBytes ++ [] = h'.preHmacBytes ++ [] := by rw [heq]
  exact (preHmacBytes_append_inj hnil).1

/-- The fields of a serialised header are accepted exactly when the tag verifies. -/
theorem ofFields_fields (key : U8Array 32) (h : Header) (t : U8Array 32) :
    ofFields P key ⟨magic, rfl⟩ ⟨[h.algo.toByte], rfl⟩ h.salt h.nonce
        ⟨BigEndian.ofU64 h.chunkCount, by simp⟩ t =
      if P.hmacVerify (deriveHmacSubkey P key).val h.preHmacBytes t.val then .ok h
      else .error (.err .headerTampered) := by
  simp [ofFields, Except.bind]

/-- The six fields decide on a header or an error. -/
theorem ofFields_ne_panic (key : U8Array 32) (m : U8Array 4) (a : U8Array 1) (s : U8Array 16)
    (n : U8Array 12) (c : U8Array 8) (t : U8Array 32) :
    ofFields P key m a s n c t ≠ .error .panic := by
  rw [ofFields]
  by_cases hm : m.val = magic
  · rw [if_neg (not_not.mpr hm)]
    cases halgo : Algorithm.fromByte (a.val.headD 0) with
    | error e =>
      obtain ⟨e', rfl⟩ := Algorithm.fromByte_eq_error halgo
      nofun
    | ok algo =>
      simp only [Except.bind]
      split <;> nofun
  · rw [if_pos hm]
    nofun

/-- Six fields are accepted as a header exactly when the first five serialise it and the sixth is a
tag that verifies. -/
theorem ofFields_eq_ok_iff {key : U8Array 32} {m : U8Array 4} {a : U8Array 1} {s : U8Array 16}
    {n : U8Array 12} {c : U8Array 8} {t : U8Array 32} {h : Header} :
    ofFields P key m a s n c t = .ok h ↔
      m.val ++ (a.val ++ (s.val ++ (n.val ++ c.val))) = h.preHmacBytes ∧
        P.hmacVerify (deriveHmacSubkey P key).val h.preHmacBytes t.val = true := by
  constructor
  · intro hok
    unfold ofFields at hok
    by_cases hm : m.val = magic
    · rw [if_neg (not_not.mpr hm)] at hok
      cases hb : Algorithm.fromByte (a.val.headD 0) with
      | error e =>
        rw [hb] at hok
        cases hok
      | ok algo =>
        rw [hb] at hok
        simp only [Except.bind] at hok
        split at hok
        · next hv =>
          obtain rfl := Except.ok.inj hok
          -- only one byte stands for the algorithm
          have ha : a.val = [algo.toByte] := by
            obtain ⟨b, hab⟩ := List.length_eq_one_iff.mp a.property
            rw [hab] at hb ⊢
            exact congrArg (fun x => [x]) (Algorithm.fromByte_eq_ok_iff.mp hb)
          exact ⟨by simp [preHmacBytes, hm, ha], hv⟩
        · cases hok
    · rw [if_pos hm] at hok
      cases hok
  · rintro ⟨heq, hv⟩
    -- all fields have a fixed length
    have hflat := preHmacBytes_append h []
    rw [List.append_nil, ← heq, List.append_nil] at hflat
    obtain ⟨hm, hflat⟩ := List.append_inj hflat (by simp [magic])
    obtain ⟨ha, hflat⟩ := List.append_inj hflat (by simp)
    obtain ⟨hs, hflat⟩ := List.append_inj hflat (by simp)
    obtain ⟨hn, hc⟩ := List.append_inj hflat (by simp)
    obtain rfl : m = ⟨magic, rfl⟩ := Subtype.ext hm
    obtain rfl : a = ⟨[h.algo.toByte], rfl⟩ := Subtype.ext ha
    obtain rfl : s = h.salt := Subtype.ext hs
    obtain rfl : n = h.nonce := Subtype.ext hn
    obtain rfl : c = ⟨BigEndian.ofU64 h.chunkCount, by simp⟩ := Subtype.ext hc
    rw [ofFields_fields, if_pos hv]

/-- A serialised header with its tag is accepted exactly when the tag verifies. -/
theorem parse_preHmacBytes (key : U8Array 32) (h : Header) (t : U8Array 32) :
    parse P key (h.preHmacBytes ++ t.val) =
      some (if P.hmacVerify (deriveHmacSubkey P key).val h.preHmacBytes t.val then .ok h
        else .error (.err .headerTampered)) := by
  rw [← ofFields_fields, preHmacBytes_append]
  exact parse_append P key ⟨magic, rfl⟩ ⟨[h.algo.toByte], rfl⟩ h.salt h.nonce
    ⟨BigEndian.ofU64 h.chunkCount, by simp⟩ t

/-- Parsing a byte string of header length returns a header or an error. -/
theorem parse_returns (key : U8Array 32) {raw : Bytes} (hraw : raw.length = headerLen) :
    ∃ r, parse P key raw = some r ∧ r ≠ .error .panic := by
  obtain ⟨m, a, s, n, c, t, rfl⟩ := exists_fields hraw
  exact ⟨_, parse_append P key m a s n c t, ofFields_ne_panic P key m a s n c t⟩

/-- Parsing accepts exactly the serialisation of the header it returns, with a tag that
verifies. -/
theorem parse_eq_ok_iff {key : U8Array 32} {raw : Bytes} (hraw : raw.length = headerLen)
    {h : Header} :
    parse P key raw = some (.ok h) ↔
      ∃ t : U8Array 32, raw = h.preHmacBytes ++ t.val ∧
        P.hmacVerify (deriveHmacSubkey P key).val h.preHmacBytes t.val = true := by
  constructor
  · obtain ⟨m, a, s, n, c, t, rfl⟩ := exists_fields hraw
    rw [parse_append, Option.some.injEq, ofFields_eq_ok_iff]
    rintro ⟨hfields, hv⟩
    exact ⟨t, by simp [← hfields], hv⟩
  · rintro ⟨t, rfl, hv⟩
    rw [parse_preHmacBytes, if_pos hv]

/-- What `Header.write` writes: the serialised fields and their tag. -/
def bytes (h : Header) (key : U8Array 32) : Bytes :=
  h.preHmacBytes ++ (computeHmac P h.preHmacBytes key).val

@[simp] theorem length_bytes (h : Header) (key : U8Array 32) :
    (h.bytes P key).length = headerLen := by
  simp [bytes, length_preHmacBytes, headerLen, saltLen, nonceLen, hmacLen]

/-- A completed `Header.write` wrote the header and read nothing. -/
theorem run_write_eq_ok {h : Header} {key : U8Array 32} {u : Unit} {st st' : StreamState}
    (hrun : StreamProg.run (h.write P key) st = some (.ok u, st')) :
    st'.reader = st.reader ∧ st'.sink.written = st.sink.written ++ h.bytes P key := by
  rw [write, Prog.bind_eq, StreamProg.run_bind, Prog.andThen_eq_ok] at hrun
  obtain ⟨_, st₁, h₁, h₂⟩ := hrun
  obtain ⟨hr₁, hw₁⟩ := run_writeAll_eq_ok h₁
  obtain ⟨hr₂, hw₂⟩ := run_writeAll_eq_ok h₂
  exact ⟨hr₂.trans hr₁, by rw [hw₂, hw₁, bytes, List.append_assoc]⟩

/-- A sink that accepts every call takes the whole header. -/
theorem run_write_ok (h : Header) (key : U8Array 32) (r : Reader) (sink : Sink)
    (hsink : sink.faults = []) :
    StreamProg.run (h.write P key) ⟨r, sink⟩ =
      some (.ok (), ⟨r, { sink with written := sink.written ++ h.bytes P key }⟩) := by
  simp [write, run_writeAll, hsink, bytes]

end Header

end Cry
