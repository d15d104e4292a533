import Cry.Header

/-!
# The header as a codec

`Header.write` and `Header.read` are inverse in both directions. The reader rebuilds the
authenticated bytes from the fields it has parsed, so what it accepts is decided by what the
rebuilt bytes are, not by the bytes it has read; that these are the same is
`ofFields_eq_ok_iff`.

## Main results

* `run_read_of_delivers`: from any reader, reading returns a header or an error, and accepts
  exactly the inputs that start with a written header;
* `Header.codec_exact`: both directions of the codec, and that two accepted headers with the same
  fields are the same bytes.
-/

namespace Cry

open Rust Effects

namespace Header

variable (P : Primitives)

/-- From a reader that delivers too few bytes, reading the header fails with an error. -/
theorem run_read_short {fuel : ℕ} (key : U8Array 32) {B : Bytes} {r : Reader} (sink : Sink)
    (hr : Delivers B r) (hfuel : r.size < fuel) (hshort : B.length < headerLen) :
    ∃ e r', StreamProg.run (read P fuel key) ⟨r, sink⟩ = some (.error (.err e), ⟨r', sink⟩) := by
  change B.length < 73 at hshort
  rw [read]
  -- some field is missing, or one before it is refused
  obtain ⟨r₁, ⟨m, B₁, rfl, hd₁, hs₁, h₁⟩ | ⟨e, h₁⟩⟩ := run_readExactOr_cases fuel 4 (fun _ =>
    .err (.invalidFormat "Failed to read magic bytes")) sink hr hfuel
  swap
  · exact ⟨_, r₁, by rw [Prog.bind_eq, StreamProg.run_bind, h₁, Prog.andThen_error]⟩
  rw [Prog.bind_eq, StreamProg.run_bind, h₁, Prog.andThen_ok]
  split
  · exact ⟨_, r₁, rfl⟩
  obtain ⟨r₂, ⟨a, B₂, rfl, hd₂, hs₂, h₂⟩ | ⟨e, h₂⟩⟩ := run_readExactOr_cases fuel 1 (fun _ =>
    .err (.invalidFormat "Failed to read algorithm byte")) sink hd₁ (by omega)
  swap
  · exact ⟨_, r₂, by rw [Prog.bind_eq, StreamProg.run_bind, h₂, Prog.andThen_error]⟩
  rw [Prog.bind_eq, StreamProg.run_bind, h₂, Prog.andThen_ok]
  cases halgo : Algorithm.fromByte (a.val.headD 0) with
  | error e =>
    obtain ⟨e', rfl⟩ := Algorithm.fromByte_eq_error halgo
    exact ⟨e', r₂, rfl⟩
  | ok algo =>
    rw [Prog.ofExcept_ok, Prog.bind_eq, Prog.pure_bind]
    obtain ⟨r₃, ⟨s, B₃, rfl, hd₃, hs₃, h₃⟩ | ⟨e, h₃⟩⟩ := run_readExactOr_cases fuel 16 (fun _ =>
      .err (.invalidFormat "Failed to read salt")) sink hd₂ (by omega)
    swap
    · exact ⟨_, r₃, by rw [Prog.bind_eq, StreamProg.run_bind, h₃, Prog.andThen_error]⟩
    rw [Prog.bind_eq, StreamProg.run_bind, h₃, Prog.andThen_ok]
    obtain ⟨r₄, ⟨n, B₄, rfl, hd₄, hs₄, h₄⟩ | ⟨e, h₄⟩⟩ := run_readExactOr_cases fuel 12 (fun _ =>
      .err (.invalidFormat "Failed to read nonce")) sink hd₃ (by omega)
    swap
    · exact ⟨_, r₄, by rw [Prog.bind_eq, StreamProg.run_bind, h₄, Prog.andThen_error]⟩
    rw [Prog.bind_eq, StreamProg.run_bind, h₄, Prog.andThen_ok]
    obtain ⟨r₅, ⟨c, B₅, rfl, hd₅, hs₅, h₅⟩ | ⟨e, h₅⟩⟩ := run_readExactOr_cases fuel 8 (fun _ =>
      .err (.invalidFormat "Failed to read chunk count")) sink hd₄ (by omega)
    swap
    · exact ⟨_, r₅, by rw [Prog.bind_eq, StreamProg.run_bind, h₅, Prog.andThen_error]⟩
    rw [Prog.bind_eq, StreamProg.run_bind, h₅, Prog.andThen_ok]
    obtain ⟨r₆, ⟨t, B₆, rfl, hd₆, hs₆, h₆⟩ | ⟨e, h₆⟩⟩ := run_readExactOr_cases fuel 32 (fun _ =>
      .err (.invalidFormat "Failed to read header HMAC")) sink hd₅ (by omega)
    swap
    · exact ⟨_, r₆, by rw [Prog.bind_eq, StreamProg.run_bind, h₆, Prog.andThen_error]⟩
    -- all six fields together are no fewer bytes than the header has
    simp only [List.length_append, U8Array.length_val] at hshort
    omega

/-- From a reader that delivers enough bytes, reading decides by the first 73 of them, and leaves
the others when it accepts. -/
theorem run_read_long {fuel : ℕ} (key : U8Array 32) {B : Bytes} {r : Reader} (sink : Sink)
    (hr : Delivers B r) (hfuel : r.size < fuel) (hlong : headerLen ≤ B.length) :
    ∃ x r', parse P key (B.take headerLen) = some x ∧ x ≠ .error .panic ∧
      StreamProg.run (read P fuel key) ⟨r, sink⟩ = some (x, ⟨r', sink⟩) ∧
      ∀ h, x = .ok h → Delivers (B.drop headerLen) r' := by
  have hlen : (B.take headerLen).length = headerLen := by
    rw [List.length_take, Nat.min_eq_left hlong]
  obtain ⟨m, a, s, n, c, t, hfields⟩ := exists_fields hlen
  have hB : B = m.val ++ (a.val ++ (s.val ++ (n.val ++ (c.val ++ (t.val ++
      B.drop headerLen))))) := by
    conv_lhs => rw [← List.take_append_drop headerLen B, hfields]
    simp
  rw [hB] at hr
  obtain ⟨r', hrun, hrest⟩ := run_read_append P key m a s n c t sink hr hfuel
  exact ⟨_, r', by rw [hfields, parse_append], ofFields_ne_panic P key m a s n c t, hrun, hrest⟩

/-- With a tag check that is equality, parsing accepts exactly what is written. -/
theorem parse_eq_ok_iff_eq_bytes
    (hverify : ∀ key msg tag, P.hmacVerify key msg tag = true ↔ tag = (P.hmacSha256 key msg).val)
    {key : U8Array 32} {raw : Bytes} (hraw : raw.length = headerLen) {h : Header} :
    parse P key raw = some (.ok h) ↔ raw = h.bytes P key := by
  rw [parse_eq_ok_iff P hraw]
  constructor
  · rintro ⟨t, rfl, ht⟩
    rw [(hverify _ _ _).mp ht]
    rfl
  · rintro rfl
    exact ⟨_, rfl, (hverify _ _ _).mpr rfl⟩

/-- With a tag check that is equality, reading from any reader ends with a header or an error. It
accepts exactly the inputs whose first 73 bytes are a written header, returns that header and
leaves the bytes after it. -/
theorem run_read_of_delivers
    (hverify : ∀ key msg tag, P.hmacVerify key msg tag = true ↔ tag = (P.hmacSha256 key msg).val)
    {fuel : ℕ} (key : U8Array 32) {B : Bytes} {r : Reader} (sink : Sink) (hr : Delivers B r)
    (hfuel : r.size < fuel) :
    ∃ x r', StreamProg.run (read P fuel key) ⟨r, sink⟩ = some (x, ⟨r', sink⟩) ∧
      x ≠ .error .panic ∧
      ∀ h, (x = .ok h ↔ B.take headerLen = h.bytes P key) ∧
        (x = .ok h → Delivers (B.drop headerLen) r') := by
  by_cases hlong : headerLen ≤ B.length
  · obtain ⟨x, r', hparse, hne, hrun, hrest⟩ := run_read_long P key sink hr hfuel hlong
    have htake : (B.take headerLen).length = headerLen := by
      rw [List.length_take, Nat.min_eq_left hlong]
    refine ⟨x, r', hrun, hne, fun h => ⟨?_, hrest h⟩⟩
    rw [← parse_eq_ok_iff_eq_bytes P hverify htake, hparse, Option.some.injEq]
  · obtain ⟨e, r', hrun⟩ := run_read_short P key sink hr hfuel (by omega)
    refine ⟨_, r', hrun, nofun, fun h => ⟨⟨nofun, fun heq => ?_⟩, nofun⟩⟩
    -- a written header is not shorter than a header
    have hlen := congrArg List.length heq
    rw [List.length_take, length_bytes] at hlen
    omega

/-- The header codec is exact. Writing a header to a sink that takes it emits 73 bytes. Reading them
back, whatever follows and however the reader splits them, returns the header and leaves what
follows. Reading any input at all ends with a header or an error, and with a header exactly when
the first 73 bytes are that header written. So one key accepts one string of 73 bytes for each
header. -/
theorem codec_exact
    (hverify : ∀ key msg tag, P.hmacVerify key msg tag = true ↔ tag = (P.hmacSha256 key msg).val)
    (key : U8Array 32) :
    (∀ (h : Header) (r : Reader) (sink : Sink), sink.faults = [] →
      StreamProg.run (h.write P key) ⟨r, sink⟩ =
          some (.ok (), ⟨r, { sink with written := sink.written ++ h.bytes P key }⟩) ∧
        (h.bytes P key).length = 73) ∧
    (∀ (h : Header) (rest : Bytes) (r : Reader) (sink : Sink) (fuel : ℕ),
      Delivers (h.bytes P key ++ rest) r → r.size < fuel →
      ∃ r', StreamProg.run (read P fuel key) ⟨r, sink⟩ = some (.ok h, ⟨r', sink⟩) ∧
        Delivers rest r') ∧
    (∀ (s : Bytes) (r : Reader) (sink : Sink) (fuel : ℕ), Delivers s r → r.size < fuel →
      ∃ x r', StreamProg.run (read P fuel key) ⟨r, sink⟩ = some (x, ⟨r', sink⟩) ∧
        x ≠ .error .panic ∧ ∀ h, x = .ok h ↔ s.take 73 = h.bytes P key) ∧
    (∀ (s s' : Bytes) (h : Header), s.length = 73 → s'.length = 73 →
      parse P key s = some (.ok h) → parse P key s' = some (.ok h) → s = s') := by
  refine ⟨?_, ?_, ?_, ?_⟩
  · intro h r sink hsink
    exact ⟨run_write_ok P h key r sink hsink, length_bytes P h key⟩
  · intro h rest r sink fuel hr hfuel
    obtain ⟨x, r', hrun, -, hx⟩ := run_read_of_delivers P hverify key sink hr hfuel
    have hlen : (h.bytes P key).length = headerLen := length_bytes P h key
    obtain rfl := (hx h).1.mpr (by rw [← hlen, List.take_left])
    have hrest := (hx h).2 rfl
    rw [← hlen, List.drop_left] at hrest
    exact ⟨r', hrun, hrest⟩
  · intro s r sink fuel hr hfuel
    obtain ⟨x, r', hrun, hne, hx⟩ := run_read_of_delivers P hverify key sink hr hfuel
    exact ⟨x, r', hrun, hne, fun h => (hx h).1⟩
  · intro s s' h hs hs' hparse hparse'
    rw [(parse_eq_ok_iff_eq_bytes P hverify hs).mp hparse,
      (parse_eq_ok_iff_eq_bytes P hverify hs').mp hparse']

/-- The codec on a header without secrecy, followed by one byte. -/
theorem codec_exact_transparent :
    ∃ r', StreamProg.run (read transparent 80 (checksum 32 []))
        ⟨Reader.ofSlice (bytes transparent ⟨.aes256Gcm, checksum 16 [], checksum 12 [], 0⟩
          (checksum 32 []) ++ [7]), {}⟩ =
        some (.ok ⟨.aes256Gcm, checksum 16 [], checksum 12 [], 0⟩, ⟨r', {}⟩) ∧
      Delivers [7] r' :=
  (codec_exact transparent (by simp [transparent]) (checksum 32 [])).2.1 _ [7] _ {} 80
    (delivers_ofSlice _) (by simp [headerLen, saltLen, nonceLen, hmacLen])

end Header

end Cry
