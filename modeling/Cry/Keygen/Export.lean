import Cry.Bytes.Base64
import Cry.Bytes.Framing
import Cry.Keygen.Coherence
import Cry.Rust.Str
import Mathlib.Data.Set.Function

/-!
# Public keys for OpenSSH

An identity describes its public key to OpenSSH in two ways: as a line of `authorized_keys`, which
carries the key in the wire format of SSH, and as a fingerprint. The wire format is two
length-prefixed strings, and the line has three parts with a space between them, the last of which
is the comment, taken as it is.

That the crate encodes Base64 is a hypothesis of the results. `KeyLine` and `opensshFingerprint` say
what OpenSSH makes of a line and of a key, and are not taken from the source.

## Main results

* `fingerprint_eq_iff`, `fingerprint_ne`: the fingerprint is a hash of the raw key, and never that
  of the exported one;
* `keyLine_iff`: the line is read back as it was written exactly when the comment has no line feed;
* `export_parses_iff`: so is what a run writes.
-/

namespace Cry

open Rust Effects

/-- The crate encodes Base64, standard and with padding. -/
def KeyPrimitives.EncodesBase64 (K : KeyPrimitives) : Prop :=
  ∀ bytes, K.base64 bytes = String.ofList (Base64.encode bytes)

/-- Transparent keys with the Base64 of the crate. -/
def base64Keys : KeyPrimitives :=
  { transparentKeys with base64 := fun bytes => String.ofList (Base64.encode bytes) }

theorem base64Keys_encodesBase64 : base64Keys.EncodesBase64 := fun _ => rfl

namespace Crydna

variable (P : Primitives) {K : KeyPrimitives}

/-! ## The exported line -/

/-- The wire format of a public key is two frames. -/
theorem sshWirePublicKey_eq (pubBytes : U8Array 32) :
    sshWirePublicKey pubBytes = Framing.frames [utf8 "ssh-ed25519", pubBytes.val] := by
  simp [sshWirePublicKey, Framing.frames, Framing.frame]

/-- The parts of an exported line. -/
theorem toList_sshAuthorizedKeysLine (hbase64 : K.EncodesBase64) (id : Identity)
    (comment : String) :
    (id.sshAuthorizedKeysLine K comment).toList =
      "ssh-ed25519".toList ++ ' ' ::
        (Base64.encode (sshWirePublicKey (K.verifyingKey id.signingKey)) ++
          ' ' :: comment.toList) := by
  have hparts : ∀ t b s c : String,
      (t ++ b ++ s ++ c).toList = t.toList ++ (b.toList ++ (s.toList ++ c.toList)) := by
    intro t b s c
    simp only [String.toList_append, List.append_assoc]
  have htype : "ssh-ed25519 ".toList = "ssh-ed25519".toList ++ [' '] := rfl
  have hspace : " ".toList ++ comment.toList = ' ' :: comment.toList := rfl
  have hblob : ∀ wire, (K.base64 wire).toList = Base64.encode wire := fun wire => by
    rw [hbase64, String.toList_ofList]
  calc (id.sshAuthorizedKeysLine K comment).toList
      = "ssh-ed25519 ".toList ++ ((K.base64 (sshWirePublicKey (K.verifyingKey
          id.signingKey))).toList ++ (" ".toList ++ comment.toList)) := hparts ..
    _ = "ssh-ed25519".toList ++ [' '] ++ (Base64.encode (sshWirePublicKey (K.verifyingKey
          id.signingKey)) ++ ' ' :: comment.toList) :=
        congrArg₂ (· ++ ·) htype (congrArg₂ (· ++ ·) (hblob _) hspace)
    _ = _ := List.append_assoc ..

/-- Base64 has no spaces and no line feeds. -/
theorem notMem_encode (bytes : Bytes) :
    ' ' ∉ Base64.encode bytes ∧ '\n' ∉ Base64.encode bytes := by
  have hnot : ∀ c, c ∉ Base64.alphabet → c ≠ '=' → c ∉ Base64.encode bytes :=
    fun _ halphabet hpadding hmem => (Base64.mem_encode hmem).elim halphabet hpadding
  exact ⟨hnot ' ' (by decide) (by decide), hnot '\n' (by decide) (by decide)⟩

/-- Split at its first two spaces, an exported line gives the type, the key and the comment. -/
theorem splitn_sshAuthorizedKeysLine (hbase64 : K.EncodesBase64) (id : Identity)
    (comment : String) :
    Str.splitn 3 ' ' (id.sshAuthorizedKeysLine K comment).toList =
      ["ssh-ed25519".toList, Base64.encode (sshWirePublicKey (K.verifyingKey id.signingKey)),
        comment.toList] := by
  rw [toList_sshAuthorizedKeysLine hbase64, Str.splitn_append (by decide),
    Str.splitn_append (notMem_encode _).1]
  rfl

/-! ## Fingerprints -/

variable (K) in
/-- The SHA-256 fingerprint, in the format of OpenSSH. -/
def Identity.fingerprint (id : Identity) : String :=
  let hash := P.sha256 (K.verifyingKey id.signingKey).val
  let b64 := K.base64 hash.val
  "SHA256:" ++ String.ofList (Str.trimEndMatches '=' b64.toList)

/-- The fingerprint that OpenSSH prints for a key: the hash of the key in the wire format, as Base64
without padding. -/
def opensshFingerprint (wire : Bytes) : String :=
  "SHA256:" ++ String.ofList (Base64.unpadded (P.sha256 wire).val)

/-- The key that a line of `authorized_keys` carries. -/
def exportedKey (line : String) : Option Bytes :=
  match Str.splitn 3 ' ' line.toList with
  | [_, blob, _] => Base64.decode blob
  | _ => none

theorem exportedKey_sshAuthorizedKeysLine (hbase64 : K.EncodesBase64) (id : Identity)
    (comment : String) :
    exportedKey (id.sshAuthorizedKeysLine K comment) =
      some (sshWirePublicKey (K.verifyingKey id.signingKey)) := by
  rw [exportedKey, splitn_sshAuthorizedKeysLine hbase64]
  exact Base64.decode_encode _

variable {P}

/-- The fingerprint is that of OpenSSH for some bytes exactly when the hash is the same. -/
theorem fingerprint_eq_iff (hbase64 : K.EncodesBase64) (id : Identity) (wire : Bytes) :
    id.fingerprint P K = opensshFingerprint P wire ↔
      P.sha256 (K.verifyingKey id.signingKey).val = P.sha256 wire := by
  have hprint : id.fingerprint P K =
      opensshFingerprint P (K.verifyingKey id.signingKey).val := by
    rw [Identity.fingerprint, hbase64, String.toList_ofList]
    rfl
  rw [hprint]
  constructor
  · intro h
    -- both hashes have 32 bytes, so their padding is of one length
    have hlist := congrArg String.toList h
    rw [opensshFingerprint, opensshFingerprint, String.toList_append, String.toList_append,
      List.append_cancel_left_eq, String.toList_ofList, String.toList_ofList] at hlist
    exact Subtype.ext (Base64.unpadded_inj (by simp) hlist)
  · intro h
    rw [opensshFingerprint, opensshFingerprint, h]

/-- The key in the wire format is longer than the raw one. -/
theorem val_ne_sshWirePublicKey (pubBytes : U8Array 32) :
    pubBytes.val ≠ sshWirePublicKey pubBytes := by
  intro h
  have hlen := congrArg List.length h
  simp only [sshWirePublicKey, List.length_append, BigEndian.length_ofU32,
    U8Array.length_val] at hlen
  omega

/-- The fingerprint is never that of the exported key: it is a hash of the raw public key, and
OpenSSH hashes the key in the wire format. -/
theorem fingerprint_ne (hbase64 : K.EncodesBase64) (id : Identity) (comment : String)
    (hsha : Set.InjOn P.sha256 {(K.verifyingKey id.signingKey).val,
      sshWirePublicKey (K.verifyingKey id.signingKey)}) :
    ∃ wire, exportedKey (id.sshAuthorizedKeysLine K comment) = some wire ∧
      id.fingerprint P K ≠ opensshFingerprint P wire := by
  refine ⟨_, exportedKey_sshAuthorizedKeysLine hbase64 id comment, ?_⟩
  rw [Ne, fingerprint_eq_iff hbase64]
  intro h
  exact val_ne_sshWirePublicKey _ (hsha (by simp) (by simp) h)

/-- The identity of the zero key. -/
def zeroIdentity : Identity := ⟨⟨List.replicate 32 0, by simp⟩⟩

/-- The transparent hash tells the raw key of this identity from the exported one. -/
theorem sha256_zeroIdentity :
    transparent.sha256 (base64Keys.verifyingKey zeroIdentity.signingKey).val ≠
      transparent.sha256 (sshWirePublicKey (base64Keys.verifyingKey zeroIdentity.signingKey)) := by
  intro h
  have hdigest := congrArg (fun hash : U8Array 32 => hash.val.head?) h
  revert hdigest
  decide +kernel

/-- So its fingerprint is not that of the exported key. -/
theorem fingerprint_ne_transparent :
    ∃ wire, exportedKey (zeroIdentity.sshAuthorizedKeysLine base64Keys "CryDNA") = some wire ∧
      zeroIdentity.fingerprint transparent base64Keys ≠ opensshFingerprint transparent wire := by
  refine fingerprint_ne base64Keys_encodesBase64 zeroIdentity "CryDNA" ?_
  rw [Set.injOn_pair]
  exact fun h => absurd h sha256_zeroIdentity

/-- The two descriptions of one key that OpenSSH compares are different. -/
theorem descriptions_differ :
    ¬∀ (id : Identity) (comment : String) (wire : Bytes),
      exportedKey (id.sshAuthorizedKeysLine base64Keys comment) = some wire →
        id.fingerprint transparent base64Keys = opensshFingerprint transparent wire := by
  intro h
  have heq := h zeroIdentity "CryDNA" _
    (exportedKey_sshAuthorizedKeysLine base64Keys_encodesBase64 _ _)
  rw [fingerprint_eq_iff base64Keys_encodesBase64] at heq
  exact sha256_zeroIdentity heq

/-! ## Reading the line back -/

/-- The content is one line of `authorized_keys` with the key and the comment: between its first two
spaces there is the Base64 of two frames, the type and the key. -/
def KeyLine (content : String) (pubBytes : U8Array 32) (comment : String) : Prop :=
  ∃ line blob wire, content.toList = line ++ ['\n'] ∧ '\n' ∉ line ∧
    Str.splitn 3 ' ' line = ["ssh-ed25519".toList, blob, comment.toList] ∧
    Base64.decode blob = some wire ∧
    Framing.parse wire = some [utf8 "ssh-ed25519", pubBytes.val]

/-- The wire format of a public key is read back, to its last byte. -/
theorem parse_sshWirePublicKey (pubBytes : U8Array 32) :
    Framing.parse (sshWirePublicKey pubBytes) = some [utf8 "ssh-ed25519", pubBytes.val] := by
  rw [sshWirePublicKey_eq]
  refine Framing.parse_frames fun c hc => ?_
  simp only [List.mem_cons, List.not_mem_nil, or_false] at hc
  obtain rfl | rfl := hc
  · decide
  · simp

/-- The line is read back as it was written exactly when the comment has no line feed. -/
theorem keyLine_iff (hbase64 : K.EncodesBase64) (id : Identity) (comment : String) :
    KeyLine (id.sshAuthorizedKeysLine K comment ++ "\n") (K.verifyingKey id.signingKey) comment ↔
      '\n' ∉ comment.toList := by
  have hcontent : (id.sshAuthorizedKeysLine K comment ++ "\n").toList =
      (id.sshAuthorizedKeysLine K comment).toList ++ ['\n'] := String.toList_append
  have hparts := toList_sshAuthorizedKeysLine hbase64 id comment
  constructor
  · rintro ⟨line, -, -, hline, hfeed, -⟩
    -- the comment is a part of the line
    obtain rfl := List.append_cancel_right (hcontent.symm.trans hline)
    rw [hparts] at hfeed
    exact fun hmem => hfeed (by simp [hmem])
  · intro hfeed
    refine ⟨_, _, _, hcontent, ?_, splitn_sshAuthorizedKeysLine hbase64 id comment,
      Base64.decode_encode _, parse_sshWirePublicKey _⟩
    rw [hparts, List.mem_append, List.mem_cons, List.mem_append, List.mem_cons]
    rintro (h | h | h | h | h)
    · exact absurd h (by decide)
    · exact absurd h (by decide)
    · exact (notMem_encode _).2 h
    · exact absurd h (by decide)
    · exact hfeed h

end Crydna

namespace Keygen

namespace Call

variable {K : KeyPrimitives} (P : Primitives)

/-- The comment. -/
def comment : Call K → String
  | keygen args _ _ _ => args.comment
  | derive args _ _ _ => args.comment

/-- Only the Ed25519 arms write the OpenSSH public key line, and only on demand. -/
theorem openssh_of_mem_outputsOf {base : Bytes} {algo : KeyAlgorithm} {openssh : Bool}
    (h : opensshPubPath (privPath base) ∈ outputsOf base algo openssh) :
    algo = .ed25519 ∧ openssh = true := by
  have hnodup := nodup_keyFiles base
  simp only [keyFiles, List.nodup_cons, List.mem_cons, List.not_mem_nil, or_false, not_or] at hnodup
  obtain ⟨⟨-, -, hpriv⟩, ⟨-, hpub⟩, -⟩ := hnodup
  cases algo with
  | ed25519 =>
    cases openssh with
    | true => exact ⟨rfl, rfl⟩
    | false => simp [outputsOf, Ne.symm hpriv, Ne.symm hpub] at h
  | aes256Gcm => simp [outputsOf, Ne.symm hpriv] at h
  | rsa => simp [outputsOf, Ne.symm hpriv, Ne.symm hpub] at h

/-- A run in which nothing fails, and which writes the line at all, writes that of its key with its
comment. -/
theorem body_writes_line {call : Call K} (h : ∀ e, .stop e ∉ call.body P)
    (hout : opensshPubPath (privPath call.base) ∈ call.outputs) :
    ∃ id, call.material P = some (.ed25519 id) ∧
      (opensshPubPath (privPath call.base),
          utf8 (id.sshAuthorizedKeysLine K call.comment ++ "\n")) ∈
        Script.writes (call.body P) := by
  cases call with
  | keygen args opensshPassphrase draw sshDraw =>
    obtain ⟨halgo, hopenssh⟩ := openssh_of_mem_outputsOf hout
    simp only [body, material, base, comment, halgo, hopenssh] at h ⊢
    obtain ⟨passphrase, pem, -, hwrites⟩ := identitySteps_writes_openssh h
    exact ⟨_, rfl, by rw [hwrites]; simp [KeyFile.path]⟩
  | derive args passphrase opensshPassphrase sshDraw =>
    have hrsa : args.algo ≠ .rsa := by
      intro halgo
      simp [outputs, halgo] at hout
    rw [outputs, if_neg hrsa] at hout
    obtain ⟨halgo, hopenssh⟩ := openssh_of_mem_outputsOf hout
    simp only [body, material, base, comment, halgo, hopenssh] at h ⊢
    obtain ⟨id, hid, hsteps⟩ := afterwards_of_stop_notMem h
    rw [hsteps] at h ⊢
    obtain ⟨passphrase, pem, -, hwrites⟩ := identitySteps_writes_openssh h
    exact ⟨id, by rw [hid]; rfl, by rw [hwrites]; simp [KeyFile.path]⟩

/-- After a successful run that writes it, the file holds the line of the key of the run. -/
theorem line_of_run {call : Call K} {files files' : Files} {schedule : Script.Schedule IoError}
    (hrun : (call.prog P).run files schedule = some (.ok (), files'))
    (hout : opensshPubPath (privPath call.base) ∈ call.outputs) :
    ∃ id, call.material P = some (.ed25519 id) ∧ files' (opensshPubPath (privPath call.base)) =
      some (utf8 (id.sshAuthorizedKeysLine K call.comment ++ "\n")) := by
  obtain ⟨hstop, rfl⟩ := ok_of_run P hrun
  obtain ⟨id, hmaterial, hmem⟩ := body_writes_line P hstop hout
  exact ⟨id, hmaterial, Script.replay_of_mem (body_orderly P call).nodup_writes hmem _⟩

/-- What a run exports is read back exactly when the comment has no line feed. The line of an
identity is, for every identity and comment, and that line is what every successful run leaves in
the file of the OpenSSH public key when it writes this file. -/
theorem export_parses_iff (hbase64 : K.EncodesBase64) :
    (∀ (id : Crydna.Identity) (comment : String),
      Crydna.KeyLine (id.sshAuthorizedKeysLine K comment ++ "\n") (K.verifyingKey id.signingKey)
        comment ↔ '\n' ∉ comment.toList) ∧
      ∀ (call : Call K) (files files' : Files) (schedule : Script.Schedule IoError),
        (call.prog P).run files schedule = some (.ok (), files') →
        opensshPubPath (privPath call.base) ∈ call.outputs →
          ∃ id content, call.material P = some (.ed25519 id) ∧
            files' (opensshPubPath (privPath call.base)) = some (utf8 content) ∧
            (Crydna.KeyLine content (K.verifyingKey id.signingKey) call.comment ↔
              '\n' ∉ call.comment.toList) := by
  refine ⟨Crydna.keyLine_iff hbase64, fun call files files' schedule hrun hout => ?_⟩
  obtain ⟨id, hmaterial, hcontent⟩ := line_of_run P hrun hout
  exact ⟨id, _, hmaterial, hcontent, Crydna.keyLine_iff hbase64 id call.comment⟩

/-- A run of `keygen` that writes all four files, with transparent keys. -/
def base64Keygen (comment : String) : Call base64Keys :=
  .keygen { openssh := true, comment := comment } (some (utf8 "pw")) (7 : UInt8) (7 : UInt8)

/-- In an empty directory it completes. -/
theorem run_base64Keygen (comment : String) :
    ∃ files', ((base64Keygen comment).prog transparent).run (fun _ => none) [] =
      some (.ok (), files') := by
  have hfailure : (base64Keygen comment).failure transparent (fun _ => none) [] = none := by
    rw [failure_of_free transparent [] fun _ _ => rfl]
    simp [script, outputs, outputsOf, keyFiles, body, base64Keygen, identitySteps, opensshSteps,
      fromUtf8_utf8, afterwards, Crydna.Identity.opensshPrivateKey, invalidFormat, base64Keys,
      transparentKeys, Script.firstFailure, Step.failure]
    rfl
  have hrun := run_eq transparent (base64Keygen comment) (fun _ => none) []
  rw [hfailure] at hrun
  exact ⟨_, hrun⟩

theorem opensshPubPath_mem_base64Keygen (comment : String) :
    opensshPubPath (privPath (base64Keygen comment).base) ∈ (base64Keygen comment).outputs := by
  simp [base64Keygen, outputs, outputsOf, base, keyFiles]

/-- A comment of two words is read back from the file. -/
theorem export_parses_two_words :
    ∃ files' id content, ((base64Keygen "two words").prog transparent).run (fun _ => none) [] =
        some (.ok (), files') ∧
      files' (opensshPubPath (privPath (utf8 "k"))) = some (utf8 content) ∧
      Crydna.KeyLine content (base64Keys.verifyingKey id) "two words" := by
  obtain ⟨files', hrun⟩ := run_base64Keygen "two words"
  obtain ⟨id, content, -, hcontent, hline⟩ :=
    (export_parses_iff transparent base64Keys_encodesBase64).2 _ _ _ _ hrun
      (opensshPubPath_mem_base64Keygen _)
  exact ⟨files', id.signingKey, content, hrun, hcontent, hline.mpr (by decide)⟩

/-- A comment with a line feed adds a second line to the file. -/
theorem not_one_line :
    ∃ files' content, ((base64Keygen "a\nssh-ed25519 AAAA b").prog transparent).run
        (fun _ => none) [] = some (.ok (), files') ∧
      files' (opensshPubPath (privPath (utf8 "k"))) = some (utf8 content) ∧
      ∀ pubBytes, ¬Crydna.KeyLine content pubBytes "a\nssh-ed25519 AAAA b" := by
  obtain ⟨files', hrun⟩ := run_base64Keygen "a\nssh-ed25519 AAAA b"
  obtain ⟨id, -, hcontent⟩ := line_of_run transparent hrun (opensshPubPath_mem_base64Keygen _)
  refine ⟨files', _, hrun, hcontent, ?_⟩
  rintro pubBytes ⟨line, blob, wire, hline, hfeed, -⟩
  -- the comment is a part of the only line there is
  obtain rfl := List.append_cancel_right (String.toList_append.symm.trans hline)
  rw [Crydna.toList_sshAuthorizedKeysLine base64Keys_encodesBase64] at hfeed
  exact hfeed (by simp [comment, base64Keygen])

end Call

end Keygen

end Cry
