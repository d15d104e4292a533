import Cry.Cli.Verify
import Cry.Keygen.Coherence

/-!
# The sign command

`sign` derives an identity from a passphrase and a context and shows its public key and a signature
over a file. The public key is the text that `derive` leaves in the public key file for the same
passphrase and context, and `verify` takes both texts.

What `sign` shows beside these, the file and the command to verify with, is left out.

## Main results

* `publicKey_of_run`: what `derive` leaves in the public key file;
* `verify_of_derive_sign`: under the public key that `derive` has left in its file, `verify` accepts
  what `sign` shows exactly for the signed content and the same identity;
* `main_sign`: the command is the one that the dispatch runs.
-/

namespace Cry

open Rust Effects

namespace Keygen.Call

variable {K : KeyPrimitives} {P : Primitives}

/-- After a successful run every output holds an encoding of the key of the run. -/
theorem describes_of_run {call : Call K} {files files' : Files} {schedule : Script.Schedule IoError}
    (hrun : (call.prog P).run files schedule = some (.ok (), files')) {f : KeyFile}
    (hout : f.path call.base ∈ call.outputs) :
    ∃ key content, call.material P = some key ∧ files' (f.path call.base) = some content ∧
      key.Describes content f := by
  obtain ⟨hstop, rfl⟩ := ok_of_run P hrun
  obtain ⟨key, hmaterial, houtputs, hencodes⟩ := body_writes P hstop
  rw [← houtputs] at hout
  obtain ⟨⟨path, content⟩, hmem, hpath⟩ := List.mem_map.mp hout
  obtain ⟨f', hf', hdescribes⟩ := hencodes _ hmem
  obtain rfl : f = f' := KeyFile.path_injective _ (hpath.symm.trans hf')
  refine ⟨key, content, hmaterial, ?_, hdescribes⟩
  rw [← hpath, Script.replay_of_mem (body_orderly P call).nodup_writes hmem]

/-- A successful run of `derive` for an identity leaves its public key, as the text that is shown
for it, in the public key file. -/
theorem publicKey_of_run {args : DeriveArgs} (halgo : args.algo = .ed25519) {passphrase : Bytes}
    {opensshPassphrase : Option Bytes} {sshDraw : K.Draw} {files files' : Files}
    {schedule : Script.Schedule IoError}
    (hrun : ((derive args passphrase opensshPassphrase sshDraw).prog P).run files schedule =
      some (.ok (), files')) :
    ∃ id, Crydna.Identity.derive P passphrase args.ns args.keyVersion args.subId = .ok id ∧
      files' (pubPath args.output) = some (utf8 (id.publicKeyHex K)) := by
  have hout : KeyFile.pub.path args.output ∈
      (derive args passphrase opensshPassphrase sshDraw : Call K).outputs := by
    cases hopenssh : args.openssh <;>
      simp [outputs, outputsOf, halgo, hopenssh, keyFiles, KeyFile.path]
  obtain ⟨key, content, hmaterial, hcontent, hdescribes⟩ := describes_of_run hrun hout
  simp only [material, halgo] at hmaterial
  cases hid : Crydna.Identity.derive P passphrase args.ns args.keyVersion args.subId with
  | error e =>
    rw [hid] at hmaterial
    cases hmaterial
  | ok id =>
    rw [hid] at hmaterial
    obtain rfl := Option.some.inj hmaterial
    refine ⟨id, rfl, hcontent.trans (congrArg some ?_)⟩
    rw [Crydna.Identity.publicKeyHex, Crydna.utf8_bytesToHex]
    exact hdescribes

end Keygen.Call

namespace Cli

open Crydna Keygen

variable (P : Primitives) (K : KeyPrimitives) (S : SignaturePrimitives)

/-- What `sign` shows of a signature. -/
structure SignReport where
  publicKey : String
  signature : String

/-- The `sign` command on the result of reading its file and its passphrase. -/
def sign (content : Except IoError Bytes) (passphrase : Except CryError Bytes) (args : SignArgs) :
    Except Stop SignReport := do
  let bytes ← ofIo content
  let pass ← passphrase.mapError .err
  let id ← Identity.derive P pass args.ns args.keyVersion args.subId
  let sig := id.signContent P S bytes
  pure { publicKey := id.publicKeyHex K, signature := signatureHex sig }

variable {P K S}

/-- A signature that is shown is one of the identity that is derived. -/
theorem sign_eq_ok_iff {content passphrase : Bytes} {args : SignArgs} {report : SignReport} :
    sign P K S (.ok content) (.ok passphrase) args = .ok report ↔
      ∃ id, Identity.derive P passphrase args.ns args.keyVersion args.subId = .ok id ∧
        report = ⟨id.publicKeyHex K, signatureHex (id.signContent P S content)⟩ := by
  show (Identity.derive P passphrase args.ns args.keyVersion args.subId >>= _) = _ ↔ _
  rw [bind_eq_ok_iff]
  simp only [pure, Except.pure, Except.ok.injEq, eq_comm]

/-- What `verify` makes of a signature that was shown, under the public key of any identity. -/
theorem verify_signature (hexact : S.Exact K) {content content' : Bytes}
    (hsha : Set.InjOn P.sha256 {content, content', sigDomain ++ (P.sha256 content).val,
      sigDomain ++ (P.sha256 content').val}) (id id' : Identity) (file : Bytes) :
    ((∃ shown, verify P S (.ok content')
        ⟨file, signatureHex (id.signContent P S content), id'.publicKeyHex K⟩ = .ok shown) ↔
      id'.publicKeyHex K = id.publicKeyHex K ∧ content' = content) ∧
      (¬(id'.publicKeyHex K = id.publicKeyHex K ∧ content' = content) →
        verify P S (.ok content')
          ⟨file, signatureHex (id.signContent P S content), id'.publicKeyHex K⟩ =
            .error signatureInvalid) := by
  have hkeys : id'.publicKeyHex K = id.publicKeyHex K ↔
      K.verifyingKey id'.signingKey = K.verifyingKey id.signingKey :=
    bytesToHex_injective.eq_iff.trans Subtype.ext_iff.symm
  have hdenotes : Denotes (signatureHex (id.signContent P S content))
      (id.signContent P S content).val :=
    hexToBytes_eq_ok_iff.mp (hexToBytes_bytesToHex _)
  obtain ⟨shown, hshown⟩ := shownSignature_ok hdenotes
  simp only [verify, ofIo_ok, bind, Except.bind, verifyContentSignature_sign hexact hsha, hkeys]
  by_cases hsame : K.verifyingKey id'.signingKey = K.verifyingKey id.signingKey ∧
      content' = content
  · simp [hsame, hshown]
  · simp [hsame]

/-- The three commands agree. When `derive` for an identity has succeeded and `sign` shows a
signature, `verify` accepts it under the public key in the file that `derive` has left if and only
if the content is the one that was signed and the key in the file is the one that `sign` shows, as
it is for the same passphrase and context; else it reports that the signature is invalid. -/
theorem verify_of_derive_sign (hexact : S.Exact K) {content content' : Bytes}
    (hsha : Set.InjOn P.sha256 {content, content', sigDomain ++ (P.sha256 content).val,
      sigDomain ++ (P.sha256 content').val})
    {derived : DeriveArgs} (halgo : derived.algo = .ed25519) {passphrase passphrase' : Bytes}
    {opensshPassphrase : Option Bytes} {sshDraw : K.Draw} {files files' : Files}
    {schedule : Script.Schedule IoError}
    (hrun : ((Call.derive derived passphrase opensshPassphrase sshDraw).prog P).run files schedule =
      some (.ok (), files'))
    {signer : SignArgs} {report : SignReport}
    (hsign : sign P K S (.ok content) (.ok passphrase') signer = .ok report) :
    ∃ publicKey, files' (pubPath derived.output) = some (utf8 publicKey) ∧
      (passphrase' = passphrase → signer.ns = derived.ns → signer.keyVersion = derived.keyVersion →
        signer.subId = derived.subId → publicKey = report.publicKey) ∧
      ∀ file,
        ((∃ shown, verify P S (.ok content') ⟨file, report.signature, publicKey⟩ = .ok shown) ↔
          publicKey = report.publicKey ∧ content' = content) ∧
        (¬(publicKey = report.publicKey ∧ content' = content) →
          verify P S (.ok content') ⟨file, report.signature, publicKey⟩ =
            .error signatureInvalid) := by
  obtain ⟨id', hid', hfile⟩ := Call.publicKey_of_run halgo hrun
  obtain ⟨id, hid, rfl⟩ := sign_eq_ok_iff.mp hsign
  refine ⟨_, hfile, ?_, fun file => verify_signature hexact hsha id id' file⟩
  rintro rfl hns hversion hsub
  rw [hns, hversion, hsub, hid'] at hid
  rw [Except.ok.inj hid]

/-- The key pair of a passphrase, without secrecy. -/
def derivePair : Call transparentKeys := .derive {} (utf8 "pw") none (0 : UInt8)

/-- A signature over one byte is accepted under the key in the file. -/
theorem verify_of_derive_sign_oneByte :
    ∃ files' report publicKey,
      (derivePair.prog transparent).run (fun _ => none) [] = some (.ok (), files') ∧
      sign transparent transparentKeys transparentSignatures (.ok [1]) (.ok (utf8 "pw"))
        ⟨utf8 "f", "default", 0, none, none⟩ = .ok report ∧
      files' (pubPath (utf8 "k")) = some (utf8 publicKey) ∧
      ∃ shown, verify transparent transparentSignatures (.ok [1])
        ⟨utf8 "f", report.signature, publicKey⟩ = .ok shown := by
  have hsha : Set.InjOn transparent.sha256 {[1], [1],
      sigDomain ++ (transparent.sha256 [1]).val, sigDomain ++ (transparent.sha256 [1]).val} := by
    intro x hx y hy h
    simp only [Set.mem_insert_iff, Set.mem_singleton_iff, or_self, or_self_left] at hx hy
    obtain rfl | rfl := hx <;> obtain rfl | rfl := hy <;>
      first | rfl | exact absurd h (by decide +kernel)
  have hrun : ∃ files', (derivePair.prog transparent).run (fun _ => none) [] =
      some (.ok (), files') := ⟨_, rfl⟩
  obtain ⟨files', hrun⟩ := hrun
  have hsign : sign transparent transparentKeys transparentSignatures (.ok [1]) (.ok (utf8 "pw"))
      ⟨utf8 "f", "default", 0, none, none⟩ = .ok _ := rfl
  obtain ⟨publicKey, hfile, hsame, hverify⟩ := verify_of_derive_sign transparentSignatures_exact
    hsha rfl hrun hsign
  exact ⟨files', _, publicKey, hrun, hsign, hfile,
    (hverify (utf8 "f")).1.mpr ⟨hsame rfl rfl rfl rfl, rfl⟩⟩

/-! ## The dispatch -/

/-- The dispatch ends as the command does on what it reads. -/
theorem main_sign {content : Except IoError Bytes} {passphrase : Except CryError Bytes}
    {args : SignArgs} (answer : (o : CliOp) → CliRes o)
    (hread : answer (.readFile args.file) = content)
    (hpass : Prog.run (fun o (s : Unit) => (answer o, s)) (readPassphrase args.passFile false) () =
      some (passphrase, ()))
    (hderive : ∀ pass, passphrase = .ok pass →
      (answer (.identityDerive pass ⟨args.ns, args.keyVersion, args.subId⟩)).mapError .err =
        Identity.derive P pass args.ns args.keyVersion args.subId) :
    (Prog.run (fun o (s : Unit) => (answer o, s)) (main (.sign args)) ()).map
        (fun x => x.1.mapError .err) = some (ended (sign P K S content passphrase args)) := by
  subst hread
  rw [main, Prog.bind_eq, Prog.perform_bind, Prog.run_op]
  cases hread : answer (.readFile args.file) with
  | error e => rfl
  | ok bytes =>
    simp only [orIo, Prog.bind_eq, Prog.pure_bind]
    rw [Prog.run_bind, hpass]
    cases passphrase with
    | error e => rfl
    | ok pass =>
      have hcall := hderive pass rfl
      rw [Prog.andThen_ok, Prog.perform_bind, Prog.run_op]
      simp only [sign, ofIo_ok, Except.mapError, bind, Except.bind]
      rw [← hcall]
      cases answer (.identityDerive pass ⟨args.ns, args.keyVersion, args.subId⟩) <;> rfl

end Cli

end Cry
