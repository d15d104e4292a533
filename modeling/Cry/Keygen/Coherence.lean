import Cry.Keygen.Commands

/-!
# Key files that belong together

The four files of a base are encodings of one key: the private key, its public key, the encrypted
OpenSSH private key and the OpenSSH public key line. Not every run writes all four. A run that
leaves an existing file of another key in place therefore breaks the set apart, and no other run
does.

## Main results

* `Call.body_writes`: a run that fails nowhere writes all its outputs, each an encoding of its key;
* `coherent_of_reached`: the files of a base belong to one key after every sequence of successful
  runs of which each leaves only files of its own key in place.
-/

namespace Cry

open Rust Effects

namespace Keygen

/-- The files of a base. -/
inductive KeyFile
  /-- The private key. -/
  | priv
  /-- The public key. -/
  | pub
  /-- The encrypted OpenSSH private key. -/
  | openssh
  /-- The OpenSSH public key line. -/
  | opensshPub

/-- Where a file of a base is. -/
def KeyFile.path (base : Bytes) : KeyFile → String
  | .priv => privPath base
  | .pub => pubPath base
  | .openssh => opensshPath (privPath base)
  | .opensshPub => opensshPubPath (privPath base)

theorem KeyFile.path_injective (base : Bytes) : Function.Injective (KeyFile.path base) := by
  have hnodup := nodup_keyFiles base
  simp only [keyFiles, List.nodup_cons, List.mem_cons, List.not_mem_nil, or_false, not_or] at hnodup
  obtain ⟨⟨h₁, h₂, h₃⟩, ⟨h₄, h₅⟩, h₆, -⟩ := hnodup
  intro f f' h
  cases f <;> cases f' <;> simp_all [KeyFile.path]

/-- A key of one of the algorithms. -/
inductive KeyMaterial (K : KeyPrimitives)
  | ed25519 (id : Crydna.Identity)
  | rsa (key : K.Rsa)
  | aes256Gcm (key : U8Array 32)

/-- The content is what the file holds when it belongs to the key: an encoding of the key in the
private key file and the OpenSSH private key file, and of its public key in the two others. -/
def KeyMaterial.Describes {K : KeyPrimitives} (content : Bytes) : KeyMaterial K → KeyFile → Prop
  | .ed25519 id, .priv => content = hexEncode id.signingKey.val
  | .ed25519 id, .pub => content = hexEncode (K.verifyingKey id.signingKey).val
  | .ed25519 id, .openssh => ∃ sshDraw passphrase comment,
      id.opensshPrivateKey K sshDraw passphrase comment = .ok content
  | .ed25519 id, .opensshPub => ∃ comment,
      content = utf8 (id.sshAuthorizedKeysLine K comment ++ "\n")
  | .rsa key, .priv => K.toPkcs8Pem key = some content
  | .rsa key, .pub => K.toPublicKeyPem (K.rsaPublic key) = some content
  | .aes256Gcm key, .priv => content = hexEncode key.val
  | _, _ => False

/-- Whichever of the files of a base exist belong to one key. -/
def Coherent (K : KeyPrimitives) (base : Bytes) (files : Files) : Prop :=
  ∃ key : KeyMaterial K, ∀ f content, files (f.path base) = some content → key.Describes content f

namespace Call

variable {K : KeyPrimitives} (P : Primitives)

/-- The key that a run makes. -/
def material : Call K → Option (KeyMaterial K)
  | keygen args _ draw _ =>
    match args.algo with
    | .ed25519 => some (.ed25519 { signingKey := K.generate draw })
    | .aes256Gcm => some (.aes256Gcm (K.fillBytes draw))
    | .rsa => (K.rsaNew draw args.bits).toOption.map .rsa
  | derive args passphrase _ _ =>
    match args.algo with
    | .ed25519 =>
      (Crydna.Identity.derive P passphrase args.ns args.keyVersion args.subId).toOption.map
        .ed25519
    | .aes256Gcm =>
      (deriveAesKey P passphrase args.ns args.keyVersion args.subId).toOption.map .aes256Gcm
    | .rsa => none

/-- The files that the run finds and does not write belong to the key it makes. -/
def KeepsOwn (call : Call K) (files : Files) : Prop :=
  ∀ (f : KeyFile) content, f.path call.base ∉ call.outputs →
    files (f.path call.base) = some content →
      ∃ key, call.material P = some key ∧ key.Describes content f

/-- Every write is that of an encoding of the key. -/
def Encodes (key : KeyMaterial K) (base : Bytes) (ws : List (String × Bytes)) : Prop :=
  ∀ w ∈ ws, ∃ f : KeyFile, w.1 = f.path base ∧ key.Describes w.2 f

private theorem encodes_nil {key : KeyMaterial K} {base : Bytes} : Encodes key base [] := by
  simp [Encodes]

private theorem encodes_cons {key : KeyMaterial K} {base content : Bytes}
    {ws : List (String × Bytes)} (f : KeyFile) (h : key.Describes content f)
    (hws : Encodes key base ws) : Encodes key base ((f.path base, content) :: ws) :=
  List.forall_mem_cons.mpr ⟨⟨f, rfl, h⟩, hws⟩

/-- When the steps do not give up, the computation before them has succeeded. -/
theorem afterwards_of_stop_notMem {α : Type} {x : Except Stop α}
    {steps : α → List KeyStep} (h : ∀ e, .stop e ∉ afterwards x steps) :
    ∃ a, x = .ok a ∧ afterwards x steps = steps a := by
  cases x with
  | ok a => exact ⟨a, rfl, rfl⟩
  | error e => exact absurd (by simp [afterwards]) (h e)

/-- The OpenSSH steps, when they do not give up, write both OpenSSH files. -/
theorem opensshSteps_writes {sshDraw : K.Draw} {id : Crydna.Identity} {base : Bytes}
    {opensshPassphrase : Option Bytes} {comment : String}
    (h : ∀ e, .stop e ∉ opensshSteps K sshDraw id (privPath base) opensshPassphrase comment) :
    ∃ passphrase pem, id.opensshPrivateKey K sshDraw passphrase comment = .ok pem ∧
      Script.writes (opensshSteps K sshDraw id (privPath base) opensshPassphrase comment) =
        [(KeyFile.openssh.path base, pem), (KeyFile.opensshPub.path base,
          utf8 (id.sshAuthorizedKeysLine K comment ++ "\n"))] := by
  cases opensshPassphrase with
  | none => simp [opensshSteps] at h
  | some passphrase =>
    simp only [opensshSteps] at h ⊢
    cases hutf8 : fromUtf8 passphrase with
    | none => simp [hutf8] at h
    | some passphrase' =>
      simp only [hutf8] at h
      -- the guard in front never gives up
      have hpem : ∀ e, .stop e ∉ afterwards
          (id.opensshPrivateKey K sshDraw passphrase' comment) _ :=
        fun e he => h e (List.mem_cons_of_mem _ he)
      obtain ⟨pem, hpem, hsteps⟩ := afterwards_of_stop_notMem hpem
      refine ⟨passphrase', pem, hpem, ?_⟩
      dsimp only
      rw [hsteps]
      rfl

/-- With the OpenSSH files, the steps for an identity write four files when they do not give up. -/
theorem identitySteps_writes_openssh {sshDraw : K.Draw} {id : Crydna.Identity} {base : Bytes}
    {opensshPassphrase : Option Bytes} {comment : String}
    (h : ∀ e, .stop e ∉ identitySteps K sshDraw id (privPath base) (pubPath base) true
      opensshPassphrase comment) :
    ∃ passphrase pem, id.opensshPrivateKey K sshDraw passphrase comment = .ok pem ∧
      Script.writes (identitySteps K sshDraw id (privPath base) (pubPath base) true
        opensshPassphrase comment) =
          [(KeyFile.priv.path base, hexEncode id.signingKey.val),
            (KeyFile.pub.path base, hexEncode (K.verifyingKey id.signingKey).val),
            (KeyFile.openssh.path base, pem), (KeyFile.opensshPub.path base,
              utf8 (id.sshAuthorizedKeysLine K comment ++ "\n"))] := by
  have hstop : ∀ e, .stop e ∉ opensshSteps K sshDraw id (privPath base) opensshPassphrase
      comment := fun e he => h e (by simp [identitySteps, he])
  obtain ⟨passphrase, pem, hpem, hwrites⟩ := opensshSteps_writes hstop
  refine ⟨passphrase, pem, hpem, ?_⟩
  -- the two plain files come first, then the two of OpenSSH
  calc Script.writes (identitySteps K sshDraw id (privPath base) (pubPath base) true
        opensshPassphrase comment)
      = (KeyFile.priv.path base, hexEncode id.signingKey.val) ::
          (KeyFile.pub.path base, hexEncode (K.verifyingKey id.signingKey).val) ::
            Script.writes (opensshSteps K sshDraw id (privPath base) opensshPassphrase comment) :=
        rfl
    _ = _ := by rw [hwrites]

/-- The steps for an identity, when they do not give up, write all outputs, each an encoding of the
identity. -/
theorem identitySteps_writes {sshDraw : K.Draw} {id : Crydna.Identity} {base : Bytes}
    {openssh : Bool} {opensshPassphrase : Option Bytes} {comment : String}
    (h : ∀ e, .stop e ∉ identitySteps K sshDraw id (privPath base) (pubPath base) openssh
      opensshPassphrase comment) :
    (Script.writes (identitySteps K sshDraw id (privPath base) (pubPath base) openssh
      opensshPassphrase comment)).map Prod.fst = outputsOf base .ed25519 openssh ∧
      Encodes (.ed25519 id : KeyMaterial K) base (Script.writes (identitySteps K sshDraw id
        (privPath base) (pubPath base) openssh opensshPassphrase comment)) := by
  have hpriv : KeyMaterial.Describes (hexEncode id.signingKey.val)
    (.ed25519 id : KeyMaterial K) .priv := rfl
  have hpub : KeyMaterial.Describes (hexEncode (K.verifyingKey id.signingKey).val)
    (.ed25519 id : KeyMaterial K) .pub := rfl
  cases openssh with
  | false =>
    exact ⟨rfl, encodes_cons .priv hpriv (encodes_cons .pub hpub encodes_nil)⟩
  | true =>
    obtain ⟨passphrase, pem, hpem, hall⟩ := identitySteps_writes_openssh h
    rw [hall]
    refine ⟨rfl, encodes_cons .priv hpriv (encodes_cons .pub hpub ?_)⟩
    exact encodes_cons .openssh ⟨sshDraw, passphrase, comment, hpem⟩
      (encodes_cons .opensshPub ⟨comment, rfl⟩ encodes_nil)

/-- A run in which nothing fails writes all its outputs, each an encoding of the key it makes. -/
theorem body_writes {call : Call K} (h : ∀ e, .stop e ∉ call.body P) :
    ∃ key, call.material P = some key ∧
      (Script.writes (call.body P)).map Prod.fst = call.outputs ∧
        Encodes key call.base (Script.writes (call.body P)) := by
  cases call with
  | keygen args opensshPassphrase draw sshDraw =>
    simp only [body, material, outputs, base] at h ⊢
    cases halgo : args.algo with
    | ed25519 =>
      simp only [halgo] at h
      exact ⟨_, rfl, identitySteps_writes h⟩
    | aes256Gcm =>
      exact ⟨_, rfl, rfl, encodes_cons .priv rfl encodes_nil⟩
    | rsa =>
      simp only [halgo] at h ⊢
      -- generating, encoding the private key and encoding the public key have all succeeded
      obtain ⟨priv, hpriv, hsteps⟩ := afterwards_of_stop_notMem h
      rw [hsteps] at h ⊢
      obtain ⟨pem, hpem, hsteps⟩ := afterwards_of_stop_notMem h
      rw [hsteps] at h ⊢
      obtain ⟨publicPem, hpublic, hsteps⟩ :=
        afterwards_of_stop_notMem fun e he => h e (List.mem_cons_of_mem _ he)
      rw [hsteps, invalidFormat_eq_ok hpriv]
      exact ⟨_, rfl, rfl, encodes_cons .priv (unwrap_eq_ok hpem)
        (encodes_cons .pub (unwrap_eq_ok hpublic) encodes_nil)⟩
  | derive args passphrase opensshPassphrase sshDraw =>
    simp only [body, material, outputs, base] at h ⊢
    cases halgo : args.algo with
    | ed25519 =>
      simp only [halgo] at h ⊢
      obtain ⟨id, hid, hsteps⟩ := afterwards_of_stop_notMem h
      rw [hsteps] at h ⊢
      rw [hid]
      exact ⟨_, rfl, identitySteps_writes h⟩
    | aes256Gcm =>
      simp only [halgo] at h ⊢
      obtain ⟨okm, hokm, hsteps⟩ := afterwards_of_stop_notMem h
      rw [hsteps, hokm]
      exact ⟨_, rfl, rfl, encodes_cons .priv rfl encodes_nil⟩
    | rsa => simp [halgo] at h

/-- After a successful run that leaves only files of its own key in place, the files of its base
belong together, whatever they were before. -/
theorem coherent_of_run {call : Call K} {files files' : Files} {schedule : Script.Schedule IoError}
    (hrun : (call.prog P).run files schedule = some (.ok (), files'))
    (hkeeps : call.KeepsOwn P files) : Coherent K call.base files' := by
  obtain ⟨hstop, rfl⟩ := ok_of_run P hrun
  obtain ⟨key, hmaterial, houtputs, hencodes⟩ := body_writes P hstop
  refine ⟨key, fun f content hcontent => ?_⟩
  by_cases hout : f.path call.base ∈ call.outputs
  · -- written by this run
    rw [← houtputs] at hout
    obtain ⟨⟨path, content'⟩, hmem, hpath⟩ := List.mem_map.mp hout
    obtain ⟨f', hf', hdescribes⟩ := hencodes _ hmem
    obtain rfl : f = f' := KeyFile.path_injective _ (hpath.symm.trans hf')
    rw [← hpath, Script.replay_of_mem (body_orderly P call).nodup_writes hmem] at hcontent
    obtain rfl := Option.some.inj hcontent
    exact hdescribes
  · -- left in place by this run
    have hnotMem : f.path call.base ∉ (Script.writes (call.body P)).map Prod.fst := by
      rwa [houtputs]
    rw [Script.replay_of_notMem hnotMem] at hcontent
    obtain ⟨key', hkey', hdescribes⟩ := hkeeps f content hout hcontent
    obtain rfl := Option.some.inj (hmaterial.symm.trans hkey')
    exact hdescribes

end Call

/-! ## Sequences of runs -/

/-- The files that sequences of successful runs on one base lead to, from files among which there
are none of that base, when every run meets the condition. -/
inductive Reached (P : Primitives) (K : KeyPrimitives) (base : Bytes)
    (condition : Call K → Files → Prop) : Files → Prop
  | start {files : Files} :
      (∀ f : KeyFile, files (f.path base) = none) → Reached P K base condition files
  | run {files files' : Files} {call : Call K} {schedule : Script.Schedule IoError} :
      Reached P K base condition files → call.base = base → condition call files →
        (call.prog P).run files schedule = some (.ok (), files') →
          Reached P K base condition files'

/-- The files of a base belong to one key after every sequence of successful runs on it of which
each leaves no file in place but those of the key it makes. -/
theorem coherent_of_reached {P : Primitives} {K : KeyPrimitives} {base : Bytes} {files : Files}
    (h : Reached P K base (fun call files => call.KeepsOwn P files) files) :
    Coherent K base files := by
  cases h with
  | start hnone =>
    refine ⟨.aes256Gcm ⟨List.replicate 32 0, by simp⟩, fun f content hcontent => ?_⟩
    rw [hnone f] at hcontent
    cases hcontent
  | run _ hbase hkeeps hrun =>
    subst hbase
    exact Call.coherent_of_run P hrun hkeeps

/-- After a first run of `keygen` for a pair, with transparent keys. -/
private theorem reached_pair {condition : Call transparentKeys → Files → Prop}
    (h : condition (Call.transparentKeygen {} 7) fun _ => none) :
    Reached transparent transparentKeys (utf8 "k") condition
      (Script.replay ((Call.transparentKeygen {} 7).written transparent (fun _ => none) [])
        fun _ => none) :=
  .run (.start fun _ => rfl) rfl h (Call.run_eq transparent _ _ [])

/-- A pair of key files written over another pair belongs together. -/
theorem coherent_of_reached_pairs :
    ∃ files : Files, files (pubPath (utf8 "k")) = some (hexEncode (List.replicate 32 9)) ∧
      Coherent transparentKeys (utf8 "k") files := by
  let pair : Files :=
    Script.replay ((Call.transparentKeygen {} 7).written transparent (fun _ => none) [])
      fun _ => none
  refine ⟨Script.replay ((Call.transparentKeygen { force := true } 8).written transparent pair [])
    pair, by decide, ?_⟩
  refine coherent_of_reached (P := transparent) (.run (reached_pair ?_) rfl ?_
    (Call.run_eq transparent (Call.transparentKeygen { force := true } 8) pair []))
  · exact fun f content _ hcontent => absurd hcontent (by simp)
  · -- both files of the pair are written again, and there are no others
    intro f content hout hcontent
    cases f with
    | priv => exact absurd (by decide) hout
    | pub => exact absurd (by decide) hout
    | openssh => exact absurd (Option.isSome_of_eq_some hcontent) (by decide)
    | opensshPub => exact absurd (Option.isSome_of_eq_some hcontent) (by decide)

/-- An AES key written over the private key of a pair leaves the old public key in place, and no key
has both files. -/
theorem not_coherent_of_reached :
    ∃ files, Reached transparent transparentKeys (utf8 "k") (fun _ _ => True) files ∧
      ¬Coherent transparentKeys (utf8 "k") files := by
  refine ⟨_, .run (reached_pair trivial) rfl trivial (Call.run_eq transparent
    (Call.transparentKeygen { algo := .aes256Gcm, force := true } 8) _ []), ?_⟩
  rintro ⟨key, hkey⟩
  have hpriv := hkey .priv (hexEncode (List.replicate 32 8)) (by decide)
  have hpub := hkey .pub (hexEncode (List.replicate 32 8)) (by decide)
  cases key with
  | ed25519 id =>
    -- the private key file holds the AES key, whose public key would be another
    have hid : List.replicate 32 8 = id.signingKey.val := hexEncode_injective hpriv
    have hvk : List.replicate 32 8 = id.signingKey.val.map (· + 1) := hexEncode_injective hpub
    rw [← hid] at hvk
    exact absurd hvk (by decide)
  | rsa key =>
    have hkey : key = hexEncode (List.replicate 32 8) := Option.some.inj hpriv
    have hpublic : key.map (· + 1) = hexEncode (List.replicate 32 8) := Option.some.inj hpub
    rw [hkey] at hpublic
    exact absurd hpublic (by decide)
  | aes256Gcm key => exact hpub

end Keygen

end Cry
