import Cry.Effects.Scope
import Cry.Rust.Lossy
import Cry.Ssh.Session
import Mathlib.Data.Finset.Basic

/-!
# `ssh` with an agent of its own

On Unix the key is handed to an agent that is started for the session. The agent process goes on
when the program that started it returns, and it is ended by `ssh-agent -k` in the destructor of
`TempAgent`. There is a `TempAgent` only when the output of `ssh-agent -s` has been understood, and
the process that is ended is the one that `SSH_AGENT_PID` names.

The programs that are run are the surroundings here. Of these, `ssh-agent` starts and ends agents.
How a text names a process is a parameter, and so is the text of an I/O error.

## Main results

* `reaped_iff`: the agent of the session is ended, and no other, exactly when the variables of its
  output can be read and the process that is named to `ssh-agent -k` is this agent.
-/

namespace Cry.Ssh

open Rust Effects
open Cli (SshArgs)

/-! ## The output of `ssh-agent` -/

/-- The loop over the lines of the output. -/
def extractVarFrom (var : List Char) : List (List Char) → Option (List Char)
  | [] => none
  | line :: lines =>
    let line := Str.trim line
    match Str.stripPrefix (var ++ ['=']) line with
    | some rest => do
      -- the value ends at the first semicolon
      let value ← (rest.splitOn ';').head?
      pure (Str.trim value)
    | none =>
      match Str.stripPrefix "setenv ".toList line with
      | none => extractVarFrom var lines
      | some rest =>
        match Str.splitn 3 ' ' rest with
        | [] => none
        | name :: parts =>
          if name = var then do
            -- without a value the whole search ends here
            let value ← parts.head?
            pure (Str.trimEndMatches ';' value)
          else extractVarFrom var lines

/-- The value of a variable in the output of `ssh-agent -s`, in the style of `sh` or of `csh`. -/
def extractVar (text var : String) : Option String :=
  (extractVarFrom var.toList (Str.lines text.toList)).map String.ofList

/-! ## Operations -/

/-- The operations on other programs. -/
inductive AgentOp
  /-- `Command::output`. -/
  | output (cmd : Rust.Command)
  /-- `Command::spawn`, with a pipe to the standard input. -/
  | spawn (cmd : Rust.Command)
  /-- `write_all` into that pipe. -/
  | writeStdin (bytes : Bytes)
  /-- `Child::wait_with_output`. -/
  | waitWithOutput
  /-- `Command::status`. -/
  | status (cmd : Rust.Command)

/-- The answers to the operations. -/
abbrev AgentRes : AgentOp → Type
  | .output _ => Except IoError Output
  | .spawn _ => Except IoError Unit
  | .writeStdin _ => Except IoError Unit
  | .waitWithOutput => Except IoError Output
  | .status _ => Except IoError Bool

/-- Programs over these operations. -/
abbrev AgentProg (α : Type) := Prog AgentOp AgentRes Stop α

/-! ## The session -/

/-- An agent that was started for the session. -/
structure TempAgent where
  socket : String
  pid : Option String

namespace TempAgent

/-- End the agent. -/
def killCommand (agent : TempAgent) : Rust.Command :=
  let cmd := ({ program := "ssh-agent", args := [utf8 "-k"] } : Rust.Command).env "SSH_AUTH_SOCK"
    (utf8 agent.socket)
  match agent.pid with
  | some pid => cmd.env "SSH_AGENT_PID" (utf8 pid)
  | none => cmd

/-- The destructor. -/
def drop (agent : TempAgent) : Prog AgentOp AgentRes Empty Unit := do
  let _ ← Prog.perform (.status agent.killCommand)
  pure ()

section Session

variable (ioText : IoError → String)

/-- Start an agent and read its socket and its process off the output. -/
def spawn : AgentProg TempAgent := do
  let out ← orFormat (fun e => "Failed to spawn ssh-agent: " ++ ioText e ++
      "\nMake sure openssh-client is installed (e.g. `apt install openssh-client`).")
    (← Prog.perform (.output { program := "ssh-agent", args := [utf8 "-s"] }))
  if !out.success then
    Prog.throw (.err (.invalidFormat
      ("ssh-agent exited with error: " ++ Str.fromUtf8Lossy out.stderr)))
  else
    let stdout := Str.fromUtf8Lossy out.stdout
    match extractVar stdout "SSH_AUTH_SOCK" with
    | none =>
      Prog.throw (.err (.invalidFormat
        ("Could not parse SSH_AUTH_SOCK from ssh-agent output:\n" ++ stdout)))
    | some socket => pure { socket, pid := extractVar stdout "SSH_AGENT_PID" }

/-- Hand the key to the agent. -/
def addPrivateKey (agent : TempAgent) (keyPem : Bytes) : AgentProg Unit := do
  orFormat (fun e => "Failed to spawn ssh-add: " ++ ioText e)
    (← Prog.perform (.spawn (({ program := "ssh-add", args := [utf8 "-"] } : Rust.Command).env
      "SSH_AUTH_SOCK" (utf8 agent.socket))))
  Prog.ofExcept (ofIo (← Prog.perform (.writeStdin keyPem)))
  let output ← Prog.ofExcept (ofIo (← Prog.perform .waitWithOutput))
  if !output.success then
    Prog.throw (.err (.invalidFormat ("ssh-add failed: " ++ Str.fromUtf8Lossy output.stderr)))
  else pure ()

/-- The call of `ssh`. -/
def sshCommand (agent : TempAgent) (args : SshArgs) : Rust.Command :=
  let ssh := ({ program := "ssh" } : Rust.Command).env "SSH_AUTH_SOCK" (utf8 agent.socket)
  let ssh := ssh.envRemove "SSH_AGENT_PID"
  let ssh := (ssh.arg (utf8 "-o")).arg (utf8 ("IdentityAgent=" ++ agent.socket))
  let ssh := (ssh.arg (utf8 "-o")).arg (utf8 "IdentitiesOnly=yes")
  let ssh := (ssh.arg (utf8 "-o")).arg (utf8 "PubkeyAuthentication=yes")
  let ssh := (ssh.arg (utf8 "-o")).arg (utf8 "PreferredAuthentications=publickey")
  appendCommonSshArgs ssh args

/-- What happens while the agent is in scope. The exit status of `ssh` is only printed. -/
def use (agent : TempAgent) (args : SshArgs) (keyPem : Bytes) : AgentProg Unit := do
  agent.addPrivateKey ioText keyPem
  let _ ← orFormat (fun e => "Failed to exec ssh: " ++ ioText e)
    (← Prog.perform (.status (agent.sshCommand args)))
  pure ()

end Session

end TempAgent

/-- The session. -/
def runSshUnix (ioText : IoError → String) (args : SshArgs) (keyPem : Bytes) : AgentProg Unit := do
  let agent ← TempAgent.spawn ioText
  (agent.use ioText args keyPem).thenDrop agent.drop

/-! ## Processes -/

/-- How a call turns out, as far as the system and the called program decide it. -/
structure Reply where
  /-- The call fails without the program having run. -/
  error : Option IoError := none
  /-- What the program leaves. -/
  output : Output := { success := true }
  /-- The process of an agent that the program starts. -/
  pid : ℕ := 0

/-- `ssh-agent -s`, called so, has started an agent. -/
def Reply.StartsAgent (reply : Reply) : Prop := reply.error = none ∧ reply.output.success = true

instance (reply : Reply) : Decidable reply.StartsAgent :=
  inferInstanceAs (Decidable (_ ∧ _))

/-- The agents: the processes that are running, and those that were started for the session. -/
structure Agents where
  running : Finset ℕ
  started : Finset ℕ := ∅
  deriving DecidableEq

/-- What does not change during the session. -/
structure System where
  /-- The environment that called programs inherit. -/
  environ : Environ
  /-- The process that a text in `SSH_AGENT_PID` names. -/
  named : Bytes → Option ℕ

namespace System

variable (sys : System)

/-- What a program that has run has done to the agents. -/
def effect (cmd : Rust.Command) (reply : Reply) (st : Agents) : Agents :=
  if cmd.program = "ssh-agent" then
    if cmd.args = [utf8 "-s"] ∧ reply.output.success then
      { running := insert reply.pid st.running, started := insert reply.pid st.started }
    else if cmd.args = [utf8 "-k"] then
      match (cmd.getEnv sys.environ "SSH_AGENT_PID").bind sys.named with
      | some pid => { st with running := st.running.erase pid }
      | none => st
    else st
  else st

/-- Run a program to its end. -/
def exec (cmd : Rust.Command) (reply : Reply) (st : Agents) : Except IoError Output × Agents :=
  if cmd.sawNul then (.error Rust.Command.nulError, st)
  else
    match reply.error with
    | some e => (.error e, st)
    | none => (.ok reply.output, sys.effect cmd reply st)

/-- One operation. -/
def step : (o : AgentOp) → Reply → Agents → AgentRes o × Agents
  | .output cmd, reply, st => sys.exec cmd reply st
  | .spawn cmd, reply, st => ((sys.exec cmd reply st).1.map fun _ => (), (sys.exec cmd reply st).2)
  | .writeStdin _, reply, st => (reply.error.elim (.ok ()) .error, st)
  | .waitWithOutput, reply, st => (reply.error.elim (.ok reply.output) .error, st)
  | .status cmd, reply, st => ((sys.exec cmd reply st).1.map (·.success), (sys.exec cmd reply st).2)

/-- What is known of the other programs: an agent that is started is a process of its own, and
`ssh-agent -k` runs. -/
def Documented : AgentOp → Reply → Agents → Prop
  | .output _, reply, st => reply.pid ∉ st.running
  | .status cmd, reply, _ => cmd.program = "ssh-agent" → reply.error = none
  | _, _, _ => True

instance Documented.decidable : ∀ o reply st, Decidable (Documented o reply st)
  | .output _, reply, st => inferInstanceAs (Decidable (reply.pid ∉ st.running))
  | .spawn _, _, _ => .isTrue trivial
  | .writeStdin _, _, _ => .isTrue trivial
  | .waitWithOutput, _, _ => .isTrue trivial
  | .status cmd, reply, _ =>
    inferInstanceAs (Decidable (cmd.program = "ssh-agent" → reply.error = none))

end System

/-! ## Between start and end -/

/-- The operation leaves the agents alone. -/
def AgentOp.Harmless : AgentOp → Prop
  | .output cmd => cmd.program ≠ "ssh-agent"
  | .spawn cmd => cmd.program ≠ "ssh-agent"
  | .status cmd => cmd.program ≠ "ssh-agent"
  | _ => True

/-- In the scope of the agent no other agent is started, and none is ended. -/
theorem uses_use (ioText : IoError → String) (agent : TempAgent) (args : SshArgs)
    (keyPem : Bytes) : (agent.use ioText args keyPem).Uses AgentOp.Harmless := by
  have hformat : ∀ {α : Type} (text : IoError → String) (x : Except IoError α),
      (orFormat text x : AgentProg α).Uses AgentOp.Harmless := by
    intro α text x
    cases x <;> trivial
  simp only [TempAgent.use, TempAgent.addPrivateKey, Prog.bind_eq, Prog.perform_bind]
  refine Prog.uses_bind ⟨?_, fun r => Prog.uses_bind (hformat _ r) fun _ => ?_⟩ fun _ =>
    ⟨?_, fun r => Prog.uses_bind (hformat _ r) fun _ => trivial⟩
  · -- the key is handed over by another program
    show "ssh-add" ≠ "ssh-agent"
    decide
  · refine ⟨trivial, fun r => Prog.uses_bind (Prog.uses_ofExcept _) fun _ => ⟨trivial, fun r => ?_⟩⟩
    refine Prog.uses_bind (Prog.uses_ofExcept _) fun output => ?_
    cases output.success <;> trivial
  · show (appendCommonSshArgs _ args).program ≠ "ssh-agent"
    rw [appendCommonSshArgs_program]
    show "ssh" ≠ "ssh-agent"
    decide

/-! ## The end of the session -/

namespace System

variable (sys : System)

theorem step_of_harmless {o : AgentOp} (h : o.Harmless) (reply : Reply) (st : Agents) :
    (sys.step o reply st).2 = st := by
  -- only `ssh-agent` itself starts and ends agents
  have hexec : ∀ cmd : Rust.Command, cmd.program ≠ "ssh-agent" →
      (sys.exec cmd reply st).2 = st := by
    intro cmd hcmd
    unfold exec
    cases cmd.sawNul with
    | true => rfl
    | false =>
      cases reply.error with
      | some e => rfl
      | none => exact if_neg hcmd
  cases o with
  | output cmd => exact hexec cmd h
  | spawn cmd => exact hexec cmd h
  | status cmd => exact hexec cmd h
  | writeStdin bytes => rfl
  | waitWithOutput => rfl

/-- The process that is named to `ssh-agent -k`, if it can be run. -/
def target (agent : TempAgent) : Option ℕ :=
  if agent.killCommand.sawNul then none
  else (agent.killCommand.getEnv sys.environ "SSH_AGENT_PID").bind sys.named

/-- The agents after the destructor. -/
def dropped (agent : TempAgent) (st : Agents) : Agents :=
  { st with running := (sys.target agent).elim st.running st.running.erase }

theorem satisfies_drop (agent : TempAgent) (st : Agents) :
    agent.drop.Satisfies sys.step (.alone Documented) (fun _ t => t = sys.dropped agent st) st := by
  rintro _ rfl reply hreply
  refine ⟨trivial, ?_⟩
  rintro _ rfl
  have hprogram : agent.killCommand.program = "ssh-agent" := by
    unfold TempAgent.killCommand
    cases agent.pid <;> rfl
  have hargs : agent.killCommand.args = [utf8 "-k"] := by
    unfold TempAgent.killCommand
    cases agent.pid <;> rfl
  have hother : ([utf8 "-k"] : List Bytes) ≠ [utf8 "-s"] := by decide
  -- `ssh-agent -k` can be run
  have herror : reply.error = none := hreply hprogram
  show (sys.exec agent.killCommand reply st).2 = _
  unfold exec dropped target
  cases agent.killCommand.sawNul with
  | true => rfl
  | false =>
    simp only [herror, effect, hprogram, hargs, hother, false_and, if_true, if_false,
      Bool.false_eq_true]
    cases (agent.killCommand.getEnv sys.environ "SSH_AGENT_PID").bind sys.named <;> rfl

/-- The scope of the agent ends with the destructor, however the operations in it turn out. -/
theorem satisfies_scope (ioText : IoError → String) (agent : TempAgent) (args : SshArgs)
    (keyPem : Bytes) (st : Agents) :
    ((agent.use ioText args keyPem).thenDrop agent.drop).Satisfies sys.step (.alone Documented)
      (fun _ t => t = sys.dropped agent st) st := by
  have huse : (agent.use ioText args keyPem).Satisfies sys.step (.alone Documented)
      (fun _ t => t = st) st :=
    Prog.Satisfies.of_invariant (uses_use ioText agent args keyPem)
      (fun _ _ hs hrely => (show _ = _ from hrely) ▸ hs)
      (fun o reply t ho ht _ => ⟨trivial, (sys.step_of_harmless ho reply t).trans ht⟩) rfl
  refine huse.thenDrop fun r t ht => ?_
  subst ht
  exact (sys.satisfies_drop agent t).mono fun _ t' ht' u hu => (show t' = u from hu) ▸ ht'

/-- The value of `SSH_AGENT_PID` that `ssh-agent -k` sees: what the output of `ssh-agent -s` says,
or else what was inherited. -/
def agentPid (stdout : String) : Option Bytes :=
  match extractVar stdout "SSH_AGENT_PID" with
  | some pid => some (utf8 pid)
  | none => sys.environ "SSH_AGENT_PID"

/-- The output of `ssh-agent -s` leads back to the process that was started: a socket is read off
it, what is read off it can be passed to a program, and `SSH_AGENT_PID` names the process. -/
structure LeadsBack (reply : Reply) : Prop where
  socket : ∃ socket, extractVar (Str.fromUtf8Lossy reply.output.stdout) "SSH_AUTH_SOCK" =
    some socket ∧ 0 ∉ utf8 socket
  pid : ∀ pid, extractVar (Str.fromUtf8Lossy reply.output.stdout) "SSH_AGENT_PID" = some pid →
    0 ∉ utf8 pid
  named : (sys.agentPid (Str.fromUtf8Lossy reply.output.stdout)).bind sys.named = some reply.pid

theorem target_eq_some_iff (socket stdout : String) (p : ℕ) :
    sys.target { socket, pid := extractVar stdout "SSH_AGENT_PID" } = some p ↔
      0 ∉ utf8 socket ∧ (∀ pid, extractVar stdout "SSH_AGENT_PID" = some pid → 0 ∉ utf8 pid) ∧
        (sys.agentPid stdout).bind sys.named = some p := by
  have hflag : (0 : UInt8) ∉ utf8 "-k" := by decide
  unfold target agentPid TempAgent.killCommand
  -- without a process the variable is inherited, with one it is set
  cases extractVar stdout "SSH_AGENT_PID" with
  | none =>
    by_cases hsocket : (0 : UInt8) ∈ utf8 socket
    · simp [Rust.Command.sawNul, Rust.Command.env, hsocket]
    · simp [Rust.Command.sawNul, Rust.Command.env, Rust.Command.getEnv, hsocket, hflag,
        List.lookup_cons]
  | some pid =>
    by_cases hsocket : (0 : UInt8) ∈ utf8 socket
    · simp [Rust.Command.sawNul, Rust.Command.env, hsocket]
    · by_cases hpid : (0 : UInt8) ∈ utf8 pid
      · simp [Rust.Command.sawNul, Rust.Command.env, hpid]
      · simp [Rust.Command.sawNul, Rust.Command.env, Rust.Command.getEnv, hsocket, hpid, hflag]

end System

/-- The agents that were started are ended, and all others go on. -/
def Agents.Reaped (before after : Agents) : Prop :=
  (∀ p ∈ after.started, p ∉ after.running) ∧
    ∀ p ∈ before.running, p ∉ after.started → p ∈ after.running

/-- Once one process has been started, ending another or none does not do. -/
theorem reaped_started_iff {running : Finset ℕ} {p : ℕ} (hp : p ∉ running) (target : Option ℕ) :
    Agents.Reaped ⟨running, ∅⟩
        ⟨target.elim (insert p running) (insert p running).erase, {p}⟩ ↔ target = some p := by
  constructor
  · rintro ⟨hended, -⟩
    cases target with
    | none => simp at hended
    | some q =>
      by_contra hne
      -- another process was ended, and this one goes on
      have hpq : p ≠ q := fun h => hne (by rw [h])
      exact hended p (by simp) (Finset.mem_erase.mpr ⟨hpq, Finset.mem_insert_self p running⟩)
  · rintro rfl
    refine ⟨by simp, fun q hq _ => ?_⟩
    have hqp : q ≠ p := ne_of_mem_of_not_mem hq hp
    exact Finset.mem_erase.mpr ⟨hqp, Finset.mem_insert_of_mem hq⟩

/-- The agents at the end of the session, by the answer to `ssh-agent -s`. -/
def System.final (sys : System) (running : Finset ℕ) (reply : Reply) : Agents :=
  let stdout := Str.fromUtf8Lossy reply.output.stdout
  if reply.StartsAgent then
    match extractVar stdout "SSH_AUTH_SOCK" with
    | none => ⟨insert reply.pid running, {reply.pid}⟩
    | some socket =>
      sys.dropped { socket, pid := extractVar stdout "SSH_AGENT_PID" }
        ⟨insert reply.pid running, {reply.pid}⟩
  else ⟨running, ∅⟩

section Run

variable {sys : System} {ioText : IoError → String} {args : SshArgs} {keyPem : Bytes}
variable {running : Finset ℕ}

/-- The answer to `ssh-agent -s`, and the agents after it. -/
theorem step_output (sys : System) (reply : Reply) (running : Finset ℕ) :
    sys.step (.output { program := "ssh-agent", args := [utf8 "-s"] }) reply ⟨running, ∅⟩ =
      (reply.error.elim (.ok reply.output) .error,
        if reply.StartsAgent then ⟨insert reply.pid running, {reply.pid}⟩ else ⟨running, ∅⟩) := by
  have hnul : ({ program := "ssh-agent", args := [utf8 "-s"] } : Rust.Command).sawNul = false := by
    decide
  have hkill : ([utf8 "-s"] : List Bytes) ≠ [utf8 "-k"] := by decide
  rw [System.step, System.exec, hnul, if_neg Bool.false_ne_true]
  cases herror : reply.error with
  | some e => simp [Reply.StartsAgent, herror]
  | none => simp [Reply.StartsAgent, herror, System.effect, hkill]

/-- A session that has returned leaves these agents, whatever the answers to the later calls. -/
theorem drive_runSshUnix {first : Reply} {rest : List Reply} {r : Except Stop Unit}
    (hdoc : (runSshUnix ioText args keyPem).Meets sys.step System.Documented (first :: rest)
      ⟨running, ∅⟩)
    (hret : (Prog.drive sys.step (first :: rest)
      (runSshUnix ioText args keyPem, ⟨running, ∅⟩)).1.returned = some r) :
    (Prog.drive sys.step (first :: rest) (runSshUnix ioText args keyPem, ⟨running, ∅⟩)).2 =
      sys.final running first := by
  rw [runSshUnix, TempAgent.spawn] at hdoc hret ⊢
  simp only [Prog.bind_eq, Prog.perform_bind, Prog.op_bind] at hdoc hret ⊢
  rw [Prog.drive_cons] at hret ⊢
  refine Prog.Satisfies.drive_returned (K := .alone System.Documented)
    (Q := fun _ t => t = sys.final running first) ?_ hdoc.2 hret
  simp only [step_output]
  unfold System.final
  -- whatever comes after, this answer decides: no run, a failure, or an agent
  cases herror : first.error with
  | some e =>
    have hfails : ¬first.StartsAgent := fun h => by simp [Reply.StartsAgent, herror] at h
    rw [if_neg hfails, if_neg hfails]
    rintro _ rfl
    rfl
  | none =>
    cases hsuccess : first.output.success with
    | false =>
      have hfails : ¬first.StartsAgent := fun h => by simp [Reply.StartsAgent, hsuccess] at h
      rw [if_neg hfails, if_neg hfails]
      simp only [Option.elim, orFormat, Prog.pure_bind, hsuccess, Bool.not_false, if_true]
      rintro _ rfl
      rfl
    | true =>
      rw [if_pos ⟨herror, hsuccess⟩, if_pos ⟨herror, hsuccess⟩]
      simp only [Option.elim, orFormat, Prog.pure_bind, hsuccess, Bool.not_true,
        Bool.false_eq_true, if_false]
      cases extractVar (Str.fromUtf8Lossy first.output.stdout) "SSH_AUTH_SOCK" with
      | none =>
        -- the socket cannot be read, and the function returns without a destructor
        rintro _ rfl
        rfl
      | some socket => exact sys.satisfies_scope ioText _ args keyPem _

/-- The agents of the session. Once it has returned, with a result or with an error, the agent that
was started for it is ended and all other agents go on, if and only if the output of `ssh-agent -s`
leads back to the process that was started. -/
theorem reaped_iff {replies : List Reply} {r : Except Stop Unit}
    (hdoc : (runSshUnix ioText args keyPem).Meets sys.step System.Documented replies ⟨running, ∅⟩)
    (hret : (Prog.drive sys.step replies
      (runSshUnix ioText args keyPem, ⟨running, ∅⟩)).1.returned = some r) :
    Agents.Reaped ⟨running, ∅⟩
        (Prog.drive sys.step replies (runSshUnix ioText args keyPem, ⟨running, ∅⟩)).2 ↔
      ∀ first ∈ replies.head?, first.StartsAgent → sys.LeadsBack first := by
  obtain ⟨first, rest, rfl⟩ := Prog.exists_cons_of_returned hret
  have hfresh : first.pid ∉ running := hdoc.1
  rw [drive_runSshUnix hdoc hret, List.head?_cons]
  simp only [Option.mem_some_iff, forall_eq']
  unfold System.final
  by_cases hstart : first.StartsAgent
  · rw [if_pos hstart]
    cases hsocket : extractVar (Str.fromUtf8Lossy first.output.stdout) "SSH_AUTH_SOCK" with
    | none =>
      -- there is no `TempAgent`, and the agent is left running
      refine (reaped_started_iff hfresh none).trans (iff_of_false (by simp) fun h => ?_)
      obtain ⟨socket, heq, -⟩ := (h hstart).socket
      rw [hsocket] at heq
      cases heq
    | some socket =>
      refine (reaped_started_iff hfresh _).trans ((sys.target_eq_some_iff _ _ _).trans ?_)
      constructor
      · rintro ⟨hnul, hpid, hnamed⟩ -
        exact ⟨⟨socket, hsocket, hnul⟩, hpid, hnamed⟩
      · intro h
        obtain ⟨⟨socket', heq, hnul⟩, hpid, hnamed⟩ := h hstart
        rw [hsocket] at heq
        exact ⟨Option.some.inj heq ▸ hnul, hpid, hnamed⟩
  · rw [if_neg hstart]
    refine iff_of_true ⟨by simp, fun p hp _ => hp⟩ fun h => absurd h hstart

end Run

/-- The process that a text of decimal digits names. -/
def decimal (text : Bytes) : Option ℕ :=
  if text ≠ [] ∧ text.all fun b => 48 ≤ b && b ≤ 57 then
    some (text.foldl (fun n b => n * 10 + (b.toNat - 48)) 0)
  else none

/-- Process 7 is the agent of the user, and `SSH_AGENT_PID` names it. -/
def userSystem : System where
  environ key := if key = "SSH_AGENT_PID" then some (utf8 "7") else none
  named := decimal

/-- Surroundings in which `ssh-agent -s` starts process 12 and prints the text, and everything after
it succeeds. -/
def sessionReplies (stdout : String) : List Reply :=
  { output := { success := true, stdout := utf8 stdout }, pid := 12 } :: List.replicate 5 {}

/-- The usual output. -/
def usualOutput : String :=
  "SSH_AUTH_SOCK=/tmp/a.1; export SSH_AUTH_SOCK;\nSSH_AGENT_PID=12; export SSH_AGENT_PID;\n"

/-- The session of the usual output. -/
theorem reaped_usual :
    Agents.Reaped ⟨{7}, ∅⟩ (Prog.drive userSystem.step (sessionReplies usualOutput)
      (runSshUnix (fun _ => "") { target := "host" } [], ⟨{7}, ∅⟩)).2 := by
  have hsocket : extractVar (Str.fromUtf8Lossy (utf8 usualOutput)) "SSH_AUTH_SOCK" =
      some "/tmp/a.1" := by
    rw [Str.fromUtf8Lossy_utf8]
    decide
  have hpid : extractVar (Str.fromUtf8Lossy (utf8 usualOutput)) "SSH_AGENT_PID" = some "12" := by
    rw [Str.fromUtf8Lossy_utf8]
    decide
  refine (reaped_iff (r := .ok ()) (by decide) rfl).mpr fun first hfirst _ => ?_
  obtain rfl := Option.some.inj hfirst
  refine ⟨⟨"/tmp/a.1", hsocket, by decide⟩, fun pid h => ?_, by decide⟩
  obtain rfl : "12" = pid := Option.some.inj (hpid.symm.trans h)
  decide

/-- When the output names no process, the agent of the user is ended in place of the one that was
started. -/
theorem ends_agent_of_user :
    ∃ (replies : List Reply) (args : SshArgs),
      (runSshUnix (fun _ => "") args []).Meets userSystem.step System.Documented replies ⟨{7}, ∅⟩ ∧
        (Prog.drive userSystem.step replies
          (runSshUnix (fun _ => "") args [], ⟨{7}, ∅⟩)).1.returned = some (.ok ()) ∧
        (Prog.drive userSystem.step replies
          (runSshUnix (fun _ => "") args [], ⟨{7}, ∅⟩)).2 = ⟨{12}, {12}⟩ ∧
        ¬Agents.Reaped ⟨{7}, ∅⟩ ⟨{12}, {12}⟩ := by
  refine ⟨sessionReplies "SSH_AUTH_SOCK=/tmp/a.1;", { target := "host" }, by decide, rfl,
    by decide, ?_⟩
  rintro ⟨hended, -⟩
  exact hended 12 (by decide) (by decide)

end Cry.Ssh
