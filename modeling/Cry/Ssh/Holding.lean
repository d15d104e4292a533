import Cry.Ssh.Agent

/-!
# Who gets the key

On Unix the key of the session is piped into `ssh-add`, which hands what it reads to the agent that
listens at the socket in its `SSH_AUTH_SOCK`. The socket is the one that was read off the output of
`ssh-agent -s`. What the agents have been handed rides along with the agents of the session.

How much of the text has reached the pipe when writing to it fails, and whether `ssh-add` hands on
what it has read, is open. Which process listens at a socket is a parameter.

## Main results

* `session_toAgents`: the agents go through the session as they do without what they hold;
* `scope_keepsOut`: in the scope of its agent, the session reaches no process but the one that
  listens at its socket;
* `key_confined`: exactly when the agents of others do not get the key, and when none that is left
  running has it.
-/

namespace Cry.Ssh

open Rust Effects
open Cli (SshArgs)

/-! ## Agents and what they hold -/

/-- How a call turns out, with what becomes of a text that is piped. -/
structure Handing extends Reply where
  /-- How much of the text is in the pipe when writing it fails. -/
  written : ℕ := 0
  /-- `ssh-add` hands on what it has read. -/
  added : Bool := true

/-- The agents, what each process has been handed, and the `ssh-add` that is running: the socket it
was given, and what has been piped into it. -/
structure Holders extends Agents where
  given : ℕ → List Bytes := fun _ => []
  child : Option (Option Bytes × Bytes) := none

/-- What does not change during the session, with the process that listens at a socket. -/
structure Host extends System where
  listens : Bytes → Option ℕ

namespace Holders

/-- More is piped into the `ssh-add` that is running. -/
def pipe (st : Holders) (bytes : Bytes) : Holders :=
  { st with child := st.child.map fun c => (c.1, c.2 ++ bytes) }

/-- `ssh-add` hands what it has read to the agent that listens at its socket, if one does. -/
def hand (host : Host) (added : Bool) (st : Holders) : Holders :=
  match st.child with
  | some (some socket, input) =>
    match host.listens socket with
    | some p =>
      if added ∧ p ∈ st.running then
        { st with given := Function.update st.given p (input :: st.given p), child := none }
      else { st with child := none }
    | none => { st with child := none }
  | _ => { st with child := none }

end Holders

namespace Host

variable (host : Host)

/-- One operation. An `ssh-add` whose pipe breaks goes on by itself. -/
def step : (o : AgentOp) → Handing → Holders → AgentRes o × Holders
  | .spawn cmd, reply, st =>
    let (r, after) := host.toSystem.step (.spawn cmd) reply.toReply st.toAgents
    (r, { st with
      toAgents := after
      child := match r with
        | .ok _ =>
          if cmd.program = "ssh-add" then some (cmd.getEnv host.environ "SSH_AUTH_SOCK", [])
          else st.child
        | .error _ => st.child })
  | .writeStdin bytes, reply, st =>
    match reply.error with
    | none => (.ok (), st.pipe bytes)
    | some e => (.error e, (st.pipe (bytes.take reply.written)).hand host reply.added)
  | .waitWithOutput, reply, st =>
    (reply.error.elim (.ok reply.output) .error, st.hand host reply.added)
  | .output cmd, reply, st =>
    let (r, after) := host.toSystem.step (.output cmd) reply.toReply st.toAgents
    (r, { st with toAgents := after })
  | .status cmd, reply, st =>
    let (r, after) := host.toSystem.step (.status cmd) reply.toReply st.toAgents
    (r, { st with toAgents := after })

end Host

@[simp] theorem Holders.hand_toAgents (host : Host) (added : Bool) (st : Holders) :
    (st.hand host added).toAgents = st.toAgents := by
  unfold Holders.hand
  split
  · split
    · split <;> rfl
    · rfl
  · rfl

/-- What the agents hold makes no difference to a step. -/
theorem Host.step_toAgents (host : Host) (o : AgentOp) (reply : Handing) (st : Holders) :
    host.toSystem.step o reply.toReply st.toAgents =
      ((host.step o reply st).1, (host.step o reply st).2.toAgents) := by
  cases o with
  | writeStdin bytes =>
    cases herror : reply.error with
    | none => simp [Host.step, System.step, herror, Holders.pipe]
    | some e => simp [Host.step, System.step, herror, Holders.pipe]
  | waitWithOutput => simp [Host.step, System.step]
  | _ => rfl

/-! ## The scope of an agent -/

/-- The operation starts no agent, and an `ssh-add` that it starts is given this socket. -/
def AgentOp.Tame (socket : String) : AgentOp → Prop
  | .spawn cmd => cmd.program = "ssh-add" ∧ (cmd.sawNul = false → 0 ∉ utf8 socket) ∧
      ∀ environ, cmd.getEnv environ "SSH_AUTH_SOCK" = some (utf8 socket)
  | .status cmd => cmd.program = "ssh-agent" → cmd.args ≠ [utf8 "-s"]
  | .output _ => False
  | _ => True

/-- The operations in the scope of an agent, its destructor included. -/
theorem uses_scope (ioText : IoError → String) (agent : TempAgent) (args : SshArgs)
    (keyPem : Bytes) :
    ((agent.use ioText args keyPem).thenDrop agent.drop).Uses (AgentOp.Tame agent.socket) := by
  have hformat : ∀ {α : Type} (text : IoError → String) (x : Except IoError α),
      (orFormat text x : AgentProg α).Uses (AgentOp.Tame agent.socket) := by
    intro α text x
    cases x <;> trivial
  refine Prog.Uses.thenDrop ?_ ⟨?_, fun _ => trivial⟩
  · simp only [TempAgent.use, TempAgent.addPrivateKey, Prog.bind_eq, Prog.perform_bind]
    refine Prog.uses_bind
      ⟨⟨rfl, ?_, fun _ => rfl⟩, fun r => Prog.uses_bind (hformat _ r) fun _ => ?_⟩
      fun _ => ⟨?_, fun r => Prog.uses_bind (hformat _ r) fun _ => trivial⟩
    · simp [Rust.Command.sawNul, Rust.Command.env]
    · refine ⟨trivial, fun r => Prog.uses_bind (Prog.uses_ofExcept _) fun _ => ⟨trivial, ?_⟩⟩
      refine fun r => Prog.uses_bind (Prog.uses_ofExcept _) fun output => ?_
      cases output.success <;> trivial
    · -- the program is `ssh`
      intro hprogram
      rw [TempAgent.sshCommand, appendCommonSshArgs_program] at hprogram
      exact absurd (show "ssh" = "ssh-agent" from hprogram) (by decide)
  · intro _
    have hargs : agent.killCommand.args = [utf8 "-k"] := by
      unfold TempAgent.killCommand
      cases agent.pid <;> rfl
    rw [hargs]
    decide

namespace Host

variable (host : Host)

/-- Since a moment, no process has been handed anything but the one that was listening at the socket
then, and none has been started. -/
structure KeepsOut (socket : String) (before st : Holders) : Prop where
  given : ∀ p, (0 ∉ utf8 socket → host.listens (utf8 socket) = some p → p ∉ before.running) →
    st.given p = before.given p
  /-- An `ssh-add` that is running has been given the socket. -/
  child : ∀ c, st.child = some c → 0 ∉ utf8 socket ∧ c.1 = some (utf8 socket)
  running : st.running ⊆ before.running

variable {host} {socket : String} {before st : Holders}

/-- What is handed on goes to the socket. -/
theorem KeepsOut.hand (h : host.KeepsOut socket before st) (added : Bool) :
    host.KeepsOut socket before (st.hand host added) := by
  obtain ⟨hgiven, hchild, hrunning⟩ := h
  have hrun : (st.hand host added).running ⊆ before.running := by
    rw [Holders.hand_toAgents]
    exact hrunning
  refine ⟨fun p hp => ?_, fun c hc => ?_, hrun⟩
  · unfold Holders.hand
    split
    · next sock input hsock =>
      obtain ⟨hnul, heq⟩ := hchild _ hsock
      obtain rfl := Option.some.inj heq
      split
      · next q hq =>
        split
        · next hadded =>
          -- the process at the socket is running, so it is not `p`
          have hne : p ≠ q := fun hpq => hp hnul (hpq ▸ hq) (hpq ▸ hrunning hadded.2)
          exact (Function.update_of_ne hne _ _).trans (hgiven p hp)
        · exact hgiven p hp
      · exact hgiven p hp
    · exact hgiven p hp
  · unfold Holders.hand at hc
    split at hc
    · split at hc
      · split at hc <;> cases hc
      · cases hc
    · cases hc

theorem KeepsOut.pipe (h : host.KeepsOut socket before st) (bytes : Bytes) :
    host.KeepsOut socket before (st.pipe bytes) := by
  refine ⟨h.given, fun c hc => ?_, h.running⟩
  obtain ⟨c', hc', rfl⟩ := Option.map_eq_some_iff.mp hc
  exact h.child c' hc'

/-- Running a program that starts no agent. -/
theorem running_exec {cmd : Rust.Command} (h : cmd.program = "ssh-agent" → cmd.args ≠ [utf8 "-s"])
    (sys : System) (reply : Reply) (agents : Agents) :
    (sys.exec cmd reply agents).2.running ⊆ agents.running := by
  unfold System.exec System.effect
  split
  · exact subset_rfl
  · split
    · exact subset_rfl
    · split
      · next hprogram =>
        rw [if_neg fun hstart => h hprogram hstart.1]
        split
        · split
          · exact Finset.erase_subset _ _
          · exact subset_rfl
        · exact subset_rfl
      · exact subset_rfl

theorem KeepsOut.step (h : host.KeepsOut socket before st) {o : AgentOp} (ho : o.Tame socket)
    (reply : Handing) : host.KeepsOut socket before (host.step o reply st).2 := by
  cases o with
  | output cmd => exact ho.elim
  | status cmd => exact ⟨h.given, h.child, (running_exec ho _ _ _).trans h.running⟩
  | waitWithOutput => exact h.hand reply.added
  | writeStdin bytes =>
    rw [Host.step]
    cases reply.error with
    | none => exact h.pipe bytes
    | some e => exact (h.pipe _).hand reply.added
  | spawn cmd =>
    obtain ⟨hprogram, hnul, henv⟩ := ho
    have hagent : cmd.program = "ssh-agent" → cmd.args ≠ [utf8 "-s"] := by
      intro hother
      rw [hprogram] at hother
      exact absurd hother (by decide)
    refine ⟨h.given, fun c hc => ?_, (running_exec hagent _ _ _).trans h.running⟩
    simp only [Host.step, System.step, System.exec] at hc
    cases hsaw : cmd.sawNul with
    | true =>
      simp only [hsaw, if_true, Except.map] at hc
      exact h.child c hc
    | false =>
      cases herror : reply.error with
      | some e =>
        simp only [hsaw, herror, Bool.false_eq_true, if_false, Except.map] at hc
        exact h.child c hc
      | none =>
        simp only [hsaw, herror, hprogram, Bool.false_eq_true, if_false, if_true, Except.map] at hc
        obtain rfl := Option.some.inj hc
        exact ⟨hnul hsaw, henv _⟩

/-! ## The session -/

variable (host)

/-- The process that listens at the socket which is read off the output of `ssh-agent -s`, if there
is one, was not running before. -/
def Confines (running : Finset ℕ) (reply : Handing) : Prop :=
  ∀ socket p, extractVar (Str.fromUtf8Lossy reply.output.stdout) "SSH_AUTH_SOCK" = some socket →
    0 ∉ utf8 socket → host.listens (utf8 socket) = some p → p ∉ running

/-- A moment of the session: what is left to run, and the agents. -/
def session (ioText : IoError → String) (args : SshArgs) (keyPem : Bytes) (running : Finset ℕ)
    (given : ℕ → List Bytes) (replies : List Handing) : AgentProg Unit × Holders :=
  Prog.drive host.step replies
    (runSshUnix ioText args keyPem, { running := running, given := given })

section Run

variable {host} {ioText : IoError → String} {args : SshArgs} {keyPem : Bytes}
variable {running : Finset ℕ} {given : ℕ → List Bytes}

/-- The agents go through the session as they do without what they hold. -/
theorem session_toAgents (given : ℕ → List Bytes) (replies : List Handing) :
    Prog.drive host.toSystem.step (replies.map Handing.toReply)
        (runSshUnix ioText args keyPem, ⟨running, ∅⟩) =
      ((host.session ioText args keyPem running given replies).1,
        (host.session ioText args keyPem running given replies).2.toAgents) :=
  Prog.drive_map Holders.toAgents Handing.toReply (fun o c t => host.step_toAgents o c t) replies
    (runSshUnix ioText args keyPem) { running := running, given := given }

/-- The answer to `ssh-agent -s`, and the agents after it. Nothing has been handed to one. -/
theorem step_output (first : Handing) :
    host.step (.output { program := "ssh-agent", args := [utf8 "-s"] }) first
        { running := running, given := given } =
      (first.error.elim (.ok first.output) .error,
        if first.StartsAgent then
          { running := insert first.pid running, started := {first.pid}, given := given }
        else { running := running, given := given }) := by
  simp only [Host.step, Ssh.step_output]
  split <;> rfl

/-- With a socket read off the output, the agent is in scope. -/
theorem session_of_socket {first : Handing} {socket : String} (hstart : first.StartsAgent)
    (hsocket : extractVar (Str.fromUtf8Lossy first.output.stdout) "SSH_AUTH_SOCK" = some socket)
    (rest : List Handing) :
    ∃ agent : TempAgent, agent.socket = socket ∧
      host.session ioText args keyPem running given (first :: rest) =
        Prog.drive host.step rest ((agent.use ioText args keyPem).thenDrop agent.drop,
          { running := insert first.pid running, started := {first.pid}, given := given }) := by
  refine ⟨⟨socket, extractVar (Str.fromUtf8Lossy first.output.stdout) "SSH_AGENT_PID"⟩, rfl, ?_⟩
  rw [session, runSshUnix, TempAgent.spawn]
  simp only [Prog.bind_eq, Prog.perform_bind, Prog.op_bind]
  rw [Prog.drive_cons, Prog.advance, step_output, if_pos hstart, hstart.1]
  simp only [Option.elim, orFormat, Prog.pure_bind, hstart.2, Bool.not_true, Bool.false_eq_true,
    if_false, hsocket]
  rfl

/-- Without one, the session is over. -/
theorem session_of_no_socket {first : Handing}
    (h : first.StartsAgent →
      extractVar (Str.fromUtf8Lossy first.output.stdout) "SSH_AUTH_SOCK" = none)
    (rest : List Handing) :
    (host.session ioText args keyPem running given (first :: rest)).2.given = given := by
  rw [session, runSshUnix, TempAgent.spawn]
  simp only [Prog.bind_eq, Prog.perform_bind, Prog.op_bind]
  rw [Prog.drive_cons, Prog.advance, step_output]
  cases herror : first.error with
  | some e =>
    have hfails : ¬first.StartsAgent := fun h => by simp [Reply.StartsAgent, herror] at h
    rw [if_neg hfails]
    simp only [Option.elim, orFormat, Prog.throw_bind, Prog.drive_throw]
  | none =>
    cases hsuccess : first.output.success with
    | false =>
      have hfails : ¬first.StartsAgent := fun h => by simp [Reply.StartsAgent, hsuccess] at h
      rw [if_neg hfails]
      simp only [Option.elim, orFormat, Prog.pure_bind, hsuccess, Bool.not_false, if_true,
        Prog.throw_bind, Prog.drive_throw]
    | true =>
      have hstart : first.StartsAgent := ⟨herror, hsuccess⟩
      rw [if_pos hstart]
      simp only [Option.elim, orFormat, Prog.pure_bind, hsuccess, Bool.not_true,
        Bool.false_eq_true, if_false, h hstart, Prog.throw_bind, Prog.drive_throw]

/-- Whatever happens in the scope of the agent, only the process at its socket is handed
anything. -/
theorem scope_keepsOut (agent : TempAgent) {st : Holders} (hst : st.child = none)
    (rest : List Handing) :
    host.KeepsOut agent.socket st
      (Prog.drive host.step rest ((agent.use ioText args keyPem).thenDrop agent.drop, st)).2 := by
  have hstart : host.KeepsOut agent.socket st st :=
    ⟨fun _ _ => rfl, fun c hc => (Option.some_ne_none c (hc.symm.trans hst)).elim, subset_rfl⟩
  have hscope := Prog.Satisfies.of_invariant
    (K := .keeping (fun _ _ _ => True) (host.KeepsOut agent.socket st))
    (uses_scope ioText agent args keyPem) (fun _ _ hI hrely => (show _ = _ from hrely) ▸ hI)
    (fun o reply t ho hI _ => ⟨fun hI => hI.step ho reply, hI.step ho reply⟩) hstart
  exact hscope.drive_keeping (Prog.Meets.of_forall (fun _ _ _ => trivial) _ _ _) hstart

/-- When all calls succeed, `ssh-add` hands the key to the process at the socket. -/
theorem scope_hands {agent : TempAgent} {p : ℕ} (hnul : 0 ∉ utf8 agent.socket)
    (hlistens : host.listens (utf8 agent.socket) = some p) {st : Holders}
    (hrunning : p ∈ st.running) :
    (Prog.drive host.step [{}, {}, {}]
      ((agent.use ioText args keyPem).thenDrop agent.drop, st)).2.given p =
        keyPem :: st.given p := by
  have hspawn : host.step (.spawn (({ program := "ssh-add", args := [utf8 "-"] } :
      Rust.Command).env "SSH_AUTH_SOCK" (utf8 agent.socket))) {} st =
        (.ok (), { st with child := some (some (utf8 agent.socket), []) }) := by
    have hflag : (0 : UInt8) ∉ utf8 "-" := by decide
    have hprogram : "ssh-add" ≠ "ssh-agent" := by decide
    simp [Host.step, System.step, System.exec, System.effect, Rust.Command.sawNul,
      Rust.Command.env, Rust.Command.getEnv, hnul, hflag, hprogram, Except.map]
  simp only [TempAgent.use, TempAgent.addPrivateKey, Prog.thenDrop, Prog.bind_eq,
    Prog.perform_bind, Prog.op_bind, Prog.attempt]
  rw [Prog.drive_cons, Prog.advance, hspawn]
  have hwrite : host.step (.writeStdin keyPem) {}
      { st with child := some (some (utf8 agent.socket), []) } =
        (.ok (), { st with child := some (some (utf8 agent.socket), keyPem) }) := rfl
  have hwait : (host.step .waitWithOutput {}
      { st with child := some (some (utf8 agent.socket), keyPem) }).2.given p =
        keyPem :: st.given p := by
    simp [Host.step, Holders.hand, hlistens, hrunning]
  exact hwait

/-- A process that was running before is handed nothing, if it is not the one at the socket. -/
theorem session_given {first : Handing}
    (h : first.StartsAgent → host.Confines running first) (rest : List Handing) {p : ℕ}
    (hp : p ∈ running) :
    (host.session ioText args keyPem running given (first :: rest)).2.given p = given p := by
  by_cases hstart : first.StartsAgent
  · cases hsocket : extractVar (Str.fromUtf8Lossy first.output.stdout) "SSH_AUTH_SOCK" with
    | none => rw [session_of_no_socket (fun _ => hsocket)]
    | some socket =>
      obtain ⟨agent, rfl, heq⟩ : ∃ agent : TempAgent, agent.socket = socket ∧
          host.session ioText args keyPem running given (first :: rest) = _ :=
        session_of_socket hstart hsocket rest
      rw [heq]
      exact (scope_keepsOut agent rfl rest).given p fun hnul hlistens =>
        absurd hp (h hstart agent.socket p hsocket hnul hlistens)
  · rw [session_of_no_socket fun hs => absurd hs hstart]

/-- The agents when the session has returned. If the output leads back to the process that was
started, they are those that were running before. -/
theorem session_running {first : Handing} {rest : List Handing} {r : Except Stop Unit}
    (hdoc : (runSshUnix ioText args keyPem).Meets host.toSystem.step System.Documented
      ((first :: rest).map Handing.toReply) ⟨running, ∅⟩)
    (hret : (host.session ioText args keyPem running given (first :: rest)).1.returned = some r)
    (h : first.StartsAgent → host.toSystem.LeadsBack first.toReply) :
    (host.session ioText args keyPem running given (first :: rest)).2.running = running := by
  have hfresh : first.pid ∉ running := hdoc.1
  have hfinal : (host.session ioText args keyPem running given (first :: rest)).2.toAgents =
      host.toSystem.final running first.toReply := by
    have hend := drive_runSshUnix hdoc (r := r)
    rw [← List.map_cons, session_toAgents given] at hend
    exact hend hret
  rw [hfinal]
  unfold System.final
  by_cases hstart : first.StartsAgent
  · obtain ⟨⟨socket, hsocket, hnul⟩, hpid, hnamed⟩ := h hstart
    have htarget := (host.toSystem.target_eq_some_iff socket _ _).mpr ⟨hnul, hpid, hnamed⟩
    simp only [if_pos hstart, hsocket, System.dropped, htarget, Option.elim]
    exact Finset.erase_insert hfresh
  · rw [if_neg hstart]

/-- The key and the agents of others. Exactly when the process at the socket of the session, if
there is one, was not running before, no process that was running before is handed anything, at no
moment of the session and however its calls turn out. If besides the output leads back to the
process that was started, then no process that runs when the session has returned has been handed
anything. -/
theorem key_confined (first : Handing) :
    ((∀ rest, ∀ p ∈ running,
        (host.session ioText args keyPem running given (first :: rest)).2.given p = given p) ↔
      (first.StartsAgent → host.Confines running first)) ∧
    ∀ rest r,
      (runSshUnix ioText args keyPem).Meets host.toSystem.step System.Documented
        ((first :: rest).map Handing.toReply) ⟨running, ∅⟩ →
      (host.session ioText args keyPem running given (first :: rest)).1.returned = some r →
      (first.StartsAgent → host.Confines running first ∧ host.toSystem.LeadsBack first.toReply) →
      ∀ p ∈ (host.session ioText args keyPem running given (first :: rest)).2.running,
        (host.session ioText args keyPem running given (first :: rest)).2.given p = given p := by
  refine ⟨⟨fun h hstart socket p hsocket hnul hlistens hp => ?_,
    fun h rest p hp => session_given h rest hp⟩, fun rest r hdoc hret h p hp => ?_⟩
  · -- in the run in which all calls succeed, `p` gets the key
    obtain ⟨agent, rfl, heq⟩ : ∃ agent : TempAgent, agent.socket = socket ∧
        host.session ioText args keyPem running given [first, {}, {}, {}] = _ :=
      session_of_socket hstart hsocket [{}, {}, {}]
    have hsame := h [{}, {}, {}] p hp
    rw [heq, scope_hands hnul hlistens (Finset.mem_insert_of_mem hp)] at hsame
    exact List.cons_ne_self _ _ hsame
  · rw [session_running hdoc hret fun hstart => (h hstart).2] at hp
    exact session_given (fun hstart => (h hstart).1) rest hp

end Run

end Host

/-- The agent of the user, process 7, listens at one socket, and process 12 at another. -/
def userHost : Host where
  toSystem := userSystem
  listens socket :=
    if socket = utf8 "/tmp/u" then some 7 else if socket = utf8 "/tmp/a.1" then some 12 else none

/-- The session of the usual output: when it has returned, nobody has the key. -/
theorem key_confined_usual :
    ∀ p ∈ (userHost.session (fun _ => "") { target := "host" } [1] {7} (fun _ => [])
        ((sessionReplies usualOutput).map fun reply => { toReply := reply })).2.running,
      (userHost.session (fun _ => "") { target := "host" } [1] {7} (fun _ => [])
        ((sessionReplies usualOutput).map fun reply => { toReply := reply })).2.given p = [] := by
  have hsocket : extractVar (Str.fromUtf8Lossy (utf8 usualOutput)) "SSH_AUTH_SOCK" =
      some "/tmp/a.1" := by
    rw [Str.fromUtf8Lossy_utf8]
    decide
  have hpid : extractVar (Str.fromUtf8Lossy (utf8 usualOutput)) "SSH_AGENT_PID" = some "12" := by
    rw [Str.fromUtf8Lossy_utf8]
    decide
  refine (Host.key_confined _).2 _ (.ok ()) (by decide) rfl fun _ =>
    ⟨fun socket p hread _ hlistens => ?_, ⟨"/tmp/a.1", hsocket, by decide⟩, fun pid hread => ?_,
      by decide⟩
  · obtain rfl : "/tmp/a.1" = socket := Option.some.inj (hsocket.symm.trans hread)
    obtain rfl : 12 = p := Option.some.inj hlistens
    decide
  · obtain rfl : "12" = pid := Option.some.inj (hpid.symm.trans hread)
    decide

end Cry.Ssh
