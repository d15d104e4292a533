import Cry.Effects.RelyGuarantee

/-!
# Programs over separate parts of a shared state

Where every program of an interleaving is about a part of the state of its own, what the others do
between its operations makes no difference to it: it answers and acts as if it ran alone on the
state at the start, under the choices of its own steps.

* `Part`: operations that read and write one part of the state only;
* `Part.drive`: a program over a part does the same from all states with the same part;
* `Config.exec_part`: a program in an interleaving does what it does alone.

Nothing here depends on which operations there are.
-/

namespace Effects

section Part

variable {Op : Type} {Res : Op → Type} {ε α σ χ ν : Type}
variable (step : (o : Op) → χ → σ → Res o × σ)

/-- The operations are about the part of the state that `V` shows: their answers and what they make
of the part depend on nothing else. -/
structure Part (O : Op → Prop) (V : σ → ν) : Prop where
  answer : ∀ o c s t, O o → V s = V t → (step o c s).1 = (step o c t).1
  effect : ∀ o c s t, O o → V s = V t → V (step o c s).2 = V (step o c t).2

/-- The operations leave the part alone. -/
def Avoids (O : Op → Prop) (V : σ → ν) : Prop := ∀ o c s, O o → V (step o c s).2 = V s

variable {step} {O : Op → Prop} {V : σ → ν}

namespace Prog

/-- What is left of a program issues what the program issues. -/
theorem Uses.advance {x : Prog Op Res ε α} (hx : x.Uses O) (c : χ) (s : σ) :
    (Prog.advance step c (x, s)).1.Uses O := by
  cases x with
  | op o k => exact hx.2 _
  | _ => exact hx

end Prog

/-- A step of a program that leaves a part alone. -/
theorem Avoids.advance (h : Avoids step O V) {x : Prog Op Res ε α} (hx : x.Uses O) (c : χ) (s : σ) :
    V (Prog.advance step c (x, s)).2 = V s := by
  cases x with
  | op o k => exact h o c s hx.1
  | _ => rfl

/-- A run of a program that leaves a part alone. -/
theorem Avoids.drive (h : Avoids step O V) {x : Prog Op Res ε α} (hx : x.Uses O) (cs : List χ)
    (s : σ) : V (Prog.drive step cs (x, s)).2 = V s := by
  induction cs generalizing x s with
  | nil => rfl
  | cons c cs ih =>
    rw [Prog.drive_cons, ih (hx.advance c s)]
    exact h.advance hx c s

/-- A step of a program over a part, from two states with the same part. -/
theorem Part.advance (h : Part step O V) {x : Prog Op Res ε α} (hx : x.Uses O) {s t : σ}
    (hst : V s = V t) (c : χ) :
    (Prog.advance step c (x, s)).1 = (Prog.advance step c (x, t)).1 ∧
      V (Prog.advance step c (x, s)).2 = V (Prog.advance step c (x, t)).2 := by
  cases x with
  | op o k => exact ⟨congrArg k (h.answer o c s t hx.1 hst), h.effect o c s t hx.1 hst⟩
  | _ => exact ⟨rfl, hst⟩

/-- A program over a part does the same from two states with the same part. -/
theorem Part.drive (h : Part step O V) {x : Prog Op Res ε α} (hx : x.Uses O) {s t : σ}
    (hst : V s = V t) (cs : List χ) :
    (Prog.drive step cs (x, s)).1 = (Prog.drive step cs (x, t)).1 ∧
      V (Prog.drive step cs (x, s)).2 = V (Prog.drive step cs (x, t)).2 := by
  induction cs generalizing x s t with
  | nil => exact ⟨rfl, hst⟩
  | cons c cs ih =>
    obtain ⟨hprog, hview⟩ := h.advance hx hst c
    -- the first step leaves the same program on both sides
    have ht : Prog.advance step c (x, t) =
        ((Prog.advance step c (x, s)).1, (Prog.advance step c (x, t)).2) :=
      Prod.ext hprog.symm rfl
    rw [Prog.drive_cons, Prog.drive_cons, ht]
    exact ih (hx.advance c s) hview

end Part

/-! ## Interleavings -/

/-- The choices under which a program takes its steps, in order. -/
def Event.choicesOf {ι χ η : Type} [DecidableEq ι] (i : ι) (es : List (Event ι χ η)) : List χ :=
  es.filterMap fun e => if e.actor = some i then e.choice else none

namespace Config

variable {ι Op : Type} {Res : Op → Type} {ε α σ χ η : Type} {ν : ι → Type} [DecidableEq ι]
variable {step : (o : Op) → χ → σ → Res o × σ} {env : η → σ → σ}
variable {O : ι → Op → Prop} {V : (i : ι) → σ → ν i}

/-- The programs issue after a step what they issued before. -/
theorem uses_next {cfg : Config ι Op Res ε α σ} (huses : ∀ i, (cfg.procs i).prog.Uses (O i))
    (e : Event ι χ η) (i : ι) : ((next step env e cfg).procs i).prog.Uses (O i) := by
  by_cases hact : e.actor = some i
  · obtain ⟨c, rfl⟩ := Event.eq_run hact
    simpa only [next, Function.update_self] using (huses i).advance c cfg.shared
  · rw [procs_next_of_ne hact]
    exact huses i

/-- A step that is not its own leaves the part of a program as it is. -/
theorem view_next_of_ne {i : ι} (havoids : ∀ j, j ≠ i → Avoids step (O j) (V i))
    (hothers : ∀ e s, V i (env e s) = V i s) {cfg : Config ι Op Res ε α σ}
    (huses : ∀ i, (cfg.procs i).prog.Uses (O i)) {e : Event ι χ η} (hact : e.actor ≠ some i) :
    V i (next step env e cfg).shared = V i cfg.shared := by
  cases e with
  | run j c =>
    exact (havoids j fun hji => hact (congrArg some hji)).advance (huses j) c cfg.shared
  | other e => exact hothers e cfg.shared

/-- A program over a part of its own does in an interleaving what it does alone, under the choices
of its own steps. -/
theorem exec_part (hpart : ∀ i, Part step (O i) (V i))
    (havoids : ∀ i j, j ≠ i → Avoids step (O j) (V i)) (hothers : ∀ i e s, V i (env e s) = V i s)
    (es : List (Event ι χ η)) {cfg : Config ι Op Res ε α σ}
    (huses : ∀ i, (cfg.procs i).prog.Uses (O i)) (i : ι) :
    ((exec step env es cfg).procs i).prog =
        (Prog.drive step (Event.choicesOf i es) ((cfg.procs i).prog, cfg.shared)).1 ∧
      V i (exec step env es cfg).shared =
        V i (Prog.drive step (Event.choicesOf i es) ((cfg.procs i).prog, cfg.shared)).2 := by
  -- induction on the events: a step of `i` is a step of the program alone, and any other event
  -- leaves both its program and its part as they are
  induction es generalizing cfg with
  | nil => exact ⟨rfl, rfl⟩
  | cons e es ih =>
    obtain ⟨hprog, hview⟩ := ih (uses_next huses e)
    by_cases hact : e.actor = some i
    · obtain ⟨c, rfl⟩ := Event.eq_run hact
      have hchoices : Event.choicesOf i (.run i c :: es) = c :: Event.choicesOf i es := by
        simp [Event.choicesOf, Event.actor, Event.choice]
      rw [hchoices, Prog.drive_cons]
      simp only [next, Function.update_self] at hprog hview
      exact ⟨hprog, hview⟩
    · have hchoices : Event.choicesOf i (e :: es) = Event.choicesOf i es := by
        simp [Event.choicesOf, hact]
      have hsame := view_next_of_ne (havoids i) (hothers i) huses hact
      obtain ⟨hprog', hview'⟩ := (hpart i).drive (huses i) hsame (Event.choicesOf i es)
      rw [procs_next_of_ne hact] at hprog hview
      rw [hchoices, ← hprog', ← hview']
      exact ⟨hprog, hview⟩

end Config

end Effects
