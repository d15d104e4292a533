import Cry.Effects.Prog

/-!
# Rely-guarantee reasoning for programs over a shared state

A step function executes one operation on a state, under a choice that stands for everything the
program does not control: whether the operation fails, how much of a request is served, what a
random source returns. Between two operations of a program other parties may change the state.

* `Prog.Satisfies`: under a contract, every run of the program keeps its guarantee at each step
  and ends in its postcondition, whatever the choices and whatever the others do within the rely;
* `Prog.drive`: a program running alone, one choice for each operation;
* `Config.exec`: any interleaving of several programs with steps of other parties;
* `Config.exec_satisfies`: the parallel composition rule;
* `Config.exec_related`: what every step keeps relates any moment of a run to its start;
* `Config.exec_unseen`: programs that change nothing leave the state to the others.

Nothing here depends on which operations there are.
-/

namespace Effects

/-- What a program may assume of the others, what it promises them, and which choices its own
steps may meet. -/
structure Contract (Op χ σ : Type) where
  /-- The choices under which the program's operations are considered. -/
  allowed : Op → χ → σ → Prop
  /-- What the others may do to the state between two operations. -/
  rely : σ → σ → Prop
  /-- What each operation of the program may do to the state. -/
  guar : σ → σ → Prop
  rely_refl : ∀ s, rely s s
  rely_trans : ∀ {a b c}, rely a b → rely b c → rely a c
  guar_refl : ∀ s, guar s s

/-- The contract of a program that runs alone. -/
def Contract.alone {Op χ σ : Type} (A : Op → χ → σ → Prop) : Contract Op χ σ where
  allowed := A
  rely s t := s = t
  guar _ _ := True
  rely_refl _ := rfl
  rely_trans := Eq.trans
  guar_refl _ := trivial

namespace Prog

variable {Op : Type} {Res : Op → Type} {ε ε' α β σ χ : Type}
variable (step : (o : Op) → χ → σ → Res o × σ)

/-- Under the contract `K`, every run of the program from the state keeps the guarantee at each
of its steps and, if it ends, ends in `Q` and stays there under the rely. -/
def Satisfies (K : Contract Op χ σ) (Q : Except ε α → σ → Prop) :
    Prog Op Res ε α → σ → Prop
  | .pure a, s => ∀ s', K.rely s s' → Q (.ok a) s'
  | .throw e, s => ∀ s', K.rely s s' → Q (.error e) s'
  | .op o k, s => ∀ s', K.rely s s' → ∀ c, K.allowed o c s' →
      K.guar s' (step o c s').2 ∧ (k (step o c s').1).Satisfies K Q (step o c s').2
  | .diverge, _ => True

variable {step} {K : Contract Op χ σ}

/-- A specification survives what the others do within the rely. -/
theorem Satisfies.of_rely {Q : Except ε α → σ → Prop} {x : Prog Op Res ε α} {s s' : σ}
    (h : x.Satisfies step K Q s) (hr : K.rely s s') : x.Satisfies step K Q s' := by
  cases x with
  | pure a => exact fun t ht => h t (K.rely_trans hr ht)
  | throw e => exact fun t ht => h t (K.rely_trans hr ht)
  | op o k => exact fun t ht => h t (K.rely_trans hr ht)
  | diverge => trivial

/-- Consequence: the postcondition may be weakened. -/
theorem Satisfies.mono {Q Q' : Except ε α → σ → Prop} {x : Prog Op Res ε α} {s : σ}
    (h : x.Satisfies step K Q s) (hQ : ∀ r t, Q r t → Q' r t) : x.Satisfies step K Q' s := by
  induction x generalizing s with
  | pure a => exact fun t ht => hQ _ _ (h t ht)
  | throw e => exact fun t ht => hQ _ _ (h t ht)
  | op o k ih =>
    intro t ht c hc
    obtain ⟨hg, hk⟩ := h t ht c hc
    exact ⟨hg, ih _ hk⟩
  | diverge => trivial

/-- Sequencing: a value of the first part satisfies the rest, an error passes through. -/
theorem Satisfies.bind {Q : Except ε β → σ → Prop} {Q₁ : Except ε α → σ → Prop}
    {x : Prog Op Res ε α} {f : α → Prog Op Res ε β} {s : σ} (hx : x.Satisfies step K Q₁ s)
    (hok : ∀ a t, Q₁ (.ok a) t → (f a).Satisfies step K Q t)
    (herr : ∀ e t, Q₁ (.error e) t → Q (.error e) t) : (x.bind f).Satisfies step K Q s := by
  induction x generalizing s with
  | pure a => exact hok a s (hx s (K.rely_refl s))
  | throw e => exact fun t ht => herr e t (hx t ht)
  | op o k ih =>
    intro t ht c hc
    obtain ⟨hg, hk⟩ := hx t ht c hc
    exact ⟨hg, ih _ hk⟩
  | diverge => trivial

/-- A computed result followed by a program: an error passes through. -/
theorem Satisfies.ofExcept_bind {Q : Except ε β → σ → Prop} {r : Except ε α}
    {f : α → Prog Op Res ε β} {s : σ} (hok : ∀ a, r = .ok a → (f a).Satisfies step K Q s)
    (herr : ∀ e, r = .error e → ∀ t, K.rely s t → Q (.error e) t) :
    ((ofExcept r).bind f).Satisfies step K Q s := by
  cases r with
  | ok a => exact hok a rfl
  | error e => exact herr e rfl

/-- Attempting a program turns its result into a value. -/
theorem Satisfies.attempt {Q : Except ε' (Except ε α) → σ → Prop} {x : Prog Op Res ε α} {s : σ}
    (hx : x.Satisfies step K (fun r => Q (.ok r)) s) :
    (x.attempt : Prog Op Res ε' (Except ε α)).Satisfies step K Q s := by
  induction x generalizing s with
  | pure a => exact hx
  | throw e => exact hx
  | op o k ih =>
    intro t ht c hc
    obtain ⟨hg, hk⟩ := hx t ht c hc
    exact ⟨hg, ih _ hk⟩
  | diverge => trivial

/-- The invariant rule: if the rely preserves `I`, and so does every operation the program
issues, keeping the guarantee, then the program ends in `I`. -/
theorem Satisfies.of_invariant {O : Op → Prop} {I : σ → Prop} {x : Prog Op Res ε α} {s : σ}
    (huses : x.Uses O) (hrely : ∀ s t, I s → K.rely s t → I t)
    (hstep : ∀ o c s, O o → I s → K.allowed o c s → K.guar s (step o c s).2 ∧ I (step o c s).2)
    (hs : I s) : x.Satisfies step K (fun _ => I) s := by
  induction x generalizing s with
  | pure a => exact fun t ht => hrely s t hs ht
  | throw e => exact fun t ht => hrely s t hs ht
  | op o k ih =>
    intro t ht c hc
    obtain ⟨hg, hI⟩ := hstep o c t huses.1 (hrely s t hs ht) hc
    exact ⟨hg, ih _ (huses.2 _) hI⟩
  | diverge => trivial

/-- A program that meets one contract meets another that relies on more and allows less, when its
operations keep the guarantee of the other. -/
theorem Satisfies.of_uses {K' : Contract Op χ σ} {O : Op → Prop} {Q : Except ε α → σ → Prop}
    {x : Prog Op Res ε α} {s : σ} (h : x.Satisfies step K Q s) (huses : x.Uses O)
    (hrely : ∀ s t, K'.rely s t → K.rely s t)
    (hallowed : ∀ o c s, K'.allowed o c s → K.allowed o c s)
    (hguar : ∀ o c s, O o → K'.guar s (step o c s).2) : x.Satisfies step K' Q s := by
  induction x generalizing s with
  | pure a => exact fun t ht => h t (hrely _ _ ht)
  | throw e => exact fun t ht => h t (hrely _ _ ht)
  | op o k ih =>
    intro t ht c hc
    exact ⟨hguar o c t huses.1, ih _ (h t (hrely _ _ ht) c (hallowed _ _ _ hc)).2 (huses.2 _)⟩
  | diverge => trivial

/-! ## A program running alone -/

variable (step) in
/-- Execute the pending operation, if there is one. -/
def advance (c : χ) : Prog Op Res ε α × σ → Prog Op Res ε α × σ
  | (.op o k, s) => (k (step o c s).1, (step o c s).2)
  | p => p

variable (step) in
/-- A program running alone, one choice for each of its operations. -/
def drive (cs : List χ) (p : Prog Op Res ε α × σ) : Prog Op Res ε α × σ :=
  cs.foldl (fun p c => advance step c p) p

/-- The result of a program that has ended. -/
def returned : Prog Op Res ε α → Option (Except ε α)
  | .pure a => some (.ok a)
  | .throw e => some (.error e)
  | _ => none

variable (step) in
/-- Every step of the run under the given choices meets `P`. -/
def Meets (P : Op → χ → σ → Prop) : List χ → Prog Op Res ε α → σ → Prop
  | c :: cs, .op o k, s => P o c s ∧ (k (step o c s).1).Meets P cs (step o c s).2
  | _, _, _ => True

instance Meets.decidable (P : Op → χ → σ → Prop) [∀ o c s, Decidable (P o c s)] :
    ∀ (cs : List χ) (x : Prog Op Res ε α) (s : σ), Decidable (x.Meets step P cs s)
  | [], _, _ => .isTrue (by simp [Meets])
  | _ :: _, .pure _, _ => .isTrue trivial
  | _ :: _, .throw _, _ => .isTrue trivial
  | _ :: _, .diverge, _ => .isTrue trivial
  | c :: cs, .op o k, s =>
    @instDecidableAnd _ _ _ (Meets.decidable P cs (k (step o c s).1) (step o c s).2)

/-- Steps that meet two conditions meet any condition that follows from them. -/
theorem Meets.and {P P' R : Op → χ → σ → Prop} {cs : List χ} {x : Prog Op Res ε α} {s : σ}
    (h : x.Meets step P cs s) (h' : x.Meets step P' cs s)
    (hR : ∀ o c s, P o c s → P' o c s → R o c s) : x.Meets step R cs s := by
  induction cs generalizing x s with
  | nil => simp [Meets]
  | cons c cs ih =>
    cases x with
    | op o k => exact ⟨hR _ _ _ h.1 h'.1, ih h.2 h'.2⟩
    | _ => trivial

theorem Meets.of_forall {P : Op → χ → σ → Prop} (h : ∀ o c s, P o c s) (cs : List χ)
    (x : Prog Op Res ε α) (s : σ) : x.Meets step P cs s := by
  induction cs generalizing x s with
  | nil => simp [Meets]
  | cons c cs ih =>
    cases x with
    | op o k => exact ⟨h o c s, ih _ _⟩
    | _ => trivial

/-- The pending operation, if there is one, meets an allowed choice. -/
def Admits (K : Contract Op χ σ) (c : χ) : Prog Op Res ε α → σ → Prop
  | .op o _, s => K.allowed o c s
  | _, _ => True

/-- A contract that allows everything admits every choice. -/
theorem admits_of_forall {K : Contract Op χ σ} (h : ∀ o c s, K.allowed o c s) (c : χ)
    (x : Prog Op Res ε α) (s : σ) : x.Admits K c s := by
  cases x with
  | op o k => exact h o c s
  | _ => trivial

@[simp] theorem drive_nil (p : Prog Op Res ε α × σ) : drive step [] p = p := rfl

@[simp] theorem drive_cons (c : χ) (cs : List χ) (p : Prog Op Res ε α × σ) :
    drive step (c :: cs) p = drive step cs (advance step c p) := rfl

/-- Steps that agree up to maps of choices and states drive a program to the same point, in states
that are related by the map. -/
theorem drive_map {χ' τ : Type} {step' : (o : Op) → χ' → τ → Res o × τ} (f : τ → σ) (g : χ' → χ)
    (hstep : ∀ o c t, step o (g c) (f t) = ((step' o c t).1, f (step' o c t).2)) (cs : List χ')
    (x : Prog Op Res ε α) (t : τ) :
    drive step (cs.map g) (x, f t) = ((drive step' cs (x, t)).1, f (drive step' cs (x, t)).2) := by
  induction cs generalizing x t with
  | nil => rfl
  | cons c cs ih =>
    cases x with
    | op o k =>
      rw [List.map_cons, drive_cons, drive_cons, advance, hstep]
      exact ih _ _
    | _ => exact ih _ _

/-- A program that has ended in a state satisfying a specification satisfies the
postcondition. -/
theorem Satisfies.returned {Q : Except ε α → σ → Prop} {x : Prog Op Res ε α} {s : σ}
    (h : x.Satisfies step K Q s) {r : Except ε α} (hr : x.returned = some r) : Q r s := by
  cases x with
  | pure a =>
    obtain rfl : Except.ok a = r := by simpa [Prog.returned] using hr
    exact h s (K.rely_refl s)
  | throw e =>
    obtain rfl : Except.error e = r := by simpa [Prog.returned] using hr
    exact h s (K.rely_refl s)
  | op o k => simp [Prog.returned] at hr
  | diverge => simp [Prog.returned] at hr

/-- A program that has ended satisfies a specification whose postcondition is stable. -/
theorem Satisfies.of_returned {Q : Except ε α → σ → Prop} {x : Prog Op Res ε α} {s : σ}
    {r : Except ε α} (hr : x.returned = some r) (hQ : ∀ t, K.rely s t → Q r t) :
    x.Satisfies step K Q s := by
  cases x with
  | pure a => exact fun t ht => Option.some.inj hr ▸ hQ t ht
  | throw e => exact fun t ht => Option.some.inj hr ▸ hQ t ht
  | op o k => cases hr
  | diverge => cases hr

/-- One step of a program that satisfies a specification keeps the guarantee and leaves a
program that satisfies it. -/
theorem Satisfies.advance {Q : Except ε α → σ → Prop} {x : Prog Op Res ε α} {s : σ} {c : χ}
    (h : x.Satisfies step K Q s) (hc : x.Admits K c s) :
    K.guar s (Prog.advance step c (x, s)).2 ∧
      (Prog.advance step c (x, s)).1.Satisfies step K Q (Prog.advance step c (x, s)).2 := by
  cases x with
  | pure a => exact ⟨K.guar_refl s, h⟩
  | throw e => exact ⟨K.guar_refl s, h⟩
  | op o k => exact h s (K.rely_refl s) c hc
  | diverge => exact ⟨K.guar_refl s, h⟩

/-- A program alone whose choices are all allowed keeps its specification to the end. -/
theorem Satisfies.drive {Q : Except ε α → σ → Prop} {x : Prog Op Res ε α} {s : σ} {cs : List χ}
    (h : x.Satisfies step K Q s) (hcs : x.Meets step K.allowed cs s) :
    (Prog.drive step cs (x, s)).1.Satisfies step K Q (Prog.drive step cs (x, s)).2 := by
  induction cs generalizing x s with
  | nil => exact h
  | cons c cs ih =>
    cases x with
    | op o k => exact ih (h s (K.rely_refl s) c hcs.1).2 hcs.2
    | pure a => exact ih h (by cases cs <;> trivial)
    | throw e => exact ih h (by cases cs <;> trivial)
    | diverge => exact ih h (by cases cs <;> trivial)

/-- The postcondition of a program alone that has ended. -/
theorem Satisfies.drive_returned {Q : Except ε α → σ → Prop} {x : Prog Op Res ε α} {s : σ}
    {cs : List χ} {r : Except ε α} (h : x.Satisfies step K Q s)
    (hcs : x.Meets step K.allowed cs s) (hr : (Prog.drive step cs (x, s)).1.returned = some r) :
    Q r (Prog.drive step cs (x, s)).2 :=
  (h.drive hcs).returned hr

end Prog

/-! ## Interleavings -/

/-- A program in the course of a run, and whether it has taken its first step. -/
structure Process (Op : Type) (Res : Op → Type) (ε α : Type) where
  /-- The program has executed an operation. -/
  started : Bool
  /-- What is left to run. -/
  prog : Prog Op Res ε α

/-- The shared state and the programs that run over it. -/
structure Config (ι Op : Type) (Res : Op → Type) (ε α σ : Type) where
  /-- The shared state. -/
  shared : σ
  /-- The programs. -/
  procs : ι → Process Op Res ε α

/-- One step of an interleaving: program `i` executes its pending operation under a choice, or
another party acts. -/
inductive Event (ι χ η : Type)
  | run (i : ι) (c : χ)
  | other (e : η)

namespace Event

variable {ι χ η : Type}

/-- The program that takes the step. -/
def actor : Event ι χ η → Option ι
  | .run i _ => some i
  | .other _ => none

/-- The choice under which a program takes the step. -/
def choice : Event ι χ η → Option χ
  | .run _ c => some c
  | .other _ => none

/-- What the other parties alone make of a state. -/
def others {σ : Type} (env : η → σ → σ) (es : List (Event ι χ η)) (s : σ) : σ :=
  es.foldl (fun s e => match e with
    | .run _ _ => s
    | .other e => env e s) s

theorem eq_run {e : Event ι χ η} {i : ι} (h : e.actor = some i) : ∃ c, e = .run i c := by
  cases e with
  | run j c => exact ⟨c, by rw [Option.some.inj h]⟩
  | other e => cases h

end Event

namespace Config

variable {ι Op : Type} {Res : Op → Type} {ε α σ χ η : Type} [DecidableEq ι]
variable (step : (o : Op) → χ → σ → Res o × σ) (env : η → σ → σ)

/-- The configuration after one event. -/
def next : Event ι χ η → Config ι Op Res ε α σ → Config ι Op Res ε α σ
  | .run i c, cfg =>
    { shared := (Prog.advance step c ((cfg.procs i).prog, cfg.shared)).2
      procs := Function.update cfg.procs i
        { started := true
          prog := (Prog.advance step c ((cfg.procs i).prog, cfg.shared)).1 } }
  | .other e, cfg => { cfg with shared := env e cfg.shared }

/-- The configuration after a list of events. -/
def exec (es : List (Event ι χ η)) (cfg : Config ι Op Res ε α σ) : Config ι Op Res ε α σ :=
  es.foldl (fun cfg e => next step env e cfg) cfg

/-- Every event meets `P` in the configuration in which it happens. -/
def Along (P : Config ι Op Res ε α σ → Event ι χ η → Prop) :
    List (Event ι χ η) → Config ι Op Res ε α σ → Prop
  | [], _ => True
  | e :: es, cfg => P cfg e ∧ Along P es (next step env e cfg)

instance Along.decidable (P : Config ι Op Res ε α σ → Event ι χ η → Prop)
    [∀ cfg e, Decidable (P cfg e)] : ∀ es cfg, Decidable (Along step env P es cfg)
  | [], _ => .isTrue trivial
  | e :: es, cfg => @instDecidableAnd _ _ _ (Along.decidable P es (next step env e cfg))

/-- The contracts allow the event: a program meets an allowed choice, and another party acts within
what every program relies on. -/
def Fits (K : ι → Contract Op χ σ) (cfg : Config ι Op Res ε α σ) : Event ι χ η → Prop
  | .run i c => (cfg.procs i).prog.Admits (K i) c cfg.shared
  | .other e => ∀ i, (K i).rely cfg.shared (env e cfg.shared)

variable {step env}

theorem along_of_forall {P : Config ι Op Res ε α σ → Event ι χ η → Prop} (h : ∀ cfg e, P cfg e) :
    ∀ es (cfg : Config ι Op Res ε α σ), Along step env P es cfg
  | [], _ => trivial
  | _ :: es, _ => ⟨h _ _, along_of_forall h es _⟩

/-- A step leaves the programs that do not take it as they are. -/
theorem procs_next_of_ne {e : Event ι χ η} {i : ι} (h : e.actor ≠ some i)
    (cfg : Config ι Op Res ε α σ) : (next step env e cfg).procs i = cfg.procs i := by
  cases e with
  | run j c => exact Function.update_of_ne (fun hij => h (by rw [Event.actor, hij])) _ _
  | other e => rfl

theorem Along.and {P P' : Config ι Op Res ε α σ → Event ι χ η → Prop} {es : List (Event ι χ η)}
    {cfg : Config ι Op Res ε α σ} (h : Along step env P es cfg) (h' : Along step env P' es cfg) :
    Along step env (fun cfg e => P cfg e ∧ P' cfg e) es cfg := by
  induction es generalizing cfg with
  | nil => trivial
  | cons e es ih => exact ⟨⟨h.1, h'.1⟩, ih h.2 h'.2⟩

/-- Under an invariant, events that meet `P` meet what follows from both. -/
theorem Along.of_invariant {I : Config ι Op Res ε α σ → Prop}
    {P R : Config ι Op Res ε α σ → Event ι χ η → Prop}
    (hnext : ∀ cfg e, I cfg → P cfg e → I (next step env e cfg))
    (hstep : ∀ cfg e, I cfg → P cfg e → R cfg e) {es : List (Event ι χ η)}
    {cfg : Config ι Op Res ε α σ} (hI : I cfg) (hP : Along step env P es cfg) :
    Along step env R es cfg := by
  induction es generalizing cfg with
  | nil => trivial
  | cons e es ih => exact ⟨hstep cfg e hI hP.1, ih (hnext cfg e hI hP.1) hP.2⟩

/-- An invariant kept by every event that meets `P` holds after every run whose events all
meet `P`. -/
theorem exec_invariant {I : Config ι Op Res ε α σ → Prop}
    {P : Config ι Op Res ε α σ → Event ι χ η → Prop}
    (hnext : ∀ cfg e, I cfg → P cfg e → I (next step env e cfg)) {es : List (Event ι χ η)}
    {cfg : Config ι Op Res ε α σ} (hI : I cfg) (hP : Along step env P es cfg) :
    I (exec step env es cfg) := by
  induction es generalizing cfg with
  | nil => exact hI
  | cons e es ih => exact ih (hnext cfg e hI hP.1) hP.2

/-- The parallel composition rule: when what each program guarantees is within what every other
relies on, programs that satisfy their specifications still do after any interleaving whose steps
the contracts allow. -/
theorem exec_satisfies {K : ι → Contract Op χ σ} {Q : ι → Except ε α → σ → Prop}
    (hcompat : ∀ i j, i ≠ j → ∀ s t, (K i).guar s t → (K j).rely s t) {es : List (Event ι χ η)}
    {cfg : Config ι Op Res ε α σ}
    (hspec : ∀ i, (cfg.procs i).prog.Satisfies step (K i) (Q i) cfg.shared)
    (hfits : Along step env (Fits env K) es cfg) (i : ι) :
    ((exec step env es cfg).procs i).prog.Satisfies step (K i) (Q i)
      (exec step env es cfg).shared := by
  refine exec_invariant (I := fun cfg => ∀ i, (cfg.procs i).prog.Satisfies step (K i) (Q i)
    cfg.shared) (fun cfg e hI he => ?_) hspec hfits i
  cases e with
  | run i c =>
    -- program `i` goes on under its own contract, and the others rely on what it guarantees
    obtain ⟨hguar, hnext⟩ := (hI i).advance he
    intro j
    by_cases hji : j = i
    · subst hji
      simpa only [next, Function.update_self] using hnext
    · simp only [next, Function.update_of_ne hji]
      exact (hI j).of_rely (hcompat i j (Ne.symm hji) _ _ hguar)
  | other e => exact fun j => (hI j).of_rely (he j)

/-- What the steps of a program and of the others keep relates the end of an interleaving to its
start. -/
theorem exec_related {K : ι → Contract Op χ σ} {Q : ι → Except ε α → σ → Prop}
    (hcompat : ∀ i j, i ≠ j → ∀ s t, (K i).guar s t → (K j).rely s t) {R : σ → σ → Prop}
    (htrans : ∀ {a b c}, R a b → R b c → R a c) {i : ι} (hrely : ∀ s t, (K i).rely s t → R s t)
    (hguar : ∀ s t, (K i).guar s t → R s t) {es : List (Event ι χ η)}
    {cfg : Config ι Op Res ε α σ}
    (hspec : ∀ i, (cfg.procs i).prog.Satisfies step (K i) (Q i) cfg.shared)
    (hfits : Along step env (Fits env K) es cfg) : R cfg.shared (exec step env es cfg).shared := by
  induction es generalizing cfg with
  | nil => exact hrely _ _ ((K i).rely_refl _)
  | cons e es ih =>
    refine htrans ?_ (ih (fun j => ?_) hfits.2)
    · cases e with
      | run j c =>
        obtain ⟨hg, -⟩ := (hspec j).advance hfits.1
        by_cases hji : j = i
        · subst hji
          exact hguar _ _ hg
        · exact hrely _ _ (hcompat j i hji _ _ hg)
      | other e => exact hrely _ _ (hfits.1 i)
    · have hfit : Along step env (Fits env K) [e] cfg := ⟨hfits.1, trivial⟩
      exact exec_satisfies hcompat hspec hfit j

/-- Programs that guarantee to change nothing leave the state to the others. -/
theorem exec_unseen {K : ι → Contract Op χ σ} {Q : ι → Except ε α → σ → Prop}
    (hquiet : ∀ i s t, (K i).guar s t → t = s) {es : List (Event ι χ η)}
    {cfg : Config ι Op Res ε α σ}
    (hspec : ∀ i, (cfg.procs i).prog.Satisfies step (K i) (Q i) cfg.shared)
    (hfits : Along step env (Fits env K) es cfg) :
    (exec step env es cfg).shared = Event.others env es cfg.shared := by
  have hcompat : ∀ i j, i ≠ j → ∀ s t, (K i).guar s t → (K j).rely s t := by
    intro i j _ s t h
    rw [hquiet i s t h]
    exact (K j).rely_refl s
  induction es generalizing cfg with
  | nil => rfl
  | cons e es ih =>
    have hfit : Along step env (Fits env K) [e] cfg := ⟨hfits.1, trivial⟩
    refine (ih (fun j => exec_satisfies hcompat hspec hfit j) hfits.2).trans ?_
    cases e with
    | run i c =>
      have hsame : (next step env (.run i c) cfg).shared = cfg.shared :=
        hquiet i _ _ ((hspec i).advance hfits.1).1
      show Event.others env es (next step env (.run i c) cfg).shared = _
      rw [hsame]
      rfl
    | other e => rfl

end Config

end Effects
