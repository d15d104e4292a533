import Cry.Effects.RelyGuarantee
import Mathlib.Data.Nat.Find

/-!
# Total correctness

`Prog.Satisfies` promises nothing of a program that runs out of fuel. `Prog.Ends` does: under a
contract, whatever the allowed choices and whatever the others do within the rely, the program never
runs out of fuel, and it ends in its postcondition. A program is a well-founded tree, so each of its
runs is finite, although there may be no bound on their lengths.

* `Ends.bind`, `Ends.attempt`, `Ends.and`: the rules, as for `Satisfies`;
* `Ends.related`: what every single step keeps relates the end of a run to its start;
* `Ends.exists_returned`: a program alone ends on every infinite sequence of allowed choices;
* `Config.exists_returned_of_fair`: programs that meet each other's contracts all end in every fair
  interleaving, and stay in their postconditions.

Nothing here depends on which operations there are.
-/

namespace Effects

namespace Prog

variable {Op : Type} {Res : Op → Type} {ε ε' α β σ χ : Type}
variable (step : (o : Op) → χ → σ → Res o × σ)

/-- Under the contract `K`, every run of the program from the state keeps the guarantee at each of
its steps, does not run out of fuel, and ends in `Q`, where it stays under the rely. -/
def Ends (K : Contract Op χ σ) (Q : Except ε α → σ → Prop) : Prog Op Res ε α → σ → Prop
  | .pure a, s => ∀ s', K.rely s s' → Q (.ok a) s'
  | .throw e, s => ∀ s', K.rely s s' → Q (.error e) s'
  | .op o k, s => ∀ s', K.rely s s' → ∀ c, K.allowed o c s' →
      K.guar s' (step o c s').2 ∧ (k (step o c s').1).Ends K Q (step o c s').2
  | .diverge, _ => False

variable {step} {K : Contract Op χ σ}

theorem Ends.of_rely {Q : Except ε α → σ → Prop} {x : Prog Op Res ε α} {s s' : σ}
    (h : x.Ends step K Q s) (hr : K.rely s s') : x.Ends step K Q s' := by
  cases x with
  | pure a => exact fun t ht => h t (K.rely_trans hr ht)
  | throw e => exact fun t ht => h t (K.rely_trans hr ht)
  | op o k => exact fun t ht => h t (K.rely_trans hr ht)
  | diverge => exact h

/-- Two postconditions of which one is only a partial specification. -/
theorem Ends.and {Q Q' R : Except ε α → σ → Prop} {x : Prog Op Res ε α} {s : σ}
    (h : x.Ends step K Q s) (h' : x.Satisfies step K Q' s)
    (hR : ∀ r t, Q r t → Q' r t → R r t) : x.Ends step K R s := by
  induction x generalizing s with
  | pure a => exact fun t ht => hR _ _ (h t ht) (h' t ht)
  | throw e => exact fun t ht => hR _ _ (h t ht) (h' t ht)
  | op o k ih =>
    intro t ht c hc
    obtain ⟨hg, hk⟩ := h t ht c hc
    exact ⟨hg, ih _ hk (h' t ht c hc).2⟩
  | diverge => exact h

/-- Consequence: the postcondition may be weakened. -/
theorem Ends.mono {Q Q' : Except ε α → σ → Prop} {x : Prog Op Res ε α} {s : σ}
    (h : x.Ends step K Q s) (hQ : ∀ r t, Q r t → Q' r t) : x.Ends step K Q' s := by
  induction x generalizing s with
  | pure a => exact fun t ht => hQ _ _ (h t ht)
  | throw e => exact fun t ht => hQ _ _ (h t ht)
  | op o k ih =>
    intro t ht c hc
    obtain ⟨hg, hk⟩ := h t ht c hc
    exact ⟨hg, ih _ hk⟩
  | diverge => exact h

/-- Sequencing: a value of the first part ends with the rest, an error passes through. -/
theorem Ends.bind {Q : Except ε β → σ → Prop} {Q₁ : Except ε α → σ → Prop} {x : Prog Op Res ε α}
    {f : α → Prog Op Res ε β} {s : σ} (hx : x.Ends step K Q₁ s)
    (hok : ∀ a t, Q₁ (.ok a) t → (f a).Ends step K Q t)
    (herr : ∀ e t, Q₁ (.error e) t → Q (.error e) t) : (x.bind f).Ends step K Q s := by
  induction x generalizing s with
  | pure a => exact hok a s (hx s (K.rely_refl s))
  | throw e => exact fun t ht => herr e t (hx t ht)
  | op o k ih =>
    intro t ht c hc
    obtain ⟨hg, hk⟩ := hx t ht c hc
    exact ⟨hg, ih _ hk⟩
  | diverge => exact hx

/-- A computed result followed by a program: an error passes through. -/
theorem Ends.ofExcept_bind {Q : Except ε β → σ → Prop} {r : Except ε α} {f : α → Prog Op Res ε β}
    {s : σ} (hok : ∀ a, r = .ok a → (f a).Ends step K Q s)
    (herr : ∀ e, r = .error e → ∀ t, K.rely s t → Q (.error e) t) :
    ((ofExcept r).bind f).Ends step K Q s := by
  cases r with
  | ok a => exact hok a rfl
  | error e => exact herr e rfl

/-- A computed result ends where it satisfies the postcondition for good. -/
theorem Ends.ofExcept {Q : Except ε α → σ → Prop} {r : Except ε α} {s : σ}
    (h : ∀ t, K.rely s t → Q r t) : (ofExcept r).Ends step K Q s := by
  cases r with
  | ok a => exact h
  | error e => exact h

/-- Attempting a program turns its result into a value. -/
theorem Ends.attempt {Q : Except ε' (Except ε α) → σ → Prop} {x : Prog Op Res ε α} {s : σ}
    (hx : x.Ends step K (fun r => Q (.ok r)) s) :
    (x.attempt : Prog Op Res ε' (Except ε α)).Ends step K Q s := by
  induction x generalizing s with
  | pure a => exact hx
  | throw e => exact hx
  | op o k ih =>
    intro t ht c hc
    obtain ⟨hg, hk⟩ := hx t ht c hc
    exact ⟨hg, ih _ hk⟩
  | diverge => exact hx

/-- A contract that relies on more and allows less is met by the same program. -/
theorem Ends.strengthen {K' : Contract Op χ σ} {Q : Except ε α → σ → Prop} {x : Prog Op Res ε α}
    {s : σ} (h : x.Ends step K Q s) (hrely : ∀ s t, K'.rely s t → K.rely s t)
    (hallowed : ∀ o c s, K'.allowed o c s → K.allowed o c s)
    (hguar : ∀ s t, K.guar s t → K'.guar s t) : x.Ends step K' Q s := by
  induction x generalizing s with
  | pure a => exact fun t ht => h t (hrely _ _ ht)
  | throw e => exact fun t ht => h t (hrely _ _ ht)
  | op o k ih =>
    intro t ht c hc
    obtain ⟨hg, hk⟩ := h t (hrely _ _ ht) c (hallowed _ _ _ hc)
    exact ⟨hguar _ _ hg, ih _ hk⟩
  | diverge => exact h

/-- What the steps of the program and of the others keep relates the end of a run to its start. -/
theorem Ends.related {R : σ → σ → Prop} (htrans : ∀ {a b c}, R a b → R b c → R a c)
    (hrely : ∀ s t, K.rely s t → R s t) (hguar : ∀ s t, K.guar s t → R s t)
    {Q : Except ε α → σ → Prop} {x : Prog Op Res ε α} {s : σ} (h : x.Ends step K Q s) :
    x.Ends step K (fun r t => Q r t ∧ R s t) s := by
  -- from any earlier state that is related to the present one
  suffices hfrom : ∀ s₀, R s₀ s → x.Ends step K (fun r t => Q r t ∧ R s₀ t) s from
    hfrom s (hrely _ _ (K.rely_refl s))
  induction x generalizing s with
  | pure a => exact fun s₀ hs₀ t ht => ⟨h t ht, htrans hs₀ (hrely _ _ ht)⟩
  | throw e => exact fun s₀ hs₀ t ht => ⟨h t ht, htrans hs₀ (hrely _ _ ht)⟩
  | op o k ih =>
    intro s₀ hs₀ t ht c hc
    obtain ⟨hg, hk⟩ := h t ht c hc
    exact ⟨hg, ih _ hk s₀ (htrans (htrans hs₀ (hrely _ _ ht)) (hguar _ _ hg))⟩
  | diverge => exact h.elim

/-- The postcondition of a program that has ended. -/
theorem Ends.returned {Q : Except ε α → σ → Prop} {x : Prog Op Res ε α} {s : σ}
    (h : x.Ends step K Q s) {r : Except ε α} (hr : x.returned = some r) : Q r s := by
  cases x with
  | pure a =>
    obtain rfl : Except.ok a = r := Option.some.inj hr
    exact h s (K.rely_refl s)
  | throw e =>
    obtain rfl : Except.error e = r := Option.some.inj hr
    exact h s (K.rely_refl s)
  | op o k => cases hr
  | diverge => cases hr

/-- One step of a program that ends keeps the guarantee and leaves a program that ends. -/
theorem Ends.advance {Q : Except ε α → σ → Prop} {x : Prog Op Res ε α} {s : σ} {c : χ}
    (h : x.Ends step K Q s) (hc : x.Admits K c s) :
    K.guar s (Prog.advance step c (x, s)).2 ∧
      (Prog.advance step c (x, s)).1.Ends step K Q (Prog.advance step c (x, s)).2 := by
  cases x with
  | pure a => exact ⟨K.guar_refl s, h⟩
  | throw e => exact ⟨K.guar_refl s, h⟩
  | op o k => exact h s (K.rely_refl s) c hc
  | diverge => exact h.elim

/-- A program that has ended does not move. -/
theorem advance_of_returned {x : Prog Op Res ε α} {r : Except ε α} (hr : x.returned = some r)
    (c : χ) (s : σ) : Prog.advance step c (x, s) = (x, s) := by
  cases x with
  | pure a => rfl
  | throw e => rfl
  | op o k => cases hr
  | diverge => cases hr

/-- The state of a program alone after the first `n` choices of a sequence. -/
def driveFor (step : (o : Op) → χ → σ → Res o × σ) (cs : ℕ → χ) (n : ℕ)
    (p : Prog Op Res ε α × σ) : Prog Op Res ε α × σ :=
  drive step ((List.range n).map cs) p

theorem driveFor_succ (cs : ℕ → χ) (n : ℕ) (p : Prog Op Res ε α × σ) :
    driveFor step cs (n + 1) p =
      driveFor step (fun m => cs (m + 1)) n (Prog.advance step (cs 0) p) := by
  rw [driveFor, List.range_succ_eq_map, List.map_cons, List.map_map, drive_cons]
  rfl

/-- A program alone ends on every infinite sequence of allowed choices. -/
theorem Ends.exists_returned {Q : Except ε α → σ → Prop} {x : Prog Op Res ε α} {s : σ}
    (h : x.Ends step K Q s) {cs : ℕ → χ} (hcs : ∀ n o t, K.allowed o (cs n) t) :
    ∃ n r, (driveFor step cs n (x, s)).1.returned = some r ∧
      Q r (driveFor step cs n (x, s)).2 := by
  -- induction on the program, with the rest of the sequence for what is left of it
  induction x generalizing s cs with
  | pure a => exact ⟨0, _, rfl, h s (K.rely_refl s)⟩
  | throw e => exact ⟨0, _, rfl, h s (K.rely_refl s)⟩
  | op o k ih =>
    obtain ⟨-, hk⟩ := h s (K.rely_refl s) (cs 0) (hcs 0 o s)
    obtain ⟨n, r, hr, hQ⟩ := ih _ hk fun m => hcs (m + 1)
    refine ⟨n + 1, r, ?_⟩
    rw [driveFor_succ]
    exact ⟨hr, hQ⟩
  | diverge => exact h.elim

end Prog

/-! ## Fair interleavings -/

namespace Event

variable {ι χ η : Type}

/-- The program has a turn again and again. -/
def Fair (es : ℕ → Event ι χ η) (i : ι) : Prop := ∀ n, ∃ m, n ≤ m ∧ (es m).actor = some i

/-- Under fairness there is a next turn, before which the program has none. -/
theorem Fair.next_turn {es : ℕ → Event ι χ η} {i : ι} (h : Fair es i) (n : ℕ) :
    ∃ m c, n ≤ m ∧ es m = .run i c ∧ ∀ l, n ≤ l → l < m → (es l).actor ≠ some i := by
  classical
  have hturn := Nat.find_spec (h n)
  obtain ⟨c, hc⟩ := eq_run hturn.2
  exact ⟨_, c, hturn.1, hc, fun l hl hlt hact => Nat.find_min (h n) hlt ⟨hl, hact⟩⟩

end Event

namespace Config

variable {ι Op : Type} {Res : Op → Type} {ε α σ χ η : Type} [DecidableEq ι]
variable (step : (o : Op) → χ → σ → Res o × σ) (env : η → σ → σ)

/-- The configuration after the first `n` events of an infinite interleaving. -/
def execFor (es : ℕ → Event ι χ η) (cfg : Config ι Op Res ε α σ) : ℕ → Config ι Op Res ε α σ
  | 0 => cfg
  | n + 1 => next step env (es n) (execFor es cfg n)

variable {step env} {K : ι → Contract Op χ σ} {Q : ι → Except ε α → σ → Prop}
variable {es : ℕ → Event ι χ η} {cfg : Config ι Op Res ε α σ}

/-- Whatever the events, programs that meet each other's contracts still end. -/
theorem ends_execFor (hcompat : ∀ i j, i ≠ j → ∀ s t, (K i).guar s t → (K j).rely s t)
    (hspec : ∀ i, (cfg.procs i).prog.Ends step (K i) (Q i) cfg.shared)
    (hfits : ∀ n, Fits env K (execFor step env es cfg n) (es n)) (n : ℕ) (i : ι) :
    ((execFor step env es cfg n).procs i).prog.Ends step (K i) (Q i)
      (execFor step env es cfg n).shared := by
  induction n generalizing i with
  | zero => exact hspec i
  | succ n ih =>
    have hfit := hfits n
    rw [execFor]
    cases he : es n with
    | run j c =>
      rw [he] at hfit
      -- program `j` goes on under its own contract, and the others rely on what it guarantees
      obtain ⟨hguar, hnext⟩ := (ih j).advance hfit
      by_cases hij : i = j
      · subst hij
        simpa only [next, Function.update_self] using hnext
      · simp only [next, Function.update_of_ne hij]
        exact (ih i).of_rely (hcompat j i (Ne.symm hij) _ _ hguar)
    | other e =>
      rw [he] at hfit
      exact (ih i).of_rely (hfit i)

/-- A program is as it was until it has its turn. -/
theorem prog_execFor_of_ne {i : ι} {n m : ℕ} (hnm : n ≤ m)
    (hturn : ∀ l, n ≤ l → l < m → (es l).actor ≠ some i) :
    (execFor step env es cfg m).procs i = (execFor step env es cfg n).procs i := by
  induction m, hnm using Nat.le_induction with
  | base => rfl
  | succ m hnm ih =>
    rw [execFor, procs_next_of_ne (hturn m hnm (Nat.lt_succ_self m)),
      ih fun l hl hlm => hturn l hl (Nat.lt_succ_of_lt hlm)]

/-- A program that has ended stays as it is. -/
theorem returned_execFor {i : ι} {n m : ℕ} (hnm : n ≤ m) {r : Except ε α}
    (hr : ((execFor step env es cfg n).procs i).prog.returned = some r) :
    ((execFor step env es cfg m).procs i).prog.returned = some r := by
  induction m, hnm using Nat.le_induction with
  | base => exact hr
  | succ m hnm ih =>
    rw [execFor]
    cases he : es m with
    | run j c =>
      by_cases hij : i = j
      · subst hij
        simpa only [next, Function.update_self, Prog.advance_of_returned ih] using ih
      · simpa only [next, Function.update_of_ne hij] using ih
    | other e => exact ih

/-- What happens after a program has ended is within its rely. -/
theorem rely_execFor (hcompat : ∀ i j, i ≠ j → ∀ s t, (K i).guar s t → (K j).rely s t)
    (hspec : ∀ i, (cfg.procs i).prog.Ends step (K i) (Q i) cfg.shared)
    (hfits : ∀ n, Fits env K (execFor step env es cfg n) (es n)) {i : ι} {n m : ℕ} (hnm : n ≤ m)
    {r : Except ε α} (hr : ((execFor step env es cfg n).procs i).prog.returned = some r) :
    (K i).rely (execFor step env es cfg n).shared (execFor step env es cfg m).shared := by
  induction m, hnm using Nat.le_induction with
  | base => exact (K i).rely_refl _
  | succ m hnm ih =>
    have hfit := hfits m
    refine (K i).rely_trans ih ?_
    rw [execFor]
    cases he : es m with
    | run j c =>
      rw [he] at hfit
      by_cases hij : i = j
      · -- the program itself does not move any more
        subst hij
        simp only [next, Prog.advance_of_returned (returned_execFor hnm hr)]
        exact (K i).rely_refl _
      · exact hcompat j i (Ne.symm hij) _ _
          (((ends_execFor hcompat hspec hfits m j).advance hfit).1)
    | other e =>
      rw [he] at hfit
      exact hfit i

/-- In a fair interleaving whose events the contracts allow, a program of a family that meet each
other's contracts ends in its postcondition, and what happens from then on is within its rely. -/
theorem exists_returned_of_fair (hcompat : ∀ i j, i ≠ j → ∀ s t, (K i).guar s t → (K j).rely s t)
    (hspec : ∀ i, (cfg.procs i).prog.Ends step (K i) (Q i) cfg.shared)
    (hfits : ∀ n, Fits env K (execFor step env es cfg n) (es n)) {i : ι} (hfair : Event.Fair es i) :
    ∃ n r, Q i r (execFor step env es cfg n).shared ∧ ∀ m, n ≤ m →
      ((execFor step env es cfg m).procs i).prog.returned = some r ∧
        (K i).rely (execFor step env es cfg n).shared (execFor step env es cfg m).shared := by
  have hends := ends_execFor hcompat hspec hfits
  have hreturns : ∀ (x : Prog Op Res ε α) (n : ℕ),
      ((execFor step env es cfg n).procs i).prog = x →
        ∃ m r, ((execFor step env es cfg m).procs i).prog.returned = some r := by
    intro x
    -- induction on what is left of the program: its next turn comes, and takes one step
    induction x with
    | pure a => exact fun n hx => ⟨n, .ok a, by rw [hx]; rfl⟩
    | throw e => exact fun n hx => ⟨n, .error e, by rw [hx]; rfl⟩
    | diverge =>
      intro n hx
      have hend := hends n i
      rw [hx] at hend
      exact hend.elim
    | op o k ih =>
      intro n hx
      obtain ⟨m, c, hle, hturn, hwait⟩ := hfair.next_turn n
      have hsame : (execFor step env es cfg m).procs i = (execFor step env es cfg n).procs i :=
        prog_execFor_of_ne hle hwait
      refine ih (step o c (execFor step env es cfg m).shared).1 (m + 1) ?_
      simp only [execFor, hturn, next, Function.update_self, hsame, hx, Prog.advance]
  obtain ⟨n, r, hr⟩ := hreturns _ 0 rfl
  exact ⟨n, r, (hends n i).returned hr, fun m hm =>
    ⟨returned_execFor hm hr, rely_execFor hcompat hspec hfits hm hr⟩⟩

end Config

end Effects
