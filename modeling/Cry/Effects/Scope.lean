import Cry.Effects.RelyGuarantee

/-!
# Destructors

A value with a destructor is dropped when its scope is left, with a result or with an error. The
destructor itself has no error to return.

* `Prog.thenDrop`: a scope and the destructor at its end;
* `Satisfies.thenDrop`: the destructor is specified from wherever the scope can end;
* `Contract.keeping`, `Satisfies.drive_keeping`: what every state of a run satisfies;
* `exists_cons_of_returned`: a program that has ended has met a choice at each of its operations.

Nothing here depends on which operations there are.
-/

namespace Effects

/-- The contract of a program that runs alone and keeps an invariant at each of its steps. -/
def Contract.keeping {Op χ σ : Type} (A : Op → χ → σ → Prop) (I : σ → Prop) :
    Contract Op χ σ where
  allowed := A
  rely s t := s = t
  guar s t := I s → I t
  rely_refl _ := rfl
  rely_trans := Eq.trans
  guar_refl _ := id

namespace Prog

variable {Op : Type} {Res : Op → Type} {ε ε' α σ χ : Type}

/-- Leave a scope: run the destructor, whatever the result. -/
def thenDrop (x : Prog Op Res ε α) (d : Prog Op Res Empty Unit) : Prog Op Res ε α :=
  x.attempt.bind fun r => d.attempt.bind fun _ => ofExcept r

theorem Uses.attempt {O : Op → Prop} {x : Prog Op Res ε α} (hx : x.Uses O) :
    (x.attempt : Prog Op Res ε' (Except ε α)).Uses O := by
  induction x with
  | op o k ih => exact ⟨hx.1, fun r => ih r (hx.2 r)⟩
  | _ => trivial

theorem Uses.thenDrop {O : Op → Prop} {x : Prog Op Res ε α} {d : Prog Op Res Empty Unit}
    (hx : x.Uses O) (hd : d.Uses O) : (x.thenDrop d).Uses O :=
  uses_bind hx.attempt fun r => uses_bind hd.attempt fun _ => uses_ofExcept r

variable {step : (o : Op) → χ → σ → Res o × σ} {K : Contract Op χ σ}

/-- Nothing is asked of a program alone. -/
theorem satisfies_alone (A : Op → χ → σ → Prop) (x : Prog Op Res ε α) (s : σ) :
    x.Satisfies step (.alone A) (fun _ _ => True) s := by
  induction x generalizing s with
  | op o k ih => exact fun t _ c _ => ⟨trivial, ih _ _⟩
  | pure a => exact fun _ _ => trivial
  | throw e => exact fun _ _ => trivial
  | diverge => trivial

/-- A value or an error may be returned where it satisfies the postcondition for good. -/
theorem Satisfies.ofExcept {Q : Except ε α → σ → Prop} {r : Except ε α} {s : σ}
    (h : ∀ t, K.rely s t → Q r t) : (ofExcept r).Satisfies step K Q s := by
  cases r with
  | ok a => exact h
  | error e => exact h

/-- A scope whose destructor leads from every end of the scope to the postcondition. -/
theorem Satisfies.thenDrop {P Q : Except ε α → σ → Prop} {x : Prog Op Res ε α}
    {d : Prog Op Res Empty Unit} {s : σ} (hx : x.Satisfies step K P s)
    (hd : ∀ r t, P r t → d.Satisfies step K (fun _ t' => ∀ u, K.rely t' u → Q r u) t) :
    (x.thenDrop d).Satisfies step K Q s := by
  have hscope : (x.attempt : Prog Op Res ε (Except ε α)).Satisfies step K
      (fun r t => ∃ r', r = .ok r' ∧ P r' t) s :=
    Satisfies.attempt (hx.mono fun r t h => ⟨r, rfl, h⟩)
  refine hscope.bind (fun r t h => ?_) fun e t h => ?_
  · obtain ⟨r', heq, hP⟩ := h
    obtain rfl := Except.ok.inj heq
    -- the destructor has no error to raise, and the result of the scope is handed on
    have hdrop : (d.attempt : Prog Op Res ε (Except Empty Unit)).Satisfies step K
        (fun q t' => (∃ u, q = .ok u) ∧ ∀ u, K.rely t' u → Q r u) t :=
      Satisfies.attempt ((hd r t hP).mono fun q t' h' => ⟨⟨q, rfl⟩, h'⟩)
    refine hdrop.bind (fun q t' h' => Satisfies.ofExcept h'.2) fun e t' h' => ?_
    obtain ⟨⟨u, hu⟩, -⟩ := h'
    cases hu
  · obtain ⟨r', heq, -⟩ := h
    cases heq

/-- A program alone that keeps an invariant satisfies it in every state of a run. -/
theorem Satisfies.drive_keeping {A : Op → χ → σ → Prop} {I : σ → Prop}
    {Q : Except ε α → σ → Prop} {x : Prog Op Res ε α} {s : σ} {cs : List χ}
    (h : x.Satisfies step (.keeping A I) Q s) (hcs : x.Meets step A cs s) (hs : I s) :
    I (Prog.drive step cs (x, s)).2 := by
  -- induction on the choices; a program that has ended takes no step
  induction cs generalizing x s with
  | nil => exact hs
  | cons c cs ih =>
    cases x with
    | op o k =>
      obtain ⟨hguar, hrest⟩ := h s rfl c hcs.1
      exact ih hrest hcs.2 (hguar hs)
    | pure a => exact ih h (by cases cs <;> trivial) hs
    | throw e => exact ih h (by cases cs <;> trivial) hs
    | diverge => exact ih h (by cases cs <;> trivial) hs

@[simp] theorem drive_throw (cs : List χ) (e : ε) (s : σ) :
    drive step cs ((.throw e : Prog Op Res ε α), s) = (.throw e, s) := by
  induction cs with
  | nil => rfl
  | cons c cs ih => exact ih

/-- A program that has ended has met a choice at its first operation. -/
theorem exists_cons_of_returned {o : Op} {k : Res o → Prog Op Res ε α} {s : σ} {cs : List χ}
    {r : Except ε α} (h : (drive step cs (.op o k, s)).1.returned = some r) :
    ∃ c cs', cs = c :: cs' := by
  cases cs with
  | nil => cases h
  | cons c cs' => exact ⟨c, cs', rfl⟩

end Prog

end Effects
