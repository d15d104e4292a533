import Cry.Effects.Prog

/-!
# What a program asks for

The operations that a program issues, in order, whatever answers it gets.

* `Prog.Trace`: the runs of a program as lists of operations with their answers, up to any point;
* `Prog.Yields`: what holds of every value a program can return;
* `Prog.Emits`: the values that a program's operations carry are a prefix of a given list, in every
  run;
* `Prog.Records`: what holds throughout a run of a record that every operation is entered into;
* `Prog.interpret`: every operation served by a program over other operations;
* `Prog.outcome`, `Prog.calls`: the end of a run and its operations when the surroundings give every
  operation a fixed answer.

Nothing here depends on which operations there are.
-/

namespace Effects

namespace Prog

variable {Op Op' Op'' : Type} {Res : Op → Type} {Res' : Op' → Type} {Res'' : Op'' → Type}
variable {ε α β ω : Type}

/-! ## Runs -/

/-- The program issues the operations, gets the answers, and is left with the last program. -/
inductive Trace : Prog Op Res ε α → List (Sigma Res) → Prog Op Res ε α → Prop
  | nil {x : Prog Op Res ε α} : Trace x [] x
  | cons {o : Op} {k : Res o → Prog Op Res ε α} {r : Res o} {es : List (Sigma Res)}
      {y : Prog Op Res ε α} : Trace (k r) es y → Trace (.op o k) (⟨o, r⟩ :: es) y

/-! ## Returned values -/

/-- Every value the program can return, whatever the answers, satisfies `Q`. -/
def Yields (Q : α → Prop) : Prog Op Res ε α → Prop
  | .pure a => Q a
  | .throw _ => True
  | .op _ k => ∀ r, (k r).Yields Q
  | .diverge => True

theorem Yields.bind {Q : α → Prop} {R : β → Prop} {x : Prog Op Res ε α} {f : α → Prog Op Res ε β}
    (hx : x.Yields Q) (hf : ∀ a, Q a → (f a).Yields R) : (x.bind f).Yields R := by
  induction x with
  | pure a => exact hf a hx
  | op o k ih => exact fun r => ih r (hx r)
  | _ => trivial

/-- What follows may rely on what is returned. -/
theorem Uses.bind_of_yields {O : Op → Prop} {Q : α → Prop} {x : Prog Op Res ε α}
    {f : α → Prog Op Res ε β} (hx : x.Uses O) (hQ : x.Yields Q) (hf : ∀ a, Q a → (f a).Uses O) :
    (x.bind f).Uses O := by
  induction x with
  | pure a => exact hf a hQ
  | op o k ih => exact ⟨hx.1, fun r => ih r (hx.2 r) (hQ r)⟩
  | _ => trivial

/-! ## What the operations carry -/

/-- In every run of the program, the values that `obs` reads off its operations are, in order, a
prefix of the list. -/
def Emits (obs : Op → Option ω) : Prog Op Res ε α → List ω → Prop
  | .op o k, bs =>
    match obs o with
    | none => ∀ r, (k r).Emits obs bs
    | some b => ∃ bs', bs = b :: bs' ∧ ∀ r, (k r).Emits obs bs'
  | _, _ => True

variable {obs : Op → Option ω}

/-- A part that carries nothing leaves the list to the rest. -/
theorem Emits.bind {x : Prog Op Res ε α} {f : α → Prog Op Res ε β} {bs : List ω}
    (hx : x.Uses (obs · = none)) (hf : ∀ a, (f a).Emits obs bs) : (x.bind f).Emits obs bs := by
  induction x with
  | pure a => exact hf a
  | throw e => trivial
  | diverge => trivial
  | op o k ih =>
    rw [op_bind, Emits, hx.1]
    exact fun r => ih r (hx.2 r)

theorem Emits.cons {o : Op} {k : Res o → Prog Op Res ε α} {b : ω} {bs : List ω}
    (ho : obs o = some b) (hk : ∀ r, (k r).Emits obs bs) :
    (Prog.op o k).Emits obs (b :: bs) := by
  rw [Emits, ho]
  exact ⟨bs, rfl, hk⟩

/-- What a run has carried so far is a prefix of what the program emits. -/
theorem Emits.of_trace {x y : Prog Op Res ε α} {es : List (Sigma Res)} {bs : List ω}
    (h : x.Emits obs bs) (ht : Trace x es y) : es.filterMap (fun e => obs e.1) <+: bs := by
  -- induction on the run, with the emission of what is left of the program
  induction ht generalizing bs with
  | nil => exact List.nil_prefix
  | @cons o k r es y _ ih =>
    rw [Emits] at h
    cases ho : obs o with
    | none =>
      rw [ho] at h
      simp only [List.filterMap_cons, ho]
      exact ih (h r)
    | some b =>
      rw [ho] at h
      obtain ⟨bs', rfl, hk⟩ := h
      simp only [List.filterMap_cons, ho]
      exact (List.prefix_cons_inj b).mpr (ih (hk r))

/-! ## Records of a run -/

section Record

variable {σ : Type} (record : σ → (o : Op) → Res o → σ)

/-- The record after a run. -/
def recorded (es : List (Sigma Res)) (m : σ) : σ :=
  es.foldl (fun m e => record m e.1 e.2) m

/-- Whatever the answers, the record satisfies `I` after every operation, and `Q` with the value
that is returned. -/
def Records (I : σ → Prop) (Q : α → σ → Prop) : Prog Op Res ε α → σ → Prop
  | .pure a, m => Q a m
  | .op o k, m => ∀ r, I (record m o r) ∧ (k r).Records I Q (record m o r)
  | _, _ => True

variable {record} {I : σ → Prop}

theorem Records.bind {Q : α → σ → Prop} {R : β → σ → Prop} {x : Prog Op Res ε α}
    {f : α → Prog Op Res ε β} {m : σ} (hx : x.Records record I Q m)
    (hf : ∀ a m', Q a m' → (f a).Records record I R m') : (x.bind f).Records record I R m := by
  induction x generalizing m with
  | pure a => exact hf a m hx
  | op o k ih => exact fun r => ⟨(hx r).1, ih r (hx r).2⟩
  | _ => trivial

theorem Records.mono {Q R : α → σ → Prop} {x : Prog Op Res ε α} {m : σ}
    (h : x.Records record I Q m) (hQ : ∀ a m', Q a m' → R a m') : x.Records record I R m := by
  induction x generalizing m with
  | pure a => exact hQ a m h
  | op o k ih => exact fun r => ⟨(h r).1, ih r (h r).2⟩
  | _ => trivial

/-- A computed result is entered nowhere. -/
theorem records_ofExcept {Q : α → σ → Prop} {r : Except ε α} {m : σ}
    (h : ∀ a, r = .ok a → Q a m) : (ofExcept r : Prog Op Res ε α).Records record I Q m := by
  cases r with
  | ok a => exact h a rfl
  | error e => trivial

/-- What the record satisfies throughout, it satisfies after any part of a run. -/
theorem Records.of_trace {Q : α → σ → Prop} {x y : Prog Op Res ε α} {es : List (Sigma Res)}
    {m : σ} (h : x.Records record I Q m) (hm : I m) (ht : Trace x es y) :
    I (recorded record es m) := by
  induction ht generalizing m with
  | nil => exact hm
  | @cons o k r es y _ ih => exact ih (h r).2 (h r).1

end Record

/-! ## Serving operations by programs -/

/-- Replace every operation by a program over other operations. -/
def interpret (serve : (o : Op) → Prog Op' Res' ε (Res o)) :
    Prog Op Res ε α → Prog Op' Res' ε α
  | .pure a => .pure a
  | .throw e => .throw e
  | .op o k => (serve o).bind fun r => (k r).interpret serve
  | .diverge => .diverge

theorem bind_pure (x : Prog Op Res ε α) : x.bind .pure = x := by
  induction x with
  | op o k ih => exact congrArg (Prog.op o) (funext fun r => ih r)
  | _ => rfl

section Interpret

variable (serve : (o : Op) → Prog Op' Res' ε (Res o))

@[simp] theorem interpret_pure (a : α) : (Prog.pure a).interpret serve = .pure a := rfl

@[simp] theorem interpret_throw (e : ε) :
    (Prog.throw e : Prog Op Res ε α).interpret serve = .throw e := rfl

@[simp] theorem interpret_op (o : Op) (k : Res o → Prog Op Res ε α) :
    (Prog.op o k).interpret serve = (serve o).bind fun r => (k r).interpret serve := rfl

@[simp] theorem interpret_diverge :
    (Prog.diverge : Prog Op Res ε α).interpret serve = .diverge := rfl

@[simp] theorem interpret_ofExcept (r : Except ε α) :
    (ofExcept r : Prog Op Res ε α).interpret serve = ofExcept r := by
  cases r <;> rfl

@[simp] theorem interpret_bind (x : Prog Op Res ε α) (f : α → Prog Op Res ε β) :
    (x.bind f).interpret serve = (x.interpret serve).bind fun a => (f a).interpret serve := by
  induction x with
  | op o k ih =>
    rw [op_bind, interpret_op, interpret_op, bind_assoc]
    exact congrArg _ (funext fun r => ih r)
  | _ => rfl

/-- A program served by single operations, which are then served, is served by these. -/
theorem interpret_interpret (serve' : (o : Op') → Prog Op'' Res'' ε (Res' o))
    (x : Prog Op Res ε α) :
    (x.interpret serve).interpret serve' =
      x.interpret fun o => (serve o).interpret serve' := by
  induction x with
  | op o k ih =>
    rw [interpret_op, interpret_bind, interpret_op]
    exact congrArg _ (funext fun r => ih r)
  | _ => rfl

/-- Serving every operation by itself changes nothing. -/
theorem interpret_perform (x : Prog Op Res ε α) : x.interpret perform = x := by
  induction x with
  | op o k ih =>
    rw [interpret_op, perform_bind]
    exact congrArg (Prog.op o) (funext fun r => ih r)
  | _ => rfl

/-- An interpreted program issues only what its servers issue. -/
theorem uses_interpret {O : Op' → Prop} (hserve : ∀ o, (serve o).Uses O)
    (x : Prog Op Res ε α) : (x.interpret serve).Uses O := by
  induction x with
  | op o k ih => exact uses_bind (hserve o) ih
  | _ => trivial

end Interpret

/-! ## Fixed surroundings -/

section Fixed

variable (env : (o : Op) → Res o)

/-- How a run ends when every operation gets the answer of `env`. -/
def outcome : Prog Op Res ε α → Option (Except ε α)
  | .pure a => some (.ok a)
  | .throw e => some (.error e)
  | .op o k => (k (env o)).outcome
  | .diverge => none

/-- The operations of that run, in order. -/
def calls : Prog Op Res ε α → List Op
  | .pure _ => []
  | .throw _ => []
  | .op o k => o :: (k (env o)).calls
  | .diverge => []

@[simp] theorem calls_ofExcept (r : Except ε α) :
    (ofExcept r : Prog Op Res ε α).calls env = [] := by
  cases r <;> rfl

@[simp] theorem outcome_ofExcept (r : Except ε α) :
    (ofExcept r : Prog Op Res ε α).outcome env = some r := by
  cases r <;> rfl

theorem outcome_bind_of_ok {x : Prog Op Res ε α} {a : α} (h : x.outcome env = some (.ok a))
    (f : α → Prog Op Res ε β) : (x.bind f).outcome env = (f a).outcome env := by
  induction x with
  | pure a' =>
    obtain rfl : a' = a := Except.ok.inj (Option.some.inj h)
    rfl
  | throw e => cases h
  | op o k ih => exact ih _ h
  | diverge => cases h

theorem calls_bind_of_ok {x : Prog Op Res ε α} {a : α} (h : x.outcome env = some (.ok a))
    (f : α → Prog Op Res ε β) : (x.bind f).calls env = x.calls env ++ (f a).calls env := by
  induction x with
  | pure a' =>
    obtain rfl : a' = a := Except.ok.inj (Option.some.inj h)
    rfl
  | throw e => cases h
  | op o k ih => exact congrArg (o :: ·) (ih _ h)
  | diverge => cases h

theorem outcome_bind_of_error {x : Prog Op Res ε α} {e : ε} (h : x.outcome env = some (.error e))
    (f : α → Prog Op Res ε β) : (x.bind f).outcome env = some (.error e) := by
  induction x with
  | pure a => cases h
  | throw e' =>
    obtain rfl : e' = e := Except.error.inj (Option.some.inj h)
    rfl
  | op o k ih => exact ih _ h
  | diverge => cases h

/-- A first part that does not end well ends the run. -/
theorem calls_bind_of_not_ok {x : Prog Op Res ε α} (h : ∀ a, x.outcome env ≠ some (.ok a))
    (f : α → Prog Op Res ε β) : (x.bind f).calls env = x.calls env := by
  induction x with
  | pure a => exact absurd rfl (h a)
  | throw e => rfl
  | op o k ih => exact congrArg (o :: ·) (ih _ h)
  | diverge => rfl

theorem outcome_bind_isSome {x : Prog Op Res ε α} {f : α → Prog Op Res ε β}
    (hx : ∃ r, x.outcome env = some r) (hf : ∀ a, ∃ r, (f a).outcome env = some r) :
    ∃ r, (x.bind f).outcome env = some r := by
  obtain ⟨e | a, hr⟩ := hx
  · exact ⟨_, outcome_bind_of_error env hr f⟩
  · rw [outcome_bind_of_ok env hr f]
    exact hf a

/-- The operations of a run are among those the program can issue. -/
theorem Uses.of_mem_calls {O : Op → Prop} {x : Prog Op Res ε α} (hx : x.Uses O) {o : Op}
    (ho : o ∈ x.calls env) : O o := by
  induction x with
  | op o' k ih =>
    rcases List.mem_cons.mp ho with rfl | ho
    · exact hx.1
    · exact ih _ (hx.2 _) ho
  | _ => simp [calls] at ho

end Fixed

end Prog

end Effects
