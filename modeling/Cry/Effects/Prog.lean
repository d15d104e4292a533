import Mathlib.Tactic.Common

/-!
# Programs as trees of operations

A program that talks to its surroundings through a fixed set of operations is a tree: a leaf
returns a value or raises an error, an inner node issues one operation and continues with its
answer. A loop whose bound is not known in advance is written with fuel and ends in `diverge`
when the fuel is spent.

* `Prog`: the trees, with their monad structure;
* `Prog.run`: a program against a deterministic handler, and `Prog.run_map`: against two that agree
  up to a map of their states;
* `Prog.attempt`: an error turned into a value, as a closure returning a `Result` does;
* `Prog.translate`: a program over one set of operations served by programs over another.

Nothing here depends on which operations there are.
-/

namespace Effects

/-- Programs that issue operations `o : Op`, are answered by a value of `Res o`, and end with a
value of `α` or an error of `ε`. -/
inductive Prog (Op : Type) (Res : Op → Type) (ε α : Type) : Type
  /-- Return a value. -/
  | pure (a : α)
  /-- Raise an error. -/
  | throw (e : ε)
  /-- Issue `o` and continue with its answer. -/
  | op (o : Op) (k : Res o → Prog Op Res ε α)
  /-- Out of fuel: the program is still looping. -/
  | diverge

namespace Prog

variable {Op : Type} {Res : Op → Type} {ε ε' α β γ σ : Type}

/-- Sequencing: the first error or the first divergence ends the whole program. -/
def bind : Prog Op Res ε α → (α → Prog Op Res ε β) → Prog Op Res ε β
  | .pure a, f => f a
  | .throw e, _ => .throw e
  | .op o k, f => .op o fun r => (k r).bind f
  | .diverge, _ => .diverge

instance : Monad (Prog Op Res ε) where
  pure := Prog.pure
  bind := Prog.bind

/-- Issue one operation and return its answer. -/
def perform (o : Op) : Prog Op Res ε (Res o) := .op o .pure

/-- Run a program to its end and return its result, error or not, as a value. -/
def attempt : Prog Op Res ε α → Prog Op Res ε' (Except ε α)
  | .pure a => .pure (.ok a)
  | .throw e => .pure (.error e)
  | .op o k => .op o fun r => (k r).attempt
  | .diverge => .diverge

/-- Lift a computed result into a program. -/
def ofExcept : Except ε α → Prog Op Res ε α
  | .ok a => .pure a
  | .error e => .throw e

/-- Lift the result of a run into a program. -/
def ofResult : Option (Except ε α) → Prog Op Res ε α
  | some r => ofExcept r
  | none => .diverge

@[simp] theorem pure_eq (a : α) : (Pure.pure a : Prog Op Res ε α) = .pure a := rfl

@[simp] theorem bind_eq (x : Prog Op Res ε α) (f : α → Prog Op Res ε β) :
    x >>= f = x.bind f := rfl

@[simp] theorem pure_bind (a : α) (f : α → Prog Op Res ε β) :
    (Prog.pure a).bind f = f a := rfl

@[simp] theorem throw_bind (e : ε) (f : α → Prog Op Res ε β) :
    (Prog.throw e : Prog Op Res ε α).bind f = .throw e := rfl

@[simp] theorem op_bind (o : Op) (k : Res o → Prog Op Res ε α) (f : α → Prog Op Res ε β) :
    (Prog.op o k).bind f = .op o fun r => (k r).bind f := rfl

@[simp] theorem diverge_bind (f : α → Prog Op Res ε β) :
    (Prog.diverge : Prog Op Res ε α).bind f = .diverge := rfl

@[simp] theorem perform_bind (o : Op) (f : Res o → Prog Op Res ε β) :
    (perform o : Prog Op Res ε (Res o)).bind f = .op o f := rfl

@[simp] theorem ofExcept_ok (a : α) : (ofExcept (.ok a) : Prog Op Res ε α) = .pure a := rfl

@[simp] theorem ofExcept_error (e : ε) : (ofExcept (.error e) : Prog Op Res ε α) = .throw e := rfl

@[simp] theorem ofResult_some (r : Except ε α) :
    (ofResult (some r) : Prog Op Res ε α) = ofExcept r := rfl

@[simp] theorem ofResult_none : (ofResult none : Prog Op Res ε α) = .diverge := rfl

theorem bind_assoc (x : Prog Op Res ε α) (f : α → Prog Op Res ε β) (g : β → Prog Op Res ε γ) :
    (x.bind f).bind g = x.bind fun a => (f a).bind g := by
  induction x with
  | pure a => rfl
  | throw e => rfl
  | op o k ih => exact congrArg (Prog.op o) (funext fun r => ih r)
  | diverge => rfl

/-! ## Running against a handler -/

/-- Continue a finished run: an error or a divergence is passed on. -/
def andThen (x : Option (Except ε α × σ)) (f : α → σ → Option (Except ε β × σ)) :
    Option (Except ε β × σ) :=
  match x with
  | some (.ok a, s) => f a s
  | some (.error e, s) => some (.error e, s)
  | none => none

@[simp] theorem andThen_ok (a : α) (s : σ) (f : α → σ → Option (Except ε β × σ)) :
    andThen (some (.ok a, s)) f = f a s := rfl

@[simp] theorem andThen_error (e : ε) (s : σ) (f : α → σ → Option (Except ε β × σ)) :
    andThen (some (.error e, s)) f = some (.error e, s) := rfl

@[simp] theorem andThen_none (f : α → σ → Option (Except ε β × σ)) :
    andThen none f = none := rfl

/-- A continued run that ended had a first part that ended, either well, and then the second
part gave the result, or with the error that is the result. -/
theorem andThen_eq_some {x : Option (Except ε α × σ)} {f : α → σ → Option (Except ε β × σ)}
    {r : Except ε β} {t : σ} :
    andThen x f = some (r, t) ↔
      (∃ a s, x = some (.ok a, s) ∧ f a s = some (r, t)) ∨
        ∃ e, x = some (.error e, t) ∧ r = .error e := by
  rcases x with _ | ⟨a | a, s⟩
  · simp
  · simp only [andThen_error, Option.some.injEq, Prod.mk.injEq, reduceCtorEq, false_and,
      exists_false, false_or, Except.error.injEq]
    constructor
    · rintro ⟨rfl, rfl⟩
      exact ⟨a, ⟨rfl, rfl⟩, rfl⟩
    · rintro ⟨e, ⟨rfl, rfl⟩, rfl⟩
      exact ⟨rfl, rfl⟩
  · simp

/-- A continued run ended well exactly when both parts did. -/
theorem andThen_eq_ok {x : Option (Except ε α × σ)} {f : α → σ → Option (Except ε β × σ)}
    {b : β} {t : σ} :
    andThen x f = some (.ok b, t) ↔ ∃ a s, x = some (.ok a, s) ∧ f a s = some (.ok b, t) := by
  rw [andThen_eq_some]
  simp

/-- Run a program against a handler that answers each operation from a state it updates.
`none` means that the program ran out of fuel. -/
def run (h : (o : Op) → σ → Res o × σ) : Prog Op Res ε α → σ → Option (Except ε α × σ)
  | .pure a, s => some (.ok a, s)
  | .throw e, s => some (.error e, s)
  | .op o k, s => (k (h o s).1).run h (h o s).2
  | .diverge, _ => none

section Run

variable (h : (o : Op) → σ → Res o × σ)

@[simp] theorem run_pure (a : α) (s : σ) :
    (Prog.pure a : Prog Op Res ε α).run h s = some (.ok a, s) := rfl

@[simp] theorem run_throw (e : ε) (s : σ) :
    (Prog.throw e : Prog Op Res ε α).run h s = some (.error e, s) := rfl

@[simp] theorem run_diverge (s : σ) : (Prog.diverge : Prog Op Res ε α).run h s = none := rfl

theorem run_op (o : Op) (k : Res o → Prog Op Res ε α) (s : σ) :
    (Prog.op o k).run h s = (k (h o s).1).run h (h o s).2 := rfl

/-- A run of two programs in sequence is a run of the first continued by a run of the second. -/
theorem run_bind (x : Prog Op Res ε α) (f : α → Prog Op Res ε β) (s : σ) :
    (x.bind f).run h s = andThen (x.run h s) fun a t => (f a).run h t := by
  induction x generalizing s with
  | pure a => rfl
  | throw e => rfl
  | op o k ih => exact ih _ _
  | diverge => rfl

/-- Two handlers that agree up to a map of their states run a program to the same result, in states
that are related by the map. -/
theorem run_map {τ : Type} {h' : (o : Op) → τ → Res o × τ} (f : σ → τ)
    (hserve : ∀ o s, h' o (f s) = ((h o s).1, f (h o s).2)) (x : Prog Op Res ε α) (s : σ) :
    x.run h' (f s) = (x.run h s).map fun p => (p.1, f p.2) := by
  induction x generalizing s with
  | pure a => rfl
  | throw e => rfl
  | op o k ih =>
    rw [run_op, run_op, hserve]
    exact ih _ _
  | diverge => rfl

end Run

/-! ## Serving one set of operations by another -/

variable {Op' : Type} {Res' : Op' → Type}

/-- Replace every operation by a program over other operations that keeps a local state, and
return the result together with the last local state. -/
def translate (serve : (o : Op) → σ → Prog Op' Res' ε' (Res o × σ)) :
    Prog Op Res ε α → σ → Prog Op' Res' ε' (Except ε α × σ)
  | .pure a, s => .pure (.ok a, s)
  | .throw e, s => .pure (.error e, s)
  | .op o k, s => (serve o s).bind fun p => (k p.1).translate serve p.2
  | .diverge, _ => .diverge

/-! ## Which operations a program issues -/

/-- Every operation the program can issue, whatever the answers, satisfies `O`. -/
def Uses (O : Op → Prop) : Prog Op Res ε α → Prop
  | .pure _ => True
  | .throw _ => True
  | .op o k => O o ∧ ∀ r, (k r).Uses O
  | .diverge => True

theorem uses_bind {O : Op → Prop} {x : Prog Op Res ε α} {f : α → Prog Op Res ε β}
    (hx : x.Uses O) (hf : ∀ a, (f a).Uses O) : (x.bind f).Uses O := by
  induction x with
  | pure a => exact hf a
  | throw e => trivial
  | op o k ih => exact ⟨hx.1, fun r => ih r (hx.2 r)⟩
  | diverge => trivial

theorem uses_ofExcept {O : Op → Prop} (r : Except ε α) :
    (ofExcept r : Prog Op Res ε α).Uses O := by
  cases r <;> trivial

theorem uses_ofResult {O : Op → Prop} (r : Option (Except ε α)) :
    (ofResult r : Prog Op Res ε α).Uses O := by
  cases r with
  | none => trivial
  | some r => exact uses_ofExcept r

theorem Uses.mono {O O' : Op → Prop} {x : Prog Op Res ε α} (hx : x.Uses O)
    (hO : ∀ o, O o → O' o) : x.Uses O' := by
  induction x with
  | op o k ih => exact ⟨hO o hx.1, fun r => ih r (hx.2 r)⟩
  | _ => trivial

/-- A translated program issues only what its servers issue. -/
theorem uses_translate {O : Op' → Prop} {serve : (o : Op) → σ → Prog Op' Res' ε' (Res o × σ)}
    (hserve : ∀ o s, (serve o s).Uses O) (x : Prog Op Res ε α) (s : σ) :
    (x.translate serve s).Uses O := by
  induction x generalizing s with
  | pure a => trivial
  | throw e => trivial
  | op o k ih => exact uses_bind (hserve o s) fun p => ih p.1 p.2
  | diverge => trivial

end Prog

end Effects
