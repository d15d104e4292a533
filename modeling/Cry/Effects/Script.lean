import Mathlib.Data.List.Pairwise
import Mathlib.Logic.Function.Basic

/-!
# Scripts of writes

A script is a list of steps over a store of named byte strings: guards that refuse when a name is
taken, writes, changes of attributes, and the decision to give up. Steps are carried out in order
until one fails, and a write that fails may have written a part. A guard that fails takes the name
for free and refuses nothing. Nothing is undone.

What a script does to the store is determined by the writes it has made when it ends, as long as
no guard comes after a write to its name. So a script that fails leaves the store as it was exactly
when all it had written was there before, and in any case when no write comes before the step that
fails.

## Main results

* `exec_eq`: a script ends at its first failing step, with the writes made up to there;
* `exists_firstFailure`, `firstFailure_of_split`: the first failing step as a place in the script;
* `replay_of_mem`: of writes to different names each is there afterwards;
* `attrAfter_of_untouched`: the attributes of what a script writes.
-/

namespace Effects

/-- A store: names to contents. -/
abbrev Store (κ β : Type) := κ → Option (List β)

/-- One step of a script. -/
inductive Step (κ β τ ε : Type)
  /-- Refuse if the name is taken, unless overwriting is allowed. -/
  | guard (k : κ)
  /-- Write a content under a name, whether or not it is taken. -/
  | write (k : κ) (v : List β)
  /-- Change something outside the store. -/
  | touch (t : τ)
  /-- Give up. -/
  | stop (e : ε)

/-- The name that a step guards or writes. -/
def Step.target {κ β τ ε : Type} : Step κ β τ ε → Option κ
  | .guard k => some k
  | .write k _ => some k
  | .touch _ => none
  | .stop _ => none

/-- How a step fails. What is written counts for a write only. -/
structure Fault (δ : Type) where
  error : δ
  /-- How many bytes were written after the old content was discarded, or `none` if the content was
  not even discarded. -/
  written : Option ℕ

/-- What a failed write of `v` under `k` leaves there, if it has discarded the old content. -/
def Fault.leaves {κ β δ : Type} (f : Fault δ) (k : κ) (v : List β) : List (κ × List β) :=
  match f.written with
  | none => []
  | some n => [(k, v.take n)]

theorem Fault.leaves_keys {κ β δ : Type} (f : Fault δ) (k : κ) (v : List β) (ks : List κ) :
    ((f.leaves k v).map Prod.fst).Sublist (k :: ks) := by
  unfold Fault.leaves
  cases f.written with
  | none => exact List.nil_sublist _
  | some n => exact (List.nil_sublist _).cons_cons k

/-- Why a script ends early. -/
inductive Failure (κ δ ε : Type)
  /-- A guard has found the name taken. -/
  | taken (k : κ)
  /-- A write or a change of attributes has failed. -/
  | fault (e : δ)
  /-- A step has given up. -/
  | stop (e : ε)
  deriving DecidableEq

namespace Step

variable {κ β τ δ ε : Type}

/-- Why a step ends the script under an outcome, where `none` is success and the guards refuse the
names given. A guard that fails refuses nothing. -/
def failure (refuses : κ → Bool) : Step κ β τ ε → Option (Fault δ) → Option (Failure κ δ ε)
  | .guard k, o => if refuses k && o.isNone then some (.taken k) else none
  | .write _ _, o => o.map fun f => .fault f.error
  | .touch _, o => o.map fun f => .fault f.error
  | .stop e, _ => some (.stop e)

/-- Guards that refuse alike fail alike. -/
theorem failure_congr {refuses refuses' : κ → Bool} {s : Step κ β τ ε}
    (h : ∀ k, s = .guard k → refuses k = refuses' k) (o : Option (Fault δ)) :
    s.failure refuses o = s.failure refuses' o := by
  cases s with
  | guard k => simp only [failure, h k rfl]
  | write k v => rfl
  | touch t => rfl
  | stop e => rfl

/-- What a step writes under an outcome, also when it fails. -/
def leaves : Step κ β τ ε → Option (Fault δ) → List (κ × List β)
  | .write k v, none => [(k, v)]
  | .write k v, some f => f.leaves k v
  | .guard _, _ => []
  | .touch _, _ => []
  | .stop _, _ => []

/-- The step is no write, or a write that fails before it has discarded the old content. -/
def Idle (s : Step κ β τ ε) (o : Option (Fault δ)) : Prop :=
  ∀ k v, s = .write k v → ∃ f, o = some f ∧ f.written = none

theorem leaves_of_idle {s : Step κ β τ ε} {o : Option (Fault δ)} (h : s.Idle o) :
    s.leaves o = [] := by
  cases s with
  | write k v =>
    obtain ⟨f, rfl, hwritten⟩ := h k v rfl
    simp only [leaves, Fault.leaves, hwritten]
  | guard k => rfl
  | touch t => rfl
  | stop e => rfl

/-- A step that is not idle writes something. -/
theorem exists_leaves_of_not_idle {s : Step κ β τ ε} {o : Option (Fault δ)} (h : ¬s.Idle o) :
    ∃ w, w ∈ s.leaves o := by
  simp only [Idle, not_forall] at h
  obtain ⟨k, v, rfl, hnot⟩ := h
  rcases o with _ | ⟨e, _ | n⟩
  · exact ⟨_, List.mem_singleton_self (k, v)⟩
  · exact absurd ⟨_, rfl, rfl⟩ hnot
  · exact ⟨_, List.mem_singleton_self (k, v.take n)⟩

end Step

namespace Script

variable {κ β τ δ ε : Type}

/-- The outcomes of the coming steps: `none` is success, and so is the end of the list. -/
abbrev Schedule (δ : Type) := List (Option (Fault δ))

theorem getD_succ (sched : Schedule δ) (n : ℕ) :
    sched.getD (n + 1) none = sched.tail.getD n none := by
  cases sched <;> rfl

/-! ## What a script writes -/

/-- All writes of a script. -/
def writes : List (Step κ β τ ε) → List (κ × List β)
  | [] => []
  | .write k v :: steps => (k, v) :: writes steps
  | .guard _ :: steps => writes steps
  | .touch _ :: steps => writes steps
  | .stop _ :: steps => writes steps

/-- Why a script ends, if it does so early, when the guards refuse the names given. -/
def firstFailure (refuses : κ → Bool) :
    List (Step κ β τ ε) → Schedule δ → Option (Failure κ δ ε)
  | [], _ => none
  | s :: steps, sched =>
    match s.failure refuses (sched.headD none) with
    | none => firstFailure refuses steps sched.tail
    | some e => some e

/-- The writes made when it ends. -/
def made (refuses : κ → Bool) : List (Step κ β τ ε) → Schedule δ → List (κ × List β)
  | [], _ => []
  | s :: steps, sched =>
    match s.failure refuses (sched.headD none) with
    | none => s.leaves (sched.headD none) ++ made refuses steps sched.tail
    | some _ => s.leaves (sched.headD none)

/-- After a write to a name, no step guards or writes that name. -/
def Orderly (steps : List (Step κ β τ ε)) : Prop :=
  steps.Pairwise fun s t => ∀ k v, s = .write k v → t ≠ .guard k ∧ ∀ v', t ≠ .write k v'

/-- The script guards and writes only the given names. -/
def Within (ks : List κ) (steps : List (Step κ β τ ε)) : Prop :=
  ∀ s ∈ steps, ∀ k, s.target = some k → k ∈ ks

theorem Within.append {ks : List κ} {steps steps' : List (Step κ β τ ε)} (h : Within ks steps)
    (h' : Within ks steps') : Within ks (steps ++ steps') := by
  intro s hs
  rcases List.mem_append.mp hs with hs | hs
  · exact h s hs
  · exact h' s hs

theorem Within.mono {ks ks' : List κ} {steps : List (Step κ β τ ε)} (h : Within ks steps)
    (hks : ∀ k ∈ ks, k ∈ ks') : Within ks' steps :=
  fun s hs k hk => hks k (h s hs k hk)

/-- Orderly scripts over different names, one after the other. -/
theorem Orderly.append (ks ks' : List κ) {steps steps' : List (Step κ β τ ε)}
    (h : Orderly steps) (h' : Orderly steps') (hks : Within ks steps) (hks' : Within ks' steps')
    (hdisj : ks.Disjoint ks') : Orderly (steps ++ steps') := by
  refine List.pairwise_append.mpr ⟨h, h', fun s hs t ht k v hsk => ?_⟩
  have hk : k ∈ ks := hks s hs k (by rw [hsk]; rfl)
  constructor
  · rintro rfl
    exact hdisj hk (hks' _ ht k rfl)
  · rintro v' rfl
    exact hdisj hk (hks' _ ht k rfl)

theorem mem_writes {k : κ} {v : List β} {steps : List (Step κ β τ ε)} :
    (k, v) ∈ writes steps ↔ .write k v ∈ steps := by
  induction steps with
  | nil => simp [writes]
  | cons s steps ih => cases s <;> simp [writes, ih]

theorem writes_append (steps steps' : List (Step κ β τ ε)) :
    writes (steps ++ steps') = writes steps ++ writes steps' := by
  induction steps with
  | nil => rfl
  | cons s steps ih => cases s <;> simp [writes, ih]

/-- Guards write nothing. -/
theorem writes_guards (ks : List κ) : writes (ks.map .guard : List (Step κ β τ ε)) = [] := by
  induction ks with
  | nil => rfl
  | cons k ks ih => exact ih

variable {refuses : κ → Bool}

/-- A step that does not fail writes what it says. -/
theorem leaves_append_of_failure_eq_none {s : Step κ β τ ε} {o : Option (Fault δ)}
    (h : s.failure refuses o = none) (steps : List (Step κ β τ ε)) :
    s.leaves o ++ writes steps = writes (s :: steps) := by
  cases s with
  | write k v =>
    obtain rfl := Option.map_eq_none_iff.mp h
    rfl
  | guard k => rfl
  | touch t => rfl
  | stop e => rfl

/-- Guards that refuse alike make scripts end alike. -/
theorem firstFailure_congr {refuses' : κ → Bool} {steps : List (Step κ β τ ε)}
    (h : ∀ k, .guard k ∈ steps → refuses k = refuses' k) (sched : Schedule δ) :
    firstFailure refuses steps sched = firstFailure refuses' steps sched := by
  induction steps generalizing sched with
  | nil => rfl
  | cons s steps ih =>
    rw [firstFailure, firstFailure, Step.failure_congr (fun k hk => h k (by simp [hk])),
      ih fun k hk => h k (List.mem_cons_of_mem _ hk)]

/-- The names written in a run are among those of the script, in their order. -/
theorem made_keys (refuses : κ → Bool) (steps : List (Step κ β τ ε)) (sched : Schedule δ) :
    ((made refuses steps sched).map Prod.fst).Sublist ((writes steps).map Prod.fst) := by
  -- induction on the script: a step that fails ends it, and a failed write leaves one name at most
  induction steps generalizing sched with
  | nil => exact .slnil
  | cons s steps ih =>
    rw [made]
    cases hfail : s.failure refuses (sched.headD none) with
    | none =>
      rw [← leaves_append_of_failure_eq_none hfail, List.map_append, List.map_append]
      exact (List.Sublist.refl _).append (ih _)
    | some e =>
      cases s with
      | write k v =>
        obtain ⟨f, hf, -⟩ := Option.map_eq_some_iff.mp hfail
        rw [hf]
        exact f.leaves_keys k v _
      | guard k => exact List.nil_sublist _
      | touch t => exact List.nil_sublist _
      | stop e => exact List.nil_sublist _

/-- A script that does not end early makes all its writes. -/
theorem made_eq_writes {steps : List (Step κ β τ ε)} {sched : Schedule δ}
    (h : firstFailure refuses steps sched = none) : made refuses steps sched = writes steps := by
  induction steps generalizing sched with
  | nil => rfl
  | cons s steps ih =>
    rw [firstFailure] at h
    rw [made]
    cases hfail : s.failure refuses (sched.headD none) with
    | none =>
      rw [hfail] at h
      simp only [ih h, leaves_append_of_failure_eq_none hfail]
    | some e =>
      rw [hfail] at h
      cases h

/-- A script that does not end early has no step that gives up. -/
theorem stop_notMem {steps : List (Step κ β τ ε)} {sched : Schedule δ}
    (h : firstFailure refuses steps sched = none) (e : ε) : .stop e ∉ steps := by
  induction steps generalizing sched with
  | nil => simp
  | cons s steps ih =>
    rw [firstFailure] at h
    cases hfail : s.failure refuses (sched.headD none) with
    | none =>
      rw [hfail] at h
      refine fun hmem => (List.mem_cons.mp hmem).elim (fun heq => ?_) (ih h)
      rw [← heq] at hfail
      cases hfail
    | some e' =>
      rw [hfail] at h
      cases h

/-! ## The first failing step -/

/-- A script that ends early does so at a step before which none fails. -/
theorem exists_firstFailure {steps : List (Step κ β τ ε)} {sched : Schedule δ}
    {e : Failure κ δ ε} (h : firstFailure refuses steps sched = some e) :
    ∃ pre s post, steps = pre ++ s :: post ∧ firstFailure refuses pre sched = none ∧
      s.failure refuses (sched.getD pre.length none) = some e := by
  induction steps generalizing sched with
  | nil => cases h
  | cons s steps ih =>
    rw [firstFailure] at h
    cases hfail : s.failure refuses (sched.headD none) with
    | none =>
      rw [hfail] at h
      obtain ⟨pre, s', post, rfl, hpre, hs'⟩ := ih h
      refine ⟨s :: pre, s', post, rfl, by rw [firstFailure, hfail]; exact hpre, ?_⟩
      rwa [List.length_cons, getD_succ]
    | some e' =>
      rw [hfail] at h
      obtain rfl := Option.some.inj h
      exact ⟨[], s, steps, rfl, rfl, by rwa [List.length_nil, ← List.headD_eq_getD]⟩

/-- Of guards that end early one is the first to refuse. -/
theorem exists_firstFailure_guards {ks : List κ} {sched : Schedule δ} {e : Failure κ δ ε}
    (h : firstFailure refuses (ks.map .guard : List (Step κ β τ ε)) sched = some e) :
    ∃ before k after, ks = before ++ k :: after ∧ e = .taken k ∧
      firstFailure refuses (before.map .guard : List (Step κ β τ ε)) sched = none ∧
      (.guard k : Step κ β τ ε).failure refuses (sched.getD before.length none) =
        some (.taken k) := by
  obtain ⟨pre, s, post, hsplit, hpre, hs⟩ := exists_firstFailure h
  obtain ⟨before, rest, rfl, rfl, hrest⟩ := List.map_eq_append_iff.mp hsplit
  obtain ⟨k, after, rfl, rfl, rfl⟩ := List.map_eq_cons_iff.mp hrest
  rw [List.length_map] at hs
  -- a guard has one way to fail
  have he : e = .taken k := by
    rw [Step.failure] at hs
    split at hs
    · exact (Option.some.inj hs).symm
    · cases hs
  exact ⟨before, k, after, rfl, he, hpre, he ▸ hs⟩

/-- In a script that does not end early no step fails. -/
theorem failure_eq_none_of_getElem? {steps : List (Step κ β τ ε)} {sched : Schedule δ} {i : ℕ}
    {s : Step κ β τ ε} (h : firstFailure refuses steps sched = none) (hs : steps[i]? = some s) :
    s.failure refuses (sched.getD i none) = none := by
  induction steps generalizing sched i with
  | nil => cases hs
  | cons t steps ih =>
    rw [firstFailure] at h
    cases hfail : t.failure refuses (sched.headD none) with
    | some e =>
      rw [hfail] at h
      cases h
    | none =>
      rw [hfail] at h
      cases i with
      | zero =>
        obtain rfl := Option.some.inj hs
        rwa [← List.headD_eq_getD]
      | succ i =>
        rw [getD_succ]
        exact ih h hs

/-- A step before which none fails ends the script if it fails. -/
theorem firstFailure_of_split {pre : List (Step κ β τ ε)} {s : Step κ β τ ε}
    (post : List (Step κ β τ ε)) {sched : Schedule δ} {e : Failure κ δ ε}
    (hpre : firstFailure refuses pre sched = none)
    (hs : s.failure refuses (sched.getD pre.length none) = some e) :
    firstFailure refuses (pre ++ s :: post) sched = some e ∧
      made refuses (pre ++ s :: post) sched =
        writes pre ++ s.leaves (sched.getD pre.length none) := by
  induction pre generalizing sched with
  | nil =>
    rw [List.length_nil, ← List.headD_eq_getD] at hs ⊢
    rw [List.nil_append, firstFailure, made, hs]
    exact ⟨rfl, rfl⟩
  | cons t pre ih =>
    rw [firstFailure] at hpre
    cases hfail : t.failure refuses (sched.headD none) with
    | none =>
      rw [hfail] at hpre
      rw [List.length_cons, getD_succ] at hs ⊢
      obtain ⟨hfirst, hmade⟩ := ih hpre hs
      rw [List.cons_append, firstFailure, made, hfail]
      refine ⟨hfirst, ?_⟩
      simp only [hmade, ← leaves_append_of_failure_eq_none hfail, List.append_assoc]
    | some e' =>
      rw [hfail] at hpre
      cases hpre

/-- An orderly script writes no name twice. -/
theorem Orderly.nodup_writes {steps : List (Step κ β τ ε)} (h : Orderly steps) :
    ((writes steps).map Prod.fst).Nodup := by
  induction steps with
  | nil => exact List.nodup_nil
  | cons s steps ih =>
    obtain ⟨hs, hsteps⟩ := List.pairwise_cons.mp h
    cases s with
    | write k v =>
      refine List.nodup_cons.mpr ⟨fun hmem => ?_, ih hsteps⟩
      obtain ⟨⟨k', v'⟩, hw, rfl⟩ := List.mem_map.mp hmem
      exact (hs _ (mem_writes.mp hw) _ v rfl).2 v' rfl
    | _ => exact ih hsteps

/-- An orderly script makes no two writes to one name. -/
theorem Orderly.nodup_made {steps : List (Step κ β τ ε)} (h : Orderly steps)
    (refuses : κ → Bool) (sched : Schedule δ) : ((made refuses steps sched).map Prod.fst).Nodup :=
  h.nodup_writes.sublist (made_keys refuses steps sched)

/-- No step changes an attribute. -/
def Untouched (steps : List (Step κ β τ ε)) : Prop := ∀ t, .touch t ∉ steps

theorem untouched_cons {s : Step κ β τ ε} {steps : List (Step κ β τ ε)} (hs : ∀ t, s ≠ .touch t)
    (h : Untouched steps) : Untouched (s :: steps) := by
  intro t ht
  obtain heq | hmem := List.mem_cons.mp ht
  · exact hs t heq.symm
  · exact h t hmem

/-! ## Making the writes -/

variable [DecidableEq κ]

/-- The store after the given writes. -/
def replay (ws : List (κ × List β)) (s : Store κ β) : Store κ β :=
  ws.foldl (fun s w => Function.update s w.1 (some w.2)) s

@[simp] theorem replay_cons (k : κ) (v : List β) (ws : List (κ × List β)) (s : Store κ β) :
    replay ((k, v) :: ws) s = replay ws (Function.update s k (some v)) := rfl

theorem replay_of_notMem {ws : List (κ × List β)} {k : κ} (hk : k ∉ ws.map Prod.fst)
    (s : Store κ β) : replay ws s k = s k := by
  induction ws generalizing s with
  | nil => rfl
  | cons w ws ih =>
    obtain ⟨hne, hws⟩ := not_or.mp fun h => hk (List.mem_cons.mpr h)
    rw [replay_cons, ih hws, Function.update_of_ne hne]

theorem replay_of_mem {ws : List (κ × List β)} (hnodup : (ws.map Prod.fst).Nodup) {k : κ}
    {v : List β} (hmem : (k, v) ∈ ws) (s : Store κ β) : replay ws s k = some v := by
  induction ws generalizing s with
  | nil => simp at hmem
  | cons w ws ih =>
    obtain ⟨hw, hnodup⟩ := List.nodup_cons.mp hnodup
    rcases List.mem_cons.mp hmem with rfl | hmem
    · rw [replay_cons, replay_of_notMem hw, Function.update_self]
    · exact ih hnodup hmem _

/-! ## Attributes -/

variable {α : Type}

/-- The attribute of a name after all steps have been carried out, where a write keeps it or gives
the fresh one to a name that was not there, and a change of attributes sets it. -/
def attrAfter (fresh : α) (k : κ) : List (Step κ β (κ × α) ε) → Option α → Option α
  | [], a => a
  | .guard _ :: steps, a => attrAfter fresh k steps a
  | .write k' _ :: steps, a => attrAfter fresh k steps (if k' = k then some (a.getD fresh) else a)
  | .touch t :: steps, a => attrAfter fresh k steps (if t.1 = k then a.map fun _ => t.2 else a)
  | .stop _ :: steps, a => attrAfter fresh k steps a

theorem attrAfter_append (fresh : α) (k : κ) (steps steps' : List (Step κ β (κ × α) ε))
    (a : Option α) :
    attrAfter fresh k (steps ++ steps') a =
      attrAfter fresh k steps' (attrAfter fresh k steps a) := by
  induction steps generalizing a with
  | nil => rfl
  | cons s steps ih => cases s <;> exact ih _

theorem attrAfter_guards (fresh : α) (k : κ) (ks : List κ) (a : Option α) :
    attrAfter fresh k (ks.map .guard : List (Step κ β (κ × α) ε)) a = a := by
  induction ks with
  | nil => rfl
  | cons k ks ih => exact ih

/-- Without changes of attributes, what is written keeps its attribute or has the fresh one. -/
theorem attrAfter_of_untouched {fresh : α} {k : κ} {steps : List (Step κ β (κ × α) ε)}
    (h : Untouched steps) (a : Option α) :
    attrAfter fresh k steps a =
      if k ∈ (writes steps).map Prod.fst then some (a.getD fresh) else a := by
  induction steps generalizing a with
  | nil => rfl
  | cons s steps ih =>
    have hrest : Untouched steps := fun t ht => h t (List.mem_cons_of_mem _ ht)
    cases s with
    | write k' v =>
      rw [attrAfter, ih hrest, writes, List.map_cons]
      by_cases hk : k' = k
      · -- what is written twice keeps what the first write gives
        simp [hk]
      · have hmem : k ∈ k' :: (writes steps).map Prod.fst ↔ k ∈ (writes steps).map Prod.fst := by
          rw [List.mem_cons, or_iff_right (Ne.symm hk)]
        rw [if_neg hk]
        simp only [hmem]
    | touch t => exact absurd (List.mem_cons_self ..) (h t)
    | guard k' => exact ih hrest a
    | stop e => exact ih hrest a

/-! ## Carrying out a script -/

/-- The names that a guard refuses: those that are taken, unless overwriting is allowed. -/
def refused (force : Bool) (s : Store κ β) (k : κ) : Bool := (s k).isSome && !force

/-- Carry out a script: the result and the store at its end. -/
def exec (force : Bool) :
    List (Step κ β τ ε) → Schedule δ → Store κ β → Except (Failure κ δ ε) Unit × Store κ β
  | [], _, s => (.ok (), s)
  | step :: steps, sched, s =>
    let s' := replay (step.leaves (sched.headD none)) s
    match step.failure (refused force s) (sched.headD none) with
    | none => exec force steps sched.tail s'
    | some e => (.error e, s')

/-- The result of a script that ends early, or does not. -/
def result : Option (Failure κ δ ε) → Except (Failure κ δ ε) Unit
  | none => .ok ()
  | some e => .error e

theorem replay_append (ws ws' : List (κ × List β)) (s : Store κ β) :
    replay (ws ++ ws') s = replay ws' (replay ws s) :=
  List.foldl_append

/-- What a step writes changes no name that a later step of an orderly script guards. -/
theorem refused_of_guard {force : Bool} {step : Step κ β τ ε} {steps : List (Step κ β τ ε)}
    (horderly : Orderly (step :: steps)) (o : Option (Fault δ)) (s : Store κ β) {k : κ}
    (hk : .guard k ∈ steps) : refused force (replay (step.leaves o) s) k = refused force s k := by
  have hkeys : k ∉ (step.leaves o).map Prod.fst := by
    cases step with
    | write k' v =>
      have hne : k ≠ k' := by
        rintro rfl
        exact ((List.pairwise_cons.mp horderly).1 _ hk k v rfl).1 rfl
      rcases o with _ | ⟨e, _ | n⟩ <;> simp [Step.leaves, Fault.leaves, hne]
    | guard k' => simp [Step.leaves]
    | touch t => simp [Step.leaves]
    | stop e => simp [Step.leaves]
  rw [refused, replay_of_notMem hkeys, refused]

/-- An orderly script ends at its first failing step, with the writes made up to there, where the
guards refuse what was taken at the start. -/
theorem exec_eq {force : Bool} {refuses : κ → Bool} {steps : List (Step κ β τ ε)}
    (horderly : Orderly steps) (sched : Schedule δ) {s : Store κ β}
    (hrefuses : ∀ k, .guard k ∈ steps → refuses k = refused force s k) :
    exec force steps sched s =
      (result (firstFailure refuses steps sched), replay (made refuses steps sched) s) := by
  -- induction on the script: what a step has written is not guarded any more
  induction steps generalizing sched s with
  | nil => rfl
  | cons step steps ih =>
    have hstep : step.failure (refused force s) (sched.headD none) =
        step.failure refuses (sched.headD none) :=
      Step.failure_congr (fun k hk => (hrefuses k (by simp [hk])).symm) _
    rw [exec, firstFailure, made, hstep]
    cases step.failure refuses (sched.headD none) with
    | some e => rfl
    | none =>
      simp only [replay_append]
      refine ih (List.pairwise_cons.mp horderly).2 sched.tail fun k hk => ?_
      rw [refused_of_guard horderly _ s hk, hrefuses k (List.mem_cons_of_mem _ hk)]

end Script

end Effects
