import Cry.Bytes.BigEndian

/-!
# Length-prefixed frames

A frame is a byte string preceded by its length as a 32-bit big-endian word, and a body is a
sequence of frames. A body determines its frames: two bodies with equally many frames that agree
as far as both go are the same. `ForallFrom` relates two lists entry by entry, with the position
of the entry as a parameter, as an encoder that numbers its frames needs it.

## Main results

* `frames_append_inj`: equally many frames followed by anything determine the frames;
* `parse_frames`: reading frames to the end of the input undoes writing them;
* `frames_take_strip`: an input is the leading frames it shares with a body and a rest;
* `ForallFrom.append_singleton` and `ForallFrom.flip`: the rules of the indexed relation.
-/

namespace Framing

/-! ## Frames -/

/-- One frame: the length as a 32-bit word, then the bytes. -/
def frame (c : List UInt8) : List UInt8 :=
  BigEndian.ofU32 (UInt32.ofNat c.length) ++ c

/-- A body: its frames in order. -/
def frames (cs : List (List UInt8)) : List UInt8 := (cs.map frame).flatten

@[simp] theorem frames_nil : frames [] = [] := rfl

@[simp] theorem frames_cons (c : List UInt8) (cs : List (List UInt8)) :
    frames (c :: cs) = frame c ++ frames cs := by
  simp [frames]

@[simp] theorem frames_append (cs ds : List (List UInt8)) :
    frames (cs ++ ds) = frames cs ++ frames ds := by
  simp [frames]

/-- The length word of a frame that fits determines the length. -/
theorem toNat_frameLen {c : List UInt8} (h : c.length < 2 ^ 32) :
    (UInt32.ofNat c.length).toNat = c.length :=
  UInt32.toNat_ofNat_of_lt' h

/-- A frame followed by anything determines the frame. -/
theorem frame_append_inj {c d t u : List UInt8} (hc : c.length < 2 ^ 32) (hd : d.length < 2 ^ 32)
    (h : frame c ++ t = frame d ++ u) : c = d ∧ t = u := by
  rw [frame, frame, List.append_assoc, List.append_assoc] at h
  obtain ⟨hlen, hrest⟩ := List.append_inj h (by simp)
  have hword := congrArg UInt32.toNat (BigEndian.ofU32_injective hlen)
  rw [toNat_frameLen hc, toNat_frameLen hd] at hword
  exact List.append_inj hrest hword

/-- Equally many frames followed by anything determine the frames. -/
theorem frames_append_inj {cs ds : List (List UInt8)} {t u : List UInt8}
    (hcs : ∀ c ∈ cs, c.length < 2 ^ 32) (hds : ∀ d ∈ ds, d.length < 2 ^ 32)
    (hlen : cs.length = ds.length) (h : frames cs ++ t = frames ds ++ u) :
    cs = ds ∧ t = u := by
  -- induction on the frames: the first ones are equal, since a frame says its length
  induction cs generalizing ds with
  | nil =>
    obtain rfl : ds = [] := List.length_eq_zero_iff.mp hlen.symm
    exact ⟨rfl, h⟩
  | cons c cs ih =>
    cases ds with
    | nil => simp at hlen
    | cons d ds =>
      rw [frames_cons, frames_cons, List.append_assoc, List.append_assoc] at h
      obtain ⟨rfl, hrest⟩ := frame_append_inj (hcs c (by simp)) (hds d (by simp)) h
      obtain ⟨rfl, hu⟩ := ih (fun x hx => hcs x (by simp [hx])) (fun x hx => hds x (by simp [hx]))
        (by simpa using hlen) hrest
      exact ⟨rfl, hu⟩

/-- A body that starts with at least as many frames as it has consists of these frames. -/
theorem frames_append_eq {cs ds : List (List UInt8)} {t : List UInt8}
    (hcs : ∀ c ∈ cs, c.length < 2 ^ 32) (hds : ∀ d ∈ ds, d.length < 2 ^ 32)
    (hlen : ds.length ≤ cs.length) (h : frames cs ++ t = frames ds) : t = [] := by
  rw [← List.take_append_drop ds.length cs, frames_append, List.append_assoc,
    ← List.append_nil (frames ds)] at h
  have hrest := (frames_append_inj (fun c hc => hcs c (List.mem_of_mem_take hc)) hds
    (by rw [List.length_take]; omega) h).2
  exact (List.append_eq_nil_iff.mp hrest).2

/-! ## Reading frames -/

/-- Read frames to the end of the input, or fail where a frame is cut. -/
def parseFrames : (fuel : ℕ) → List UInt8 → Option (List (List UInt8))
  | _, [] => some []
  | 0, _ :: _ => none
  | fuel + 1, b :: bs =>
    if h : 4 ≤ (b :: bs).length then
      let len := (BigEndian.toU32 ⟨(b :: bs).take 4, by rw [List.length_take]; omega⟩).toNat
      let rest := (b :: bs).drop 4
      if len ≤ rest.length then
        (parseFrames fuel (rest.drop len)).map fun cs => rest.take len :: cs
      else none
    else none

/-- All frames of an input. Every frame takes four bytes at least, so its length is fuel enough. -/
def parse (bs : List UInt8) : Option (List (List UInt8)) := parseFrames bs.length bs

/-- The first frame is read off the front. -/
theorem parseFrames_frame {c : List UInt8} (hc : c.length < 2 ^ 32) (fuel : ℕ) (t : List UInt8) :
    parseFrames (fuel + 1) (frame c ++ t) = (parseFrames fuel t).map (c :: ·) := by
  have hlen : 4 ≤ (frame c ++ t).length := by
    rw [frame, List.length_append, List.length_append, BigEndian.length_ofU32]
    omega
  have htake : (frame c ++ t).take 4 = BigEndian.ofU32 (UInt32.ofNat c.length) := by
    rw [frame, List.append_assoc, List.take_left' (by simp)]
  have hdrop : (frame c ++ t).drop 4 = c ++ t := by
    rw [frame, List.append_assoc, List.drop_left' (by simp)]
  generalize frame c ++ t = bs at hlen htake hdrop ⊢
  cases bs with
  | nil => cases hlen
  | cons b bs =>
    rw [parseFrames, dif_pos hlen]
    simp only [htake, hdrop, BigEndian.toU32_ofU32, toNat_frameLen hc]
    rw [if_pos (by rw [List.length_append]; omega), List.drop_left, List.take_left]

/-- Reading frames to the end of the input undoes writing them. -/
theorem parse_frames {cs : List (List UInt8)} (hcs : ∀ c ∈ cs, c.length < 2 ^ 32) :
    parse (frames cs) = some cs := by
  have hfuel : ∀ fuel, (frames cs).length ≤ fuel → parseFrames fuel (frames cs) = some cs := by
    induction cs with
    | nil => exact fun fuel _ => by rw [frames_nil, parseFrames]
    | cons c cs ih =>
      intro fuel hle
      rw [List.forall_mem_cons] at hcs
      rw [frames_cons, frame, List.length_append, List.length_append,
        BigEndian.length_ofU32] at hle
      obtain ⟨fuel, rfl⟩ : ∃ n, fuel = n + 1 := ⟨fuel - 1, by omega⟩
      rw [frames_cons, parseFrames_frame hcs.1, ih hcs.2 fuel (by omega), Option.map_some]
  exact hfuel _ le_rfl

/-! ## Leading frames -/

/-- How many of the frames an input starts with, in order, and what follows these. -/
def strip : List (List UInt8) → List UInt8 → ℕ × List UInt8
  | [], t => (0, t)
  | c :: cs, t =>
    if frame c <+: t then
      ((strip cs (t.drop (frame c).length)).1 + 1, (strip cs (t.drop (frame c).length)).2)
    else (0, t)

/-- The first frame is stripped off the front. -/
@[simp] theorem strip_frame_append (c : List UInt8) (cs : List (List UInt8)) (t : List UInt8) :
    strip (c :: cs) (frame c ++ t) = ((strip cs t).1 + 1, (strip cs t).2) := by
  rw [strip, if_pos (List.prefix_append _ _), List.drop_left]

/-- An input that does not start with the first frame is left as it is. -/
theorem strip_of_not_isPrefix {c : List UInt8} (cs : List (List UInt8)) {t : List UInt8}
    (h : ¬frame c <+: t) : strip (c :: cs) t = (0, t) := by
  rw [strip, if_neg h]

/-- The input is the stripped frames and what follows them. -/
theorem frames_take_strip (cs : List (List UInt8)) (t : List UInt8) :
    (strip cs t).1 ≤ cs.length ∧ frames (cs.take (strip cs t).1) ++ (strip cs t).2 = t := by
  induction cs generalizing t with
  | nil => exact ⟨le_rfl, rfl⟩
  | cons c cs ih =>
    by_cases h : frame c <+: t
    · obtain ⟨u, rfl⟩ := h
      obtain ⟨hle, hrest⟩ := ih u
      rw [strip_frame_append, List.take_succ_cons, frames_cons, List.append_assoc, hrest]
      exact ⟨Nat.succ_le_succ hle, rfl⟩
    · rw [strip_of_not_isPrefix cs h]
      exact ⟨Nat.zero_le _, rfl⟩

/-- All the frames are stripped off an input that starts with them. -/
theorem strip_frames_append (cs : List (List UInt8)) (t : List UInt8) :
    strip cs (frames cs ++ t) = (cs.length, t) := by
  induction cs with
  | nil => rfl
  | cons c cs ih => rw [frames_cons, List.append_assoc, strip_frame_append, ih, List.length_cons]

/-! ## Relations between numbered entries -/

variable {α β γ : Type}

/-- Two lists of one length whose entries are related, the first at position `i`, the next at
`i + 1`, and so on. -/
inductive ForallFrom (R : ℕ → α → β → Prop) : ℕ → List α → List β → Prop
  | nil {i : ℕ} : ForallFrom R i [] []
  | cons {i : ℕ} {a : α} {b : β} {as : List α} {bs : List β} :
      R i a b → ForallFrom R (i + 1) as bs → ForallFrom R i (a :: as) (b :: bs)

namespace ForallFrom

variable {R S : ℕ → α → β → Prop} {i : ℕ} {as : List α} {bs : List β}

theorem length_eq (h : ForallFrom R i as bs) : as.length = bs.length := by
  induction h with
  | nil => rfl
  | cons _ _ ih => simp [ih]

/-- The relation may be weakened on the entries of the left list. -/
theorem imp (h : ForallFrom R i as bs) (himp : ∀ j, ∀ a ∈ as, ∀ b, R j a b → S j a b) :
    ForallFrom S i as bs := by
  induction h with
  | nil => exact .nil
  | cons hab _ ih =>
    exact .cons (himp _ _ (by simp) _ hab)
      (ih fun j x hx y => himp j x (List.mem_cons_of_mem _ hx) y)

/-- Reading the relation from right to left. -/
theorem flip (h : ForallFrom R i as bs) : ForallFrom (fun j b a => R j a b) i bs as := by
  induction h with
  | nil => exact .nil
  | cons hab _ ih => exact .cons hab ih

/-- One more entry at the end. -/
theorem append_singleton {a : α} {b : β} (h : ForallFrom R i as bs)
    (hab : R (i + as.length) a b) : ForallFrom R i (as ++ [a]) (bs ++ [b]) := by
  induction h with
  | nil => exact .cons (by simpa using hab) .nil
  | @cons i _ _ as _ hxy _ ih =>
    refine .cons hxy (ih ?_)
    rwa [List.length_cons, Nat.add_comm as.length, ← Nat.add_assoc] at hab

/-- Every entry of the left list is related to an entry of the right one. -/
theorem exists_mem_right (h : ForallFrom R i as bs) {a : α} (ha : a ∈ as) :
    ∃ j, ∃ b ∈ bs, R j a b := by
  induction h with
  | nil => simp at ha
  | @cons i _ b _ _ hab _ ih =>
    rcases List.mem_cons.mp ha with rfl | ha
    · exact ⟨i, b, by simp, hab⟩
    · obtain ⟨j, b, hb, hR⟩ := ih ha
      exact ⟨j, b, List.mem_cons_of_mem _ hb, hR⟩

end ForallFrom

end Framing
