import Cry.Ssh.Agent

/-!
# The output of `ssh-agent`

The parser of the output goes through the lines and takes the first one that gives the variable, in
the style of `sh` or of `csh`. In the style of `csh` the value ends at the first space, and a line
that names the variable without a value ends the search.

## Main results

* `extractVarFrom_cons`: what a line that does not assign the variable does to the search;
* `extractVarFrom_append`: what a sequence of such lines does;
* `extractVar_iff`: when the value of a variable is found in one of the two styles.
-/

namespace Cry

open Rust

namespace Ssh

/-! ## Lines -/

/-- The two styles. -/
inductive Style
  | sh
  | csh

/-- The line that assigns a value to a variable. -/
def Style.line (v x : List Char) : Style → List Char
  | .sh => v ++ '=' :: (x ++ "; export ".toList ++ v ++ [';'])
  | .csh => "setenv ".toList ++ (v ++ ' ' :: (x ++ [';']))

theorem Style.line_sh (v x : List Char) :
    Style.sh.line v x = v ++ '=' :: (x ++ "; export ".toList ++ v ++ [';']) := rfl

theorem Style.line_csh (v x : List Char) :
    Style.csh.line v x = "setenv ".toList ++ (v ++ ' ' :: (x ++ [';'])) := rfl

/-- The line assigns the variable in one of the two styles. -/
def Assigns (v line : List Char) : Prop :=
  (∃ rest, Str.trim line = v ++ '=' :: rest) ∨
    ∃ rest, Str.trim line = "setenv ".toList ++ (v ++ ' ' :: rest)

theorem assigns_iff {v line : List Char} : Assigns v line ↔
    (v ++ ['=']) <+: Str.trim line ∨ ("setenv ".toList ++ (v ++ [' '])) <+: Str.trim line := by
  simp only [Assigns, List.IsPrefix, List.append_assoc, List.cons_append, List.nil_append, eq_comm]

instance (v line : List Char) : Decidable (Assigns v line) := decidable_of_iff' _ assigns_iff

/-- The line names the variable in the style of `csh` and has no value for it. -/
def Bare (v line : List Char) : Prop := Str.trim line = "setenv ".toList ++ v

instance (v line : List Char) : Decidable (Bare v line) := inferInstanceAs (Decidable (_ = _))

/-- No line in the style of `csh` begins like one in the style of `sh`. -/
theorem setenv_ne {v s t : List Char} (hv : ' ' ∉ v) : v ++ '=' :: s ≠ "setenv ".toList ++ t :=
  Str.append_cons_ne (b := "setenv".toList) (by decide) (by decide) hv

/-! ## The search -/

variable {v : List Char}

/-- The search passes over a line that neither assigns nor names the variable, and ends at one that
names it only. -/
theorem extractVarFrom_cons (hv : ' ' ∉ v) {line : List Char} (hline : ¬Assigns v line)
    (lines : List (List Char)) :
    extractVarFrom v (line :: lines) = if Bare v line then none else extractVarFrom v lines := by
  obtain ⟨hsh, hcsh⟩ := not_or.mp hline
  rw [extractVarFrom]
  cases hprefix : Str.stripPrefix (v ++ ['=']) (Str.trim line) with
  | some rest =>
    rw [Str.stripPrefix_eq_some_iff, List.append_assoc] at hprefix
    exact absurd ⟨rest, hprefix⟩ hsh
  | none =>
    cases hsetenv : Str.stripPrefix "setenv ".toList (Str.trim line) with
    | none =>
      have hbare : ¬Bare v line := by
        intro hbare
        rw [Str.stripPrefix_eq_some_iff.mpr hbare] at hsetenv
        cases hsetenv
      rw [if_neg hbare]
    | some rest =>
      rw [Str.stripPrefix_eq_some_iff] at hsetenv
      have hbare : Bare v line ↔ rest = v := by
        rw [Bare, hsetenv, List.append_cancel_left_eq]
      simp only [hbare]
      obtain ⟨hnot, hparts⟩ | ⟨name, more, hname, rfl, hparts⟩ := Str.splitn_cases ' ' rest 1
      · -- a name without a value
        rw [hparts]
        rfl
      · have hne : name ≠ v := by
          rintro rfl
          exact hcsh ⟨more, hsetenv⟩
        have hrest : name ++ ' ' :: more ≠ v := by
          rintro rfl
          simp at hv
        rw [hparts]
        simp only [if_neg hne, if_neg hrest]

/-- The search passes over lines that do not assign the variable, unless one of them names it. -/
theorem extractVarFrom_append (hv : ' ' ∉ v) {before : List (List Char)}
    (hbefore : ∀ l ∈ before, ¬Assigns v l) (lines : List (List Char)) :
    extractVarFrom v (before ++ lines) =
      if ∃ l ∈ before, Bare v l then none else extractVarFrom v lines := by
  induction before with
  | nil => simp
  | cons line before ih =>
    rw [List.forall_mem_cons] at hbefore
    rw [List.cons_append, extractVarFrom_cons hv hbefore.1, ih hbefore.2]
    simp only [List.exists_mem_cons_iff]
    by_cases hbare : Bare v line <;> simp [hbare]

/-- Without a line that assigns the variable there is no value. -/
theorem extractVarFrom_of_not_assigns (hv : ' ' ∉ v) {lines : List (List Char)}
    (hlines : ∀ l ∈ lines, ¬Assigns v l) : extractVarFrom v lines = none := by
  have happend := extractVarFrom_append hv hlines []
  rw [List.append_nil] at happend
  rw [happend]
  split <;> rfl

/-! ## The two styles -/

variable {x : List Char}

/-- The style gives the value of the variable back. In the style of `sh`, the name may not begin
with white space, which is trimmed off the line; in that of `csh`, the value may not have a
space. -/
def Style.GivesBack (v x : List Char) : Style → Prop
  | .sh => ∀ c ∈ v.head?, Str.isWhitespace c = false
  | .csh => ' ' ∉ x

instance (v x : List Char) : (style : Style) → Decidable (style.GivesBack v x)
  | .sh => inferInstanceAs (Decidable (∀ c ∈ v.head?, Str.isWhitespace c = false))
  | .csh => inferInstanceAs (Decidable (' ' ∉ x))

/-- A line of either style ends with a semicolon. -/
theorem getLast?_line (style : Style) : (style.line v x).getLast? = some ';' := by
  cases style with
  | sh =>
    have hline : Style.sh.line v x = (v ++ '=' :: (x ++ "; export ".toList ++ v)) ++ [';'] := by
      simp only [Style.line_sh, List.append_assoc, List.cons_append]
    rw [hline, List.getLast?_concat]
  | csh =>
    have hline : Style.csh.line v x = ("setenv ".toList ++ v ++ ' ' :: x) ++ [';'] := by
      simp only [Style.line_csh, List.append_assoc, List.cons_append]
    rw [hline, List.getLast?_concat]

/-- So one that does not begin with white space is trimmed already. -/
theorem trim_line {style : Style}
    (hhead : ∀ c ∈ (style.line v x).head?, Str.isWhitespace c = false) :
    Str.trim (style.line v x) = style.line v x := by
  refine Str.trim_of_ends hhead fun c hc => ?_
  rw [getLast?_line, Option.mem_some] at hc
  rw [← hc]
  decide

/-- In the style of `sh`, the value is what stands before the first semicolon. -/
theorem extractVarFrom_sh (hhead : Style.sh.GivesBack v x) (hsemicolon : ';' ∉ x)
    (htrim : Str.trim x = x) (after : List (List Char)) :
    extractVarFrom v (Style.sh.line v x :: after) = some x := by
  have hstart : ∀ c ∈ (Style.sh.line v x).head?, Str.isWhitespace c = false := by
    cases v with
    | nil => simp [Style.line_sh, Str.isWhitespace]
    | cons c' v => exact hhead
  have hstrip : Str.stripPrefix (v ++ ['=']) (Style.sh.line v x) =
      some (x ++ ';' :: (" export ".toList ++ v ++ [';'])) := by
    have hexport : "; export ".toList = ';' :: " export ".toList := rfl
    rw [Str.stripPrefix_eq_some_iff, Style.line_sh, hexport]
    simp only [List.append_assoc, List.cons_append, List.nil_append]
  rw [extractVarFrom, trim_line hstart, hstrip]
  dsimp only
  rw [List.splitOn_append_cons_self_of_not_mem hsemicolon]
  simp [htrim]

/-- In the style of `csh`, the value is what stands before the first space. -/
theorem extractVarFrom_csh (hv : ' ' ∉ v) (hsemicolon : ';' ∉ x) (after : List (List Char)) :
    extractVarFrom v (Style.csh.line v x :: after) = (Str.splitn 2 ' ' x).head? := by
  have hstart : ∀ c ∈ (Style.csh.line v x).head?, Str.isWhitespace c = false := by
    have hsetenv : "setenv ".toList = 's' :: "etenv ".toList := rfl
    rw [Style.line_csh, hsetenv, List.cons_append, List.head?_cons]
    simp [Str.isWhitespace]
  have hsh : Str.stripPrefix (v ++ ['=']) (Style.csh.line v x) = none := by
    rw [Option.eq_none_iff_forall_ne_some]
    intro rest hrest
    rw [Str.stripPrefix_eq_some_iff, List.append_assoc] at hrest
    exact setenv_ne hv hrest.symm
  have hcsh : Str.stripPrefix "setenv ".toList (Style.csh.line v x) =
      some (v ++ ' ' :: (x ++ [';'])) := Str.stripPrefix_eq_some_iff.mpr rfl
  rw [extractVarFrom, trim_line hstart, hsh]
  simp only [hcsh, Str.splitn_append hv, if_true]
  have hkeep : ∀ part : List Char, ';' ∉ part → Str.trimEndMatches ';' part = part := by
    intro part hpart
    rw [Str.trimEndMatches, List.rdropWhile_eq_self_iff]
    intro hne heq
    exact hpart (eq_of_beq heq ▸ List.getLast_mem hne)
  obtain ⟨hspace, hparts⟩ | ⟨part, rest, hpart, rfl, hparts⟩ := Str.splitn_cases ' ' x 0
  · have hlast : ' ' ∉ x ++ [';'] := by simp [hspace]
    have hcut : Str.trimEndMatches ';' (x ++ [';']) = x :=
      (List.rdropWhile_concat_pos _ _ _ (by simp)).trans (hkeep x hsemicolon)
    rw [hparts, Str.splitn_of_notMem hlast]
    simp [hcut]
  · -- the rest of the value is a part of its own
    rw [hparts, List.append_assoc, List.cons_append, Str.splitn_append hpart]
    simp [hkeep part fun hmem => hsemicolon (by simp [hmem])]

/-- A name that begins with white space is not found in the style of `sh`. -/
theorem not_assigns_of_not_givesBack (hv : ' ' ∉ v) (h : ¬Style.sh.GivesBack v x) :
    ¬Assigns v (Style.sh.line v x) := by
  obtain ⟨c, hc, hwhite⟩ : ∃ c, v.head? = some c ∧ Str.isWhitespace c = true := by
    simpa [Style.GivesBack] using h
  rintro (⟨rest, hrest⟩ | ⟨rest, hrest⟩)
  · -- a trimmed line does not begin with white space
    have hhead : c ∈ (Str.trim (Style.sh.line v x)).head? := by
      rw [hrest, List.head?_append, hc]
      rfl
    rw [Str.isWhitespace_of_head_trim hhead] at hwhite
    cases hwhite
  · -- what is left of the name has no space, and the sign of equality comes next
    obtain ⟨t, ht⟩ := Str.trim_prefix (Style.sh.line v x)
    rw [hrest, Style.line_sh, List.dropWhile_append] at ht
    split at ht
    · next hempty =>
      rw [List.dropWhile_cons_of_neg (by decide), List.append_assoc] at ht
      exact absurd (List.cons.inj ht).1 (by decide)
    · rw [List.append_assoc] at ht
      exact setenv_ne (fun hmem => hv (List.dropWhile_subset _ hmem)) ht.symm

/-! ## The value -/

/-- Without a line that assigns the variable in one of the two styles there is no value. When there
is such a line of `sh` or of `csh` and no other line assigns the variable, the value is found if and
only if no line before names the variable without a value and the style gives the value back. -/
theorem extractVar_iff (text v : String) (hv : ' ' ∉ v.toList) :
    ((∀ l ∈ Str.lines text.toList, ¬Assigns v.toList l) → extractVar text v = none) ∧
      ∀ (style : Style) (x : String) (before after : List (List Char)),
        ';' ∉ x.toList → Str.trim x.toList = x.toList →
        Str.lines text.toList = before ++ style.line v.toList x.toList :: after →
        (∀ l ∈ before ++ after, ¬Assigns v.toList l) →
          (extractVar text v = some x ↔
            (∀ l ∈ before, ¬Bare v.toList l) ∧ style.GivesBack v.toList x.toList) := by
  constructor
  · intro hlines
    rw [extractVar, extractVarFrom_of_not_assigns hv hlines, Option.map_none]
  · intro style x before after hsemicolon htrim hlines hsurround
    have hbefore : ∀ l ∈ before, ¬Assigns v.toList l := fun l hl => hsurround l (by simp [hl])
    have hafter : ∀ l ∈ after, ¬Assigns v.toList l := fun l hl => hsurround l (by simp [hl])
    have hfound : extractVarFrom v.toList (style.line v.toList x.toList :: after) =
        some x.toList ↔ style.GivesBack v.toList x.toList := by
      cases style with
      | sh =>
        by_cases hgives : Style.sh.GivesBack v.toList x.toList
        · simp only [extractVarFrom_sh hgives hsemicolon htrim after, hgives]
        · rw [extractVarFrom_of_not_assigns hv
            (List.forall_mem_cons.mpr ⟨not_assigns_of_not_givesBack hv hgives, hafter⟩)]
          simp [hgives]
      | csh =>
        rw [extractVarFrom_csh hv hsemicolon, Style.GivesBack]
        obtain ⟨hspace, hparts⟩ | ⟨part, rest, -, hsplit, hparts⟩ :=
          Str.splitn_cases ' ' x.toList 0
        · simp [hparts, hspace]
        · -- a part in front of a space is not the whole
          rw [hparts, hsplit]
          simp
    have hlist : extractVar text v = some x ↔
        extractVarFrom v.toList (Str.lines text.toList) = some x.toList := by
      rw [extractVar, Option.map_eq_some_iff]
      constructor
      · rintro ⟨value, hvalue, rfl⟩
        rw [hvalue, String.toList_ofList]
      · intro h
        exact ⟨_, h, String.ofList_toList⟩
    rw [hlist, hlines, extractVarFrom_append hv hbefore]
    by_cases hbare : ∃ l ∈ before, Bare v.toList l
    · rw [if_pos hbare]
      obtain ⟨l, hl, hb⟩ := hbare
      exact ⟨nofun, fun h => absurd hb (h.1 l hl)⟩
    · rw [if_neg hbare, hfound]
      exact ⟨fun h => ⟨fun l hl hb => hbare ⟨l, hl, hb⟩, h⟩, And.right⟩

/-- The output of an agent in the style of `csh`. -/
def cshOutput (socket : String) : String :=
  "setenv SSH_AUTH_SOCK " ++ socket ++ ";\nsetenv SSH_AGENT_PID 12;\n"

/-- Both variables are found in it. -/
theorem extractVar_cshOutput :
    extractVar (cshOutput "/tmp/a.1") "SSH_AUTH_SOCK" = some "/tmp/a.1" ∧
      extractVar (cshOutput "/tmp/a.1") "SSH_AGENT_PID" = some "12" ∧
      extractVar (cshOutput "/tmp/a.1") "SSH_PORT" = none := by
  refine ⟨?_, ?_, ?_⟩
  · exact ((extractVar_iff (cshOutput "/tmp/a.1") "SSH_AUTH_SOCK" (by decide)).2 .csh "/tmp/a.1" []
      ["setenv SSH_AGENT_PID 12;".toList] (by decide) (by decide) (by decide) (by decide)).mpr
        (by decide)
  · exact ((extractVar_iff (cshOutput "/tmp/a.1") "SSH_AGENT_PID" (by decide)).2 .csh "12"
      ["setenv SSH_AUTH_SOCK /tmp/a.1;".toList] [] (by decide) (by decide) (by decide)
        (by decide)).mpr (by decide)
  · exact (extractVar_iff (cshOutput "/tmp/a.1") "SSH_PORT" (by decide)).1 (by decide)

/-- A path with a space is cut at the space in the style of `csh`, and is not in that of `sh`. -/
theorem value_cut_at_space :
    ∃ v x : String, ' ' ∉ v.toList ∧ x ≠ "" ∧ ';' ∉ x.toList ∧ Str.trim x.toList = x.toList ∧
      (∃ text after, Str.lines text.toList = Style.csh.line v.toList x.toList :: after ∧
        (∀ l ∈ after, ¬Assigns v.toList l) ∧ extractVar text v = some "/tmp/my" ∧
        x ≠ "/tmp/my") ∧
      ∃ text after, Str.lines text.toList = Style.sh.line v.toList x.toList :: after ∧
        (∀ l ∈ after, ¬Assigns v.toList l) ∧ extractVar text v = some x := by
  refine ⟨"SSH_AUTH_SOCK", "/tmp/my dir/agent.1", by decide, by decide, by decide, by decide,
    ⟨cshOutput "/tmp/my dir/agent.1", ["setenv SSH_AGENT_PID 12;".toList], by decide, by decide,
      by decide, by decide⟩,
    "SSH_AUTH_SOCK=/tmp/my dir/agent.1; export SSH_AUTH_SOCK;\n", [], by decide, by decide,
      by decide⟩

end Ssh

end Cry
