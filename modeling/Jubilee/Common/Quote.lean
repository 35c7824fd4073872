import Mathlib.Data.List.Basic
import Mathlib.Data.Nat.Init
import Mathlib.Tactic.Common
/-!
# Quoted literals

A literal runs to the mark that closes it. A mark that opens is matched by
one that closes, and the escape character takes the next one as it is, if
that is a mark or the escape character itself, and stands for itself
otherwise. `scan_append_iff` says which strings can be put into a literal
as they are, `verbatim_iff` says it without the scanner, and
`lexes_literal_iff` says it of a literal within a text.
-/

namespace Jubilee

namespace Quote

variable {α : Type*} [DecidableEq α]

/-- The marks of one kind of literal. -/
structure Marks (α : Type*) where
  esc : α
  close : α
  /-- The mark that opens, within a literal, where there is such. -/
  opens : Option α
  close_ne_esc : close ≠ esc
  opens_ne_esc : opens ≠ some esc
  opens_ne_close : opens ≠ some close

/-- The character loses the escape before it. -/
def Marks.Special (m : Marks α) (c : α) : Prop := c = m.esc ∨ c = m.close ∨ m.opens = some c

instance (m : Marks α) (c : α) : Decidable (m.Special c) :=
  inferInstanceAs (Decidable (_ ∨ _ ∨ _))

/-- A character comes before what was read after it. -/
def push (c : α) (r : List α × List α) : List α × List α := (c :: r.1, r.2)

/-- A literal is read, `nest` of whose inner marks are still to be closed:
its content, and what follows it. -/
def scan (m : Marks α) : ℕ → List α → Option (List α × List α)
  | _, [] => none
  | nest, c :: cs =>
    if c = m.esc then
      match cs with
      | [] => none
      | c' :: cs' =>
        if m.Special c' then (scan m nest cs').map (push c')
        else (scan m nest (c' :: cs')).map (push c)
    else if m.opens = some c then (scan m (nest + 1) cs).map (push c)
    else if c = m.close then
      match nest with
      | 0 => some ([], cs)
      | nest + 1 => (scan m nest cs).map (push c)
    else (scan m nest cs).map (push c)

variable {m : Marks α} {nest : ℕ} {c : α} {cs t text content rest : List α}

/-! ## One character -/

theorem scan_cons : scan m nest (c :: cs) =
    if c = m.esc then
      match cs with
      | [] => none
      | c' :: cs' =>
        if m.Special c' then (scan m nest cs').map (push c')
        else (scan m nest (c' :: cs')).map (push c)
    else if m.opens = some c then (scan m (nest + 1) cs).map (push c)
    else if c = m.close then
      match nest with
      | 0 => some ([], cs)
      | nest + 1 => (scan m nest cs).map (push c)
    else (scan m nest cs).map (push c) := by
  rw [scan.eq_def]

theorem scan_esc_special (h : m.Special c) :
    scan m nest (m.esc :: c :: cs) = (scan m nest cs).map (push c) := by
  rw [scan_cons, if_pos rfl]
  exact if_pos h

theorem scan_esc_other (h : ¬ m.Special c) :
    scan m nest (m.esc :: c :: cs) = (scan m nest (c :: cs)).map (push m.esc) := by
  rw [scan_cons, if_pos rfl]
  exact if_neg h

theorem scan_opens (h : m.opens = some c) :
    scan m nest (c :: cs) = (scan m (nest + 1) cs).map (push c) := by
  have hesc : c ≠ m.esc := fun hc => m.opens_ne_esc (hc ▸ h)
  rw [scan_cons, if_neg hesc, if_pos h]

theorem scan_close_zero : scan m 0 (m.close :: cs) = some ([], cs) := by
  rw [scan_cons, if_neg m.close_ne_esc, if_neg m.opens_ne_close, if_pos rfl]

theorem scan_close_succ :
    scan m (nest + 1) (m.close :: cs) = (scan m nest cs).map (push m.close) := by
  rw [scan_cons, if_neg m.close_ne_esc, if_neg m.opens_ne_close, if_pos rfl]

theorem scan_other (h : ¬ m.Special c) :
    scan m nest (c :: cs) = (scan m nest cs).map (push c) := by
  obtain ⟨hesc, hclose, hopens⟩ : _ ∧ _ ∧ _ := by simpa only [Marks.Special, not_or] using h
  rw [scan_cons, if_neg hesc, if_neg hopens, if_neg hclose]

/-- The escape character with nothing to follow it. -/
theorem scan_esc_end : scan m nest [m.esc] = none := by
  rw [scan_cons, if_pos rfl]

/-! ## The strings that are read as they stand -/

/-- The scanner goes through the string, from a depth to depth zero, and
takes no character away. -/
inductive Verbatim (m : Marks α) : ℕ → List α → Prop
  | nil : Verbatim m 0 []
  | esc {nest : ℕ} {c : α} {cs : List α} (hc : ¬ m.Special c) (h : Verbatim m nest (c :: cs)) :
    Verbatim m nest (m.esc :: c :: cs)
  | opens {nest : ℕ} {c : α} {cs : List α} (hc : m.opens = some c)
    (h : Verbatim m (nest + 1) cs) : Verbatim m nest (c :: cs)
  | close {nest : ℕ} {cs : List α} (h : Verbatim m nest cs) :
    Verbatim m (nest + 1) (m.close :: cs)
  | other {nest : ℕ} {c : α} {cs : List α} (hc : ¬ m.Special c) (h : Verbatim m nest cs) :
    Verbatim m nest (c :: cs)

omit [DecidableEq α] in
/-- A string without marks and escape characters. -/
theorem verbatim_of_not_mem (hesc : m.esc ∉ t) (hclose : m.close ∉ t)
    (hopens : ∀ c ∈ t, m.opens ≠ some c) : Verbatim m 0 t := by
  induction t with
  | nil => exact .nil
  | cons c cs ih =>
    obtain ⟨hesc, hescs⟩ := not_or.mp (List.mem_cons.not.mp hesc)
    obtain ⟨hclose, hcloses⟩ := not_or.mp (List.mem_cons.not.mp hclose)
    obtain ⟨hc, hcs⟩ := List.forall_mem_cons.mp hopens
    exact .other (not_or.mpr ⟨Ne.symm hesc, not_or.mpr ⟨Ne.symm hclose, hc⟩⟩)
      (ih hescs hcloses hcs)

/-- **Such a string is what the literal holds.** -/
theorem scan_of_verbatim (h : Verbatim m nest t) (rest : List α) :
    scan m nest (t ++ m.close :: rest) = some (t, rest) := by
  induction h with
  | nil => exact scan_close_zero
  | esc hc _ ih =>
    rw [List.cons_append] at ih ⊢
    rw [List.cons_append, scan_esc_other hc, ih]
    rfl
  | opens hc _ ih =>
    rw [List.cons_append, scan_opens hc, ih]
    rfl
  | close _ ih =>
    rw [List.cons_append, scan_close_succ, ih]
    rfl
  | other hc _ ih =>
    rw [List.cons_append, scan_other hc, ih]
    rfl

omit [DecidableEq α] in
/-- What a scan that read a character has read after it. -/
theorem map_push_eq_some {o : Option (List α × List α)}
    (h : o.map (push c) = some (content, rest)) :
    ∃ tail, o = some (tail, rest) ∧ content = c :: tail := by
  obtain ⟨⟨tail, rest'⟩, ho, heq⟩ := Option.map_eq_some_iff.mp h
  obtain ⟨rfl, rfl⟩ := Prod.mk.inj heq
  exact ⟨tail, ho, rfl⟩

/-- **What one character comes to**: it closes the literal, it takes its
escape away, or it is read as it stands. -/
theorem scan_cases (h : scan m nest (c :: cs) = some (content, rest)) :
    (c = m.close ∧ nest = 0 ∧ content = [] ∧ rest = cs) ∨
    (∃ c' cs' tail, cs = c' :: cs' ∧ content = c' :: tail ∧ scan m nest cs' = some (tail, rest)) ∨
    ∃ nest' tail, content = c :: tail ∧ scan m nest' cs = some (tail, rest) ∧
      ∀ t, cs = t ++ m.close :: rest → Verbatim m nest' t → Verbatim m nest (c :: t) := by
  by_cases hesc : c = m.esc
  · subst hesc
    cases cs with
    | nil =>
      rw [scan_esc_end] at h
      cases h
    | cons c' cs' =>
      by_cases hspecial : m.Special c'
      · rw [scan_esc_special hspecial] at h
        obtain ⟨tail, hscan, rfl⟩ := map_push_eq_some h
        exact Or.inr (Or.inl ⟨c', cs', tail, rfl, rfl, hscan⟩)
      · rw [scan_esc_other hspecial] at h
        obtain ⟨tail, hscan, rfl⟩ := map_push_eq_some h
        refine Or.inr (Or.inr ⟨nest, tail, rfl, hscan, fun t ht hv => ?_⟩)
        cases t with
        | nil => exact absurd (Or.inr (Or.inl (List.cons.inj ht).1)) hspecial
        | cons c'' t => exact .esc ((List.cons.inj ht).1 ▸ hspecial) hv
  by_cases hopens : m.opens = some c
  · rw [scan_opens hopens] at h
    obtain ⟨tail, hscan, rfl⟩ := map_push_eq_some h
    exact Or.inr (Or.inr ⟨nest + 1, tail, rfl, hscan, fun _ _ => .opens hopens⟩)
  by_cases hclose : c = m.close
  · subst hclose
    cases nest with
    | zero =>
      rw [scan_close_zero] at h
      obtain ⟨rfl, rfl⟩ := Prod.mk.inj (Option.some.inj h)
      exact Or.inl ⟨rfl, rfl, rfl, rfl⟩
    | succ nest =>
      rw [scan_close_succ] at h
      obtain ⟨tail, hscan, rfl⟩ := map_push_eq_some h
      exact Or.inr (Or.inr ⟨nest, tail, rfl, hscan, fun _ _ => .close⟩)
  · have hother : ¬ m.Special c := not_or.mpr ⟨hesc, not_or.mpr ⟨hclose, hopens⟩⟩
    rw [scan_other hother] at h
    obtain ⟨tail, hscan, rfl⟩ := map_push_eq_some h
    exact Or.inr (Or.inr ⟨nest, tail, rfl, hscan, fun _ _ => .other hother⟩)

/-- **What was read as a literal** is its source, or shorter. -/
theorem scan_sound (h : scan m nest text = some (content, rest)) :
    ∃ t, text = t ++ m.close :: rest ∧
      (content.length < t.length ∨ content = t ∧ Verbatim m nest t) := by
  induction hn : text.length using Nat.strong_induction_on generalizing text content nest with
  | _ n ih =>
    subst hn
    cases text with
    | nil => cases h
    | cons c cs =>
      obtain ⟨rfl, rfl, rfl, rfl⟩ | ⟨c', cs', tail, rfl, rfl, hscan⟩ |
        ⟨nest', tail, rfl, hscan, hstep⟩ := scan_cases h
      · exact ⟨[], rfl, Or.inr ⟨rfl, .nil⟩⟩
      · -- the escape is gone, so the content is shorter
        obtain ⟨t, rfl, ht⟩ := ih cs'.length (by simp only [List.length_cons]; omega) hscan rfl
        refine ⟨c :: c' :: t, rfl, Or.inl ?_⟩
        have hle : tail.length ≤ t.length :=
          ht.elim Nat.le_of_lt fun h => Nat.le_of_eq (congrArg _ h.1)
        simp only [List.length_cons]
        omega
      · obtain ⟨t, rfl, ht⟩ := ih cs.length (by simp only [List.length_cons]; omega) hscan rfl
        refine ⟨c :: t, rfl, ?_⟩
        rcases ht with hlt | ⟨rfl, hv⟩
        · exact Or.inl (Nat.succ_lt_succ hlt)
        · exact Or.inr ⟨rfl, hstep tail rfl hv⟩

/-- **Exactly the strings that a literal holds as they stand.** -/
theorem scan_append_iff (t rest : List α) :
    scan m nest (t ++ m.close :: rest) = some (t, rest) ↔ Verbatim m nest t := by
  refine ⟨fun h => ?_, fun h => scan_of_verbatim h rest⟩
  obtain ⟨t', htext, ht⟩ := scan_sound h
  obtain rfl : t = t' := List.append_cancel_right htext
  rcases ht with hlt | ⟨-, hv⟩
  · exact absurd hlt (Nat.lt_irrefl _)
  · exact hv

/-! ## What these strings are -/

/-- The depth that a string leads to, if no mark closes more than is open. -/
def depth (m : Marks α) : ℕ → List α → Option ℕ
  | nest, [] => some nest
  | nest, c :: cs =>
    if m.opens = some c then depth m (nest + 1) cs
    else if c = m.close then
      match nest with
      | 0 => none
      | nest + 1 => depth m nest cs
    else depth m nest cs

/-- The marks that open and those that close match. -/
def Balanced (m : Marks α) (t : List α) : Prop := depth m 0 t = some 0

instance (m : Marks α) (t : List α) : Decidable (Balanced m t) :=
  inferInstanceAs (Decidable (_ = _))

/-- No escape character is taken away: what follows it is neither a mark nor
another one, and it is not the last character. -/
structure NoEscape (m : Marks α) (t : List α) : Prop where
  followed : ∀ c, m.Special c → ¬ [m.esc, c] <:+: t
  last : t.getLast? ≠ some m.esc

theorem depth_opens (h : m.opens = some c) : depth m nest (c :: cs) = depth m (nest + 1) cs := by
  rw [depth.eq_def]
  exact if_pos h

theorem depth_close_zero : depth m 0 (m.close :: cs) = none := by
  rw [depth, if_neg m.opens_ne_close, if_pos rfl]

theorem depth_close_succ : depth m (nest + 1) (m.close :: cs) = depth m nest cs := by
  rw [depth, if_neg m.opens_ne_close, if_pos rfl]

theorem depth_plain (hclose : c ≠ m.close) (hopens : m.opens ≠ some c) :
    depth m nest (c :: cs) = depth m nest cs := by
  rw [depth.eq_def]
  simp only [if_neg hopens, if_neg hclose]

omit [DecidableEq α] in
theorem noEscape_nil : NoEscape m [] where
  followed _ _ h := nomatch List.infix_nil.mp h
  last h := nomatch h

omit [DecidableEq α] in
/-- A character that is not the escape character changes nothing. -/
theorem noEscape_cons (hc : c ≠ m.esc) : NoEscape m (c :: cs) ↔ NoEscape m cs := by
  have hlast : (c :: cs).getLast? ≠ some m.esc ↔ cs.getLast? ≠ some m.esc := by
    cases cs with
    | nil => simp [hc]
    | cons c' cs' => rw [List.getLast?_cons_cons]
  have hinner : ∀ c', [m.esc, c'] <:+: c :: cs ↔ [m.esc, c'] <:+: cs := by
    intro c'
    rw [List.infix_cons_iff, or_iff_right]
    intro hprefix
    exact hc (List.cons_prefix_cons.mp hprefix).1.symm
  constructor
  · rintro ⟨hfollowed, h⟩
    exact ⟨fun c' hc' hin => hfollowed c' hc' ((hinner c').mpr hin), hlast.mp h⟩
  · rintro ⟨hfollowed, h⟩
    exact ⟨fun c' hc' hin => hfollowed c' hc' ((hinner c').mp hin), hlast.mpr h⟩

omit [DecidableEq α] in
theorem noEscape_esc : NoEscape m (m.esc :: c :: cs) ↔ ¬ m.Special c ∧ NoEscape m (c :: cs) := by
  have hinner : ∀ c', [m.esc, c'] <:+: m.esc :: c :: cs ↔ c' = c ∨ [m.esc, c'] <:+: c :: cs := by
    intro c'
    rw [List.infix_cons_iff, List.cons_prefix_cons, List.cons_prefix_cons]
    simp
  constructor
  · rintro ⟨hfollowed, hlast⟩
    rw [List.getLast?_cons_cons] at hlast
    refine ⟨fun hc => hfollowed c hc ((hinner c).mpr (Or.inl rfl)), fun c' hc' hin => ?_, hlast⟩
    exact hfollowed c' hc' ((hinner c').mpr (Or.inr hin))
  · rintro ⟨hc, hfollowed, hlast⟩
    refine ⟨fun c' hc' hin => ?_, by rw [List.getLast?_cons_cons]; exact hlast⟩
    rcases (hinner c').mp hin with rfl | hin
    · exact hc hc'
    · exact hfollowed c' hc' hin

theorem depth_of_verbatim (h : Verbatim m nest t) : depth m nest t = some 0 ∧ NoEscape m t := by
  induction h with
  | nil => exact ⟨rfl, noEscape_nil⟩
  | esc hc _ ih =>
    rw [depth_plain m.close_ne_esc.symm m.opens_ne_esc, noEscape_esc]
    exact ⟨ih.1, hc, ih.2⟩
  | opens hc _ ih =>
    rw [depth_opens hc, noEscape_cons fun h => m.opens_ne_esc (h ▸ hc)]
    exact ih
  | close _ ih =>
    rw [depth_close_succ, noEscape_cons m.close_ne_esc]
    exact ih
  | other hc _ ih =>
    obtain ⟨hesc, hclose, hopens⟩ : _ ∧ _ ∧ _ := by simpa only [Marks.Special, not_or] using hc
    rw [depth_plain hclose hopens, noEscape_cons hesc]
    exact ih

theorem verbatim_of_depth (hdepth : depth m nest t = some 0) (hescape : NoEscape m t) :
    Verbatim m nest t := by
  induction t generalizing nest with
  | nil =>
    obtain rfl := Option.some.inj hdepth
    exact .nil
  | cons c cs ih =>
    by_cases hesc : c = m.esc
    · subst hesc
      rw [depth_plain m.close_ne_esc.symm m.opens_ne_esc] at hdepth
      cases cs with
      | nil => exact absurd rfl hescape.last
      | cons c' cs' =>
        obtain ⟨hc', hescape⟩ := noEscape_esc.mp hescape
        exact .esc hc' (ih hdepth hescape)
    rw [noEscape_cons hesc] at hescape
    by_cases hopens : m.opens = some c
    · rw [depth_opens hopens] at hdepth
      exact .opens hopens (ih hdepth hescape)
    by_cases hclose : c = m.close
    · subst hclose
      cases nest with
      | zero =>
        rw [depth_close_zero] at hdepth
        cases hdepth
      | succ nest =>
        rw [depth_close_succ] at hdepth
        exact .close (ih hdepth hescape)
    · rw [depth_plain hclose hopens] at hdepth
      exact .other (not_or.mpr ⟨hesc, not_or.mpr ⟨hclose, hopens⟩⟩) (ih hdepth hescape)

/-- **The strings that are read as they stand** are balanced, and no escape
is taken away. -/
theorem verbatim_iff : Verbatim m nest t ↔ depth m nest t = some 0 ∧ NoEscape m t :=
  ⟨depth_of_verbatim, fun h => verbatim_of_depth h.1 h.2⟩

/-- Where nothing opens, nothing may close. -/
theorem balanced_iff_of_no_opens (h : m.opens = none) : Balanced m t ↔ m.close ∉ t := by
  unfold Balanced
  induction t with
  | nil => simp [depth]
  | cons c cs ih =>
    by_cases hclose : c = m.close
    · subst hclose
      simp [depth_close_zero]
    · rw [depth_plain hclose (by rw [h]; exact nofun), ih]
      simp [Ne.symm hclose]

/-! ## Texts with literals -/

/-- A kind of literal: what opens it, and its marks. -/
structure Literal (α : Type*) where
  first : α
  more : List α
  marks : Marks α

/-- What opens a literal. -/
def Literal.opening (k : Literal α) : List α := k.first :: k.more

/-- What a text is made of. -/
inductive Token (α : Type*)
  | code (c : α)
  | literal (content : List α)

/-- A text is read from its start: a literal where one is opened, and code
elsewhere. -/
inductive Lexes (k : Literal α) : List α → List (Token α) → Prop
  | nil : Lexes k [] []
  | code {c : α} {cs : List α} {ts : List (Token α)} (hc : ¬ k.opening <+: c :: cs)
    (h : Lexes k cs ts) : Lexes k (c :: cs) (.code c :: ts)
  | literal {text content rest : List α} {ts : List (Token α)}
    (hscan : scan k.marks 0 text = some (content, rest)) (h : Lexes k rest ts) :
    Lexes k (k.opening ++ text) (.literal content :: ts)

variable {k : Literal α} {ts : List (Token α)} {pre post : List α}

theorem exists_of_lexes_code (h : Lexes k text (.code c :: ts)) :
    ∃ cs, text = c :: cs ∧ Lexes k cs ts := by
  cases h with
  | code _ h => exact ⟨_, rfl, h⟩

/-- Code that does not begin as a literal does. -/
theorem lexes_codes (hpre : k.first ∉ pre) :
    Lexes k (pre ++ cs) (pre.map .code ++ ts) ↔ Lexes k cs ts := by
  induction pre with
  | nil => rfl
  | cons c pre ih =>
    obtain ⟨hc, hpre⟩ := not_or.mp (List.mem_cons.not.mp hpre)
    rw [← ih hpre]
    constructor
    · intro h
      obtain ⟨cs', heq, h⟩ := exists_of_lexes_code h
      obtain rfl := (List.cons.inj heq).2
      exact h
    · exact Lexes.code fun hprefix => hc (List.cons_prefix_cons.mp hprefix).1

theorem lexes_literal : Lexes k (k.opening ++ text) (.literal content :: ts) ↔
    ∃ rest, scan k.marks 0 text = some (content, rest) ∧ Lexes k rest ts := by
  constructor
  · intro h
    generalize htext : k.opening ++ text = text' at h
    cases h with
    | @literal text' _ rest _ hscan h =>
      obtain rfl := List.append_cancel_left htext
      exact ⟨rest, hscan, h⟩
  · rintro ⟨rest, hscan, h⟩
    exact .literal hscan h

/-- A text that is read as code alone is that code. -/
theorem eq_of_lexes_codes (h : Lexes k text (post.map .code)) : text = post := by
  induction post generalizing text with
  | nil => cases h; rfl
  | cons c post ih =>
    obtain ⟨cs, rfl, htail⟩ := exists_of_lexes_code h
    rw [ih htail]

/-- A literal that holds its string as it stands. -/
theorem lexes_verbatim (h : Verbatim k.marks 0 t) :
    Lexes k (k.opening ++ (t ++ k.marks.close :: rest)) (.literal t :: ts) ↔ Lexes k rest ts := by
  rw [lexes_literal, scan_of_verbatim h]
  simp

/-- **Exactly the strings that a literal in a text names**, and leaves the
code after it as it is. -/
theorem lexes_literal_iff (hpost : k.first ∉ post) :
    Lexes k (k.opening ++ (t ++ k.marks.close :: post)) (.literal t :: post.map .code) ↔
      Verbatim k.marks 0 t := by
  constructor
  · intro h
    obtain ⟨rest, hscan, h⟩ := lexes_literal.mp h
    obtain rfl := eq_of_lexes_codes h
    exact (scan_append_iff t rest).mp hscan
  · intro h
    rw [lexes_verbatim h]
    have hcodes := (lexes_codes hpost).mpr .nil
    rwa [List.append_nil, List.append_nil] at hcodes

end Quote

end Jubilee
