import Mathlib.Tactic.Common
/-!
# Runs of a partial step

A step takes a state and an act, where the act is possible. A run is a
list of acts that are, each where the one before it left the state. What
every step keeps a run keeps (`Run.preserves`); and what, once lost, no
step brings back holds at the end of a run exactly if no step of the run
lost it (`Run.iff_taken`).
-/

namespace Jubilee

namespace Run

variable {σ α : Type*} (step : σ → α → Option σ)

/-- The outcome of a run, if each act of it is possible. -/
def play : List α → σ → Option σ
  | [], s => some s
  | a :: as, s => (step s a).bind (play as)

/-- The steps that are taken: the states, and the acts in them. -/
def taken : List α → σ → List (σ × α)
  | [], _ => []
  | a :: as, s =>
    (s, a) ::
      match step s a with
      | some s' => taken as s'
      | none => []

variable {step} {as : List α} {a : α} {s s₁ s' : σ}

theorem play_cons (h : step s a = some s₁) : play step (a :: as) s = play step as s₁ := by
  rw [play, h, Option.bind_some]

/-- A run goes on from where another left the state. -/
theorem play_append {bs : List α} (h : play step as s = some s₁) :
    play step (as ++ bs) s = play step bs s₁ := by
  induction as generalizing s with
  | nil =>
    obtain rfl := Option.some.inj h
    rfl
  | cons a as ih =>
    obtain ⟨s₂, ha, h⟩ := Option.bind_eq_some_iff.mp h
    rw [List.cons_append, play_cons ha, ih h]

theorem taken_cons (h : step s a = some s₁) :
    taken step (a :: as) s = (s, a) :: taken step as s₁ := by
  rw [taken, h]

/-- The first act of a run is possible, and the rest is a run. -/
theorem play_cons_cases (h : play step (a :: as) s = some s') :
    ∃ s₁, step s a = some s₁ ∧ play step as s₁ = some s' := Option.bind_eq_some_iff.mp h

/-- **What every step keeps, a run keeps.** -/
theorem preserves {I : σ → Prop} (hstep : ∀ s a s', I s → step s a = some s' → I s')
    (hs : I s) (h : play step as s = some s') : I s' := by
  induction as generalizing s with
  | nil =>
    obtain rfl := Option.some.inj h
    exact hs
  | cons a as ih =>
    obtain ⟨s₁, ha, h⟩ := play_cons_cases h
    exact ih (hstep s a s₁ hs ha) h

/-- What every step keeps holds wherever a run takes one. -/
theorem holds_of_mem_taken {I : σ → Prop} (hstep : ∀ s a s', I s → step s a = some s' → I s')
    (hs : I s) {v : σ × α} (hv : v ∈ taken step as s) : I v.1 := by
  induction as generalizing s with
  | nil => cases hv
  | cons a as ih =>
    rw [taken, List.mem_cons] at hv
    rcases hv with rfl | hv
    · exact hs
    · cases ha : step s a with
      | none =>
        rw [ha] at hv
        cases hv
      | some s₁ =>
        rw [ha] at hv
        exact ih (hstep s a s₁ hs ha) hv

/-- The acts that are taken are those of the run. -/
theorem mem_of_mem_taken {v : σ × α} (hv : v ∈ taken step as s) : v.2 ∈ as := by
  induction as generalizing s with
  | nil => cases hv
  | cons a as ih =>
    rw [taken, List.mem_cons] at hv
    rcases hv with rfl | hv
    · exact List.mem_cons_self
    · cases ha : step s a with
      | none =>
        rw [ha] at hv
        cases hv
      | some s₁ =>
        rw [ha] at hv
        exact List.mem_cons_of_mem _ (ih hv)

/-- What every step keeps that is not one of the bad ones, a run without bad
ones keeps. -/
theorem preserves_of_taken {I : σ → Prop} {B : σ → α → Prop}
    (hstep : ∀ s a s', I s → step s a = some s' → ¬ B s a → I s')
    (hs : I s) (h : play step as s = some s') (hbad : ∀ v ∈ taken step as s, ¬ B v.1 v.2) :
    I s' := by
  induction as generalizing s with
  | nil =>
    obtain rfl := Option.some.inj h
    exact hs
  | cons a as ih =>
    obtain ⟨s₁, ha, h⟩ := play_cons_cases h
    rw [taken_cons ha, List.forall_mem_cons] at hbad
    exact ih (hstep s a s₁ hs ha hbad.1) h hbad.2

/-- **What no step brings back.** Where a step that loses `P` loses it for
good, `P` holds at the end of a run exactly if no step of it did. -/
theorem iff_taken {I P : σ → Prop} {L : σ → α → Prop}
    (hinv : ∀ s a s', I s → step s a = some s' → I s')
    (hkeep : ∀ s a s', I s → P s → step s a = some s' → (P s' ↔ ¬ L s a))
    (hlost : ∀ s a s', I s → ¬ P s → step s a = some s' → ¬ P s')
    (hI : I s) (hP : P s) (h : play step as s = some s') :
    P s' ↔ ∀ v ∈ taken step as s, ¬ L v.1 v.2 := by
  have hgone : ∀ as s, I s → ¬ P s → play step as s = some s' → ¬ P s' := by
    intro as s hI hP h
    exact (preserves (I := fun s => I s ∧ ¬ P s)
      (fun s a s' hs ha => ⟨hinv s a s' hs.1 ha, hlost s a s' hs.1 hs.2 ha⟩) ⟨hI, hP⟩ h).2
  induction as generalizing s with
  | nil =>
    obtain rfl := Option.some.inj h
    exact iff_of_true hP fun v hv => nomatch hv
  | cons a as ih =>
    obtain ⟨s₁, ha, h⟩ := play_cons_cases h
    have hI₁ := hinv s a s₁ hI ha
    rw [taken_cons ha, List.forall_mem_cons]
    by_cases hP₁ : P s₁
    · exact (ih hI₁ hP₁ h).trans (and_iff_right ((hkeep s a s₁ hI hP ha).mp hP₁)).symm
    · refine iff_of_false (hgone as s₁ hI₁ hP₁ h) fun hall => hP₁ ?_
      exact (hkeep s a s₁ hI hP ha).mpr hall.1

end Run

end Jubilee
