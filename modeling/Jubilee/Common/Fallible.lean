import Mathlib.Tactic.Common
/-!
# Folds that may fail

A computation that may fail returns exactly if each part of it does
(`Fallible.bind_eq_ok`). A fold whose step may fail, where it returns,
goes along with one whose step does not, if one step does
(`Fallible.foldlM_related`).
-/

namespace Jubilee

namespace Fallible

universe u

variable {ε α β : Type u}

/-- **A sequence returns** exactly if both parts do. -/
theorem bind_eq_ok {x : Except ε α} {f : α → Except ε β} {b : β} :
    (x >>= f) = .ok b ↔ ∃ a, x = .ok a ∧ f a = .ok b := by
  constructor
  · intro h
    cases x with
    | error e => cases h
    | ok a => exact ⟨a, rfl, h⟩
  · rintro ⟨a, rfl, h⟩
    exact h

theorem pure_eq_ok {a b : α} : (pure a : Except ε α) = .ok b ↔ a = b :=
  ⟨Except.ok.inj, congrArg Except.ok⟩

/-- What is the same returns the same. -/
theorem ok_unique {x y : Except ε α} {a b : α} (hx : x = .ok a) (hy : y = .ok b) (h : y = x) :
    b = a := Except.ok.inj (hy.symm.trans (h.trans hx))

/-- The first step of a fold that returns does, and so do the others. -/
theorem foldlM_cons_eq_ok {γ : Type*} {f : β → γ → Except ε β} {c : γ} {cs : List γ} {b b' : β} :
    (c :: cs).foldlM f b = .ok b' ↔ ∃ b₁, f b c = .ok b₁ ∧ cs.foldlM f b₁ = .ok b' := by
  rw [List.foldlM_cons, bind_eq_ok]

/-- **What one step of two folds keeps between them, the folds keep.** It may
depend on what was folded so far, and the steps of the first may be several
at a time. -/
theorem foldlM_related {σ γ δ : Type*} {R : List α → σ → β → Prop} {f : σ → γ → σ}
    {g : β → δ → Except ε β} {left : α → List γ} {right : α → δ} {as done : List α}
    (hstep : ∀ done, ∀ a ∈ as, ∀ s b b', R done s b → g b (right a) = .ok b' →
      R (done ++ [a]) ((left a).foldl f s) b')
    {s : σ} {b b' : β} (hs : R done s b) (h : (as.map right).foldlM g b = .ok b') :
    R (done ++ as) ((as.flatMap left).foldl f s) b' := by
  induction as generalizing done s b with
  | nil =>
    obtain rfl := pure_eq_ok.mp h
    rw [List.append_nil]
    exact hs
  | cons a as ih =>
    obtain ⟨b₁, hb₁, h⟩ := foldlM_cons_eq_ok.mp h
    rw [List.append_cons, List.flatMap_cons, List.foldl_append]
    have hs₁ := hstep done a List.mem_cons_self s b b₁ hs hb₁
    exact ih (fun done a ha => hstep done a (List.mem_cons_of_mem _ ha)) hs₁ h

end Fallible

end Jubilee
