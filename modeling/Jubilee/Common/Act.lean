import Mathlib.Tactic.Common
/-!
# Actions on a state that may raise

An action changes a state and returns or raises; what it changed before
it raised stays changed. `bind_eq_ok` takes a sequence that returned
apart into the actions that did.
-/

namespace Jubilee

universe u v

/-- An action. -/
def Act (σ : Type v) (ε : Type u) (α : Type u) := σ → Except ε α × σ

namespace Act

variable {σ : Type v} {ε α β : Type u}

instance : Monad (Act σ ε) where
  pure a := fun s => (.ok a, s)
  bind x f := fun s =>
    match x s with
    | (.ok a, s') => f a s'
    | (.error e, s') => (.error e, s')

/-- Raise. -/
def raise (e : ε) : Act σ ε α := fun s => (.error e, s)

/-- Change the state. -/
def modify (f : σ → σ) : Act σ ε PUnit := fun s => (.ok ⟨⟩, f s)

theorem pure_eq_ok {a b : α} {s s' : σ} :
    (pure a : Act σ ε α) s = (.ok b, s') ↔ a = b ∧ s = s' := by
  change (Except.ok a, s) = _ ↔ _
  simp

theorem not_raise_eq_ok {e : ε} {a : α} {s s' : σ} :
    (raise e : Act σ ε α) s ≠ (.ok a, s') := by
  simp [raise]

/-- What follows an action that returned goes on from there. -/
theorem bind_of_ok {x : Act σ ε α} {f : α → Act σ ε β} {a : α} {s s' : σ}
    (h : x s = (.ok a, s')) : (x >>= f) s = f a s' := by
  change (match x s with
    | (.ok a, s') => f a s'
    | (.error e, s') => (.error e, s')) = _
  rw [h]

theorem bind_of_error {x : Act σ ε α} {f : α → Act σ ε β} {e : ε} {s s' : σ}
    (h : x s = (.error e, s')) : (x >>= f) s = (.error e, s') := by
  change (match x s with
    | (.ok a, s') => f a s'
    | (.error e, s') => (.error e, s')) = _
  rw [h]

theorem bind_pure (x : Act σ ε α) : x >>= pure = x := by
  funext s
  rcases hx : x s with ⟨e | a, s'⟩
  · rw [bind_of_error hx]
  · rw [bind_of_ok hx]
    rfl

theorem bind_assoc {γ : Type u} (x : Act σ ε α) (f : α → Act σ ε β) (g : β → Act σ ε γ) :
    x >>= f >>= g = x >>= fun a => f a >>= g := by
  funext s
  rcases hx : x s with ⟨e | a, s'⟩
  · rw [bind_of_error hx, bind_of_error (bind_of_error hx)]
  · rw [bind_of_ok hx]
    rcases hf : f a s' with ⟨e | b, s''⟩
    · rw [bind_of_error hf, bind_of_error ((bind_of_ok hx).trans hf)]
    · rw [bind_of_ok hf, bind_of_ok ((bind_of_ok hx).trans hf)]

/-- **A sequence that returned**: the first action returned, and then the
rest did. -/
theorem bind_eq_ok {x : Act σ ε α} {f : α → Act σ ε β} {b : β} {s s'' : σ} :
    (x >>= f) s = (.ok b, s'') ↔ ∃ a s', x s = (.ok a, s') ∧ f a s' = (.ok b, s'') := by
  constructor
  · intro h
    rcases hx : x s with ⟨e | a, s'⟩
    · change (match x s with
        | (.ok a, s') => f a s'
        | (.error e, s') => (.error e, s')) = _ at h
      rw [hx] at h
      simp at h
    · rw [bind_of_ok hx] at h
      exact ⟨a, s', rfl, h⟩
  · rintro ⟨a, s', hx, hf⟩
    rw [bind_of_ok hx]
    exact hf

end Act

end Jubilee
