import Jubilee.Common.Relate
/-!
# Noting what an action calls

An action runs beside a list in which calls are noted. `Noted P l` relates
its state to that of the action itself: what was noted since `l` are all
`P`, and without the notes the states are the same. So one proof that two
actions are related says both what was called and that noting it changed
nothing.
-/

namespace Jubilee

namespace Act

universe u v w

variable {σ : Type v} {ε α : Type u} {γ : Type w}

/-- Note a call. It is noted when it is made, and may raise. -/
def noting (c : γ) (x : Act σ ε α) : Act (σ × List γ) ε α := fun s =>
  let (r, t) := x s.1
  (r, t, s.2 ++ [c])

/-- Note nothing. -/
def silent (x : Act σ ε α) : Act (σ × List γ) ε α := fun s =>
  let (r, t) := x s.1
  (r, t, s.2)

/-- `ensure`: the second action follows the first whatever that did, and
what it raises takes the place of what the first one raised. -/
def ensure (x : Act σ ε α) (y : Act σ ε PUnit) : Act σ ε α := fun s =>
  match y (x s).2 with
  | (.ok _, s'') => ((x s).1, s'')
  | (.error e, s'') => (.error e, s'')

theorem ensure_of_ok {x : Act σ ε α} {y : Act σ ε PUnit} {s s'' : σ} {a : PUnit}
    (h : y (x s).2 = (.ok a, s'')) : ensure x y s = ((x s).1, s'') := by
  rw [ensure, h]

theorem ensure_of_error {x : Act σ ε α} {y : Act σ ε PUnit} {s s'' : σ} {e : ε}
    (h : y (x s).2 = (.error e, s'')) : ensure x y s = (.error e, s'') := by
  rw [ensure, h]

/-- The rule of `ensure`. -/
theorem Related.ensure {τ : Type*} {R : σ → τ → Prop} {β : Type u} {S : α → β → Prop}
    {x : Act σ ε α} {y : Act τ ε β} {x' : Act σ ε PUnit} {y' : Act τ ε PUnit}
    (h : Related R S x y) (h' : Related R Eq x' y') :
    Related R S (Act.ensure x x') (Act.ensure y y') := by
  intro s t hst
  obtain ⟨halike, hleft⟩ := h s t hst
  obtain ⟨halike', hleft'⟩ := h' _ _ hleft
  rcases hx : x' (x s).2 with ⟨r, s'⟩
  rcases hy : y' (y t).2 with ⟨r', t'⟩
  rw [hx, hy] at halike' hleft'
  cases halike' with
  | ok =>
    rw [ensure_of_ok hx, ensure_of_ok hy]
    exact ⟨halike, hleft'⟩
  | error e =>
    rw [ensure_of_error hx, ensure_of_error hy]
    exact ⟨.error e, hleft'⟩

/-- The state without its notes, all made since `l` being `P`. -/
structure Noted (P : γ → Prop) (l : List γ) (s : σ × List γ) (t : σ) : Prop where
  state : s.1 = t
  notes : ∃ cs, s.2 = l ++ cs ∧ ∀ c ∈ cs, P c

variable {P : γ → Prop} {l : List γ}

theorem Noted.start (P : γ → Prop) (s : σ × List γ) : Noted P s.2 s s.1 :=
  ⟨rfl, [], (List.append_nil _).symm, fun _ h => nomatch h⟩

theorem Related.silent (x : Act σ ε α) :
    Related (Noted P l) Eq (Act.silent x : Act (σ × List γ) ε α) x := by
  rintro ⟨s, notes⟩ t ⟨rfl, hnotes⟩
  exact ⟨alike_eq_iff.mpr rfl, rfl, hnotes⟩

/-- **What may be noted is noted.** -/
theorem Related.noting {c : γ} (hc : P c) (x : Act σ ε α) :
    Related (Noted P l) Eq (Act.noting c x) x := by
  rintro ⟨s, notes⟩ t ⟨rfl, cs, rfl, hP⟩
  refine ⟨alike_eq_iff.mpr rfl, rfl, cs ++ [c], List.append_assoc .., fun c' hc' => ?_⟩
  rcases List.mem_append.mp hc' with h | h
  · exact hP c' h
  · exact (List.mem_singleton.mp h) ▸ hc

end Act

end Jubilee
