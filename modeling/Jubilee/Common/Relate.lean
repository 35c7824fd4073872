import Jubilee.Common.Act
/-!
# Actions that do alike

Two actions are related when, from related states, both raise the same or
both return related results, and the states they leave are related. There
is one rule for each way in which actions are put together. The states
may be of two kinds, so one of the actions can be the other with more
noted about it.
-/

namespace Jubilee

namespace Act

universe u v w

variable {σ : Type v} {τ : Type w} {ε α α' β β' : Type u}

/-- Both raised the same, or both returned related results. -/
inductive Alike (S : α → β → Prop) : Except ε α → Except ε β → Prop
  | ok {a : α} {b : β} : S a b → Alike S (.ok a) (.ok b)
  | error (e : ε) : Alike S (.error e) (.error e)

theorem alike_eq_iff {r r' : Except ε α} : Alike Eq r r' ↔ r = r' := by
  constructor
  · rintro (⟨⟨⟩⟩ | e) <;> rfl
  · rintro rfl
    rcases r with e | a
    · exact .error e
    · exact .ok rfl

/-- The actions do alike. -/
def Related (R : σ → τ → Prop) (S : α → β → Prop) (x : Act σ ε α) (y : Act τ ε β) : Prop :=
  ∀ s t, R s t → Alike S (x s).1 (y t).1 ∧ R (x s).2 (y t).2

variable {R : σ → τ → Prop} {S : α → β → Prop} {S' : α' → β' → Prop}

theorem Related.pure {a : α} {b : β} (h : S a b) :
    Related R S (Pure.pure a : Act σ ε α) (Pure.pure b : Act τ ε β) :=
  fun _ _ hst => ⟨.ok h, hst⟩

theorem Related.raise (e : ε) : Related R S (Act.raise e) (Act.raise e) :=
  fun _ _ hst => ⟨.error e, hst⟩

theorem Related.modify {f : σ → σ} {g : τ → τ} (h : ∀ s t, R s t → R (f s) (g t)) :
    Related R Eq (Act.modify f : Act σ ε PUnit) (Act.modify g) :=
  fun s t hst => ⟨.ok rfl, h s t hst⟩

/-- **The rule of a sequence.** -/
theorem Related.bind {x : Act σ ε α} {y : Act τ ε β} {f : α → Act σ ε α'} {g : β → Act τ ε β'}
    (h : Related R S x y) (hf : ∀ a b, S a b → Related R S' (f a) (g b)) :
    Related R S' (x >>= f) (y >>= g) := by
  intro s t hst
  obtain ⟨halike, hleft⟩ := h s t hst
  rcases hx : x s with ⟨r, s'⟩
  rcases hy : y t with ⟨r', t'⟩
  rw [hx, hy] at halike hleft
  cases halike with
  | ok hab =>
    rw [bind_of_ok hx, bind_of_ok hy]
    exact hf _ _ hab s' t' hleft
  | error e =>
    rw [bind_of_error hx, bind_of_error hy]
    exact ⟨.error e, hleft⟩

/-- The rule of a sequence whose first action is one that both take. -/
theorem Related.bind_eq {x : Act σ ε α} {y : Act τ ε α} {f : α → Act σ ε α'}
    {g : α → Act τ ε β'} (h : Related R Eq x y) (hf : ∀ a, Related R S' (f a) (g a)) :
    Related R S' (x >>= f) (y >>= g) :=
  h.bind fun a _ hab => hab ▸ hf a

/-- **The rule of a loop over a list.** -/
theorem Related.forM {as : List β} {f : β → Act σ ε PUnit} {g : β → Act τ ε PUnit}
    (h : ∀ a ∈ as, Related R Eq (f a) (g a)) : Related R Eq (as.forM f) (as.forM g) := by
  induction as with
  | nil => exact .pure rfl
  | cons a as ih =>
    obtain ⟨hhead, htail⟩ := List.forall_mem_cons.mp h
    exact hhead.bind_eq fun _ => ih htail

end Act

end Jubilee
