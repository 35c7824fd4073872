import Jubilee.Common.Noted
/-!
# Calls in order

An object takes its calls in some orders only. A typestate says which: in
each phase, which calls it takes and the phase they lead to. Where an
action notes the calls it makes, `Keeps` says that they are in order from
a phase on, and what holds of the result and the phase they lead to.
There is one rule for each way in which actions are put together.
-/

namespace Jubilee

universe u v w

variable {φ γ : Type*}

/-- The phase that a call leads to, where it is taken. -/
abbrev Typestate (φ γ : Type*) := φ → γ → Option φ

/-- The phase that calls lead to, where all are taken. -/
def Typestate.after (T : Typestate φ γ) : φ → List γ → Option φ
  | p, [] => some p
  | p, c :: cs => (T p c).bind fun q => after T q cs

theorem Typestate.after_append (T : Typestate φ γ) (p : φ) (cs cs' : List γ) :
    T.after p (cs ++ cs') = (T.after p cs).bind fun q => T.after q cs' := by
  induction cs generalizing p with
  | nil => rfl
  | cons c cs ih =>
    rw [List.cons_append, after, after, Option.bind_assoc]
    exact congrArg _ (funext fun q => ih q)

namespace Act

variable {σ : Type v} {ε α β : Type u} {γ : Type w} {notes : σ → List γ} {T : Typestate φ γ}

/-- **The calls an action notes are in order** from a phase on, and the
result and the phase it leads to are as `Q` says. -/
def Keeps (notes : σ → List γ) (T : Typestate φ γ) (p : φ) (x : Act σ ε α)
    (Q : Except ε α → φ → Prop) : Prop :=
  ∀ s, ∃ cs q, notes (x s).2 = notes s ++ cs ∧ T.after p cs = some q ∧ Q (x s).1 q

/-- What follows an action: the next one, or an exception. -/
def Follow (K : α → φ → Prop) (Q : Except ε β → φ → Prop) : Except ε α → φ → Prop
  | .ok a, q => K a q
  | .error e, q => Q (.error e) q

variable {p : φ} {x : Act σ ε α} {Q Q' : Except ε α → φ → Prop}

theorem Keeps.mono (h : Keeps notes T p x Q) (hQ : ∀ r q, Q r q → Q' r q) :
    Keeps notes T p x Q' := by
  intro s
  obtain ⟨cs, q, hnotes, hafter, hr⟩ := h s
  exact ⟨cs, q, hnotes, hafter, hQ _ _ hr⟩

theorem Keeps.pure {a : α} (h : Q (.ok a) p) : Keeps notes T p (Pure.pure a : Act σ ε α) Q :=
  fun _ => ⟨[], p, (List.append_nil _).symm, rfl, h⟩

theorem Keeps.raise {e : ε} (h : Q (.error e) p) : Keeps notes T p (Act.raise e) Q :=
  fun _ => ⟨[], p, (List.append_nil _).symm, rfl, h⟩

/-- **The rule of a sequence.** -/
theorem Keeps.bind {f : α → Act σ ε β} {Q : Except ε β → φ → Prop}
    (h : Keeps notes T p x (Follow (fun a q => Keeps notes T q (f a) Q) Q)) :
    Keeps notes T p (x >>= f) Q := by
  intro s
  obtain ⟨cs, q, hnotes, hafter, hr⟩ := h s
  rcases hx : x s with ⟨e | a, s'⟩
  · rw [hx] at hnotes hr
    rw [bind_of_error hx]
    exact ⟨cs, q, hnotes, hafter, hr⟩
  · -- the second action goes on from the phase that the first led to
    rw [hx] at hnotes hr
    rw [bind_of_ok hx]
    obtain ⟨cs', q', hnotes', hafter', hr'⟩ := hr s'
    refine ⟨cs ++ cs', q', ?_, ?_, hr'⟩
    · rw [hnotes', hnotes, List.append_assoc]
    · rw [Typestate.after_append, hafter]
      exact hafter'

/-- The same, where the first action leads to one of the phases `I`. -/
theorem Keeps.bind_of {f : α → Act σ ε β} {Q : Except ε β → φ → Prop} {I : φ → Prop}
    (h : Keeps notes T p x fun _ q => I q) (hf : ∀ a q, I q → Keeps notes T q (f a) Q)
    (he : ∀ e q, I q → Q (.error e) q) : Keeps notes T p (x >>= f) Q := by
  refine .bind (h.mono fun r q hq => ?_)
  cases r with
  | ok a => exact hf a q hq
  | error e => exact he e q hq

/-- **The rule of a loop over a list**: each turn starts and ends in one of
the phases `I`. -/
theorem Keeps.forM {as : List β} {f : β → Act σ ε PUnit} {I : φ → Prop} (hp : I p)
    (h : ∀ a ∈ as, ∀ q, I q → Keeps notes T q (f a) fun _ q => I q) :
    Keeps notes T p (as.forM f) fun _ q => I q := by
  induction as generalizing p with
  | nil => exact .pure hp
  | cons a as ih =>
    obtain ⟨hhead, htail⟩ := List.forall_mem_cons.mp h
    exact (hhead p hp).bind_of (fun _ q hq => ih hq htail) fun _ q hq => hq

/-- A call that is noted, and may raise. -/
theorem Keeps.noting {σ : Type v} {c : γ} {q : φ} {x : Act σ ε α} (hc : T p c = some q)
    (h : ∀ r, Q r q) : Keeps Prod.snd T p (Act.noting c x) Q := by
  intro s
  refine ⟨[c], q, rfl, ?_, h _⟩
  rw [Typestate.after, hc, Option.bind_some, Typestate.after]

end Act

end Jubilee
