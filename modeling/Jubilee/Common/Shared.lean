import Mathlib.Logic.Function.Basic
import Jubilee.Common.Run
/-!
# Calls that prepare before they act

An object is called by several threads. Each call takes steps that
prepare it and then the one that acts, which is the one that answers, and
the others take theirs between. Where preparing is hidden from an abstract
object (`Hides`), the calls of every interleaving answer as the abstract
object does, called in the order in which they acted (`Hides.explained`).
-/

namespace Jubilee

variable {ι σ τ κ α : Type*}

/-- An object with calls `κ` and answers `α`. -/
structure Prepared (σ κ α : Type*) where
  /-- How often a call prepares. -/
  times : κ → ℕ
  times_pos : ∀ op, 0 < times op
  prepare : κ → σ → σ
  act : κ → σ → α × σ

/-- A turn of a thread: it calls, or takes the next step of its call. -/
inductive Turn (ι κ : Type*)
  | call (i : ι) (op : κ)
  | next (i : ι)

/-- The object, the calls in progress and how often they have to prepare,
and the calls that acted, with the threads and the answers. -/
structure Shared (ι σ κ α : Type*) where
  object : σ
  calls : ι → Option (κ × ℕ)
  log : List (ι × κ × α)

namespace Shared

/-- Nothing was called yet. -/
def start (object : σ) : Shared ι σ κ α := ⟨object, fun _ => none, []⟩

/-- The calls that acted. -/
def ops (s : Shared ι σ κ α) : List κ := s.log.map fun e => e.2.1

variable [DecidableEq ι] (P : Prepared σ κ α)

/-- One turn, if the thread can take it. -/
def step (s : Shared ι σ κ α) : Turn ι κ → Option (Shared ι σ κ α)
  | .call i op =>
    match s.calls i with
    | none => some { s with calls := Function.update s.calls i (some (op, P.times op)) }
    | some _ => none
  | .next i =>
    match s.calls i with
    | none => none
    | some (op, n + 1) =>
      some ⟨P.prepare op s.object, Function.update s.calls i (some (op, n)), s.log⟩
    | some (op, 0) =>
      let (answer, object) := P.act op s.object
      some ⟨object, Function.update s.calls i none, s.log ++ [(i, op, answer)]⟩

/-- An interleaving. -/
abbrev run (turns : List (Turn ι κ)) (s : Shared ι σ κ α) : Option (Shared ι σ κ α) :=
  Run.play (step P) turns s

/-- **What a turn does**: a call starts, or prepares once, or acts. -/
theorem step_cases {s s' : Shared ι σ κ α} {turn : Turn ι κ} (h : step P s turn = some s') :
    (∃ i op, s' = { s with calls := Function.update s.calls i (some (op, P.times op)) }) ∨
    (∃ i op n, s.calls i = some (op, n + 1) ∧
      s' = ⟨P.prepare op s.object, Function.update s.calls i (some (op, n)), s.log⟩) ∨
    ∃ i op, s.calls i = some (op, 0) ∧
      s' = ⟨(P.act op s.object).2, Function.update s.calls i none,
        s.log ++ [(i, op, (P.act op s.object).1)]⟩ := by
  cases turn with
  | call i op =>
    cases hcalls : s.calls i with
    | none =>
      simp only [step, hcalls, Option.some.injEq] at h
      exact Or.inl ⟨i, op, h.symm⟩
    | some call => simp [step, hcalls] at h
  | next i =>
    rcases hcalls : s.calls i with _ | ⟨op, _ | n⟩
    · simp [step, hcalls] at h
    · simp only [step, hcalls, Option.some.injEq] at h
      exact Or.inr (Or.inr ⟨i, op, hcalls, h.symm⟩)
    · simp only [step, hcalls, Option.some.injEq] at h
      exact Or.inr (Or.inl ⟨i, op, n, hcalls, h.symm⟩)

end Shared

/-! ## The abstract object -/

/-- The abstract object after calls. -/
def specAfter (spec : κ → τ → α × τ) (t : τ) (ops : List κ) : τ :=
  ops.foldl (fun t op => (spec op t).2) t

/-- The answers in a log are what the abstract object answers when it is
called in that order. -/
def Explained (spec : κ → τ → α × τ) (Same : κ → α → α → Prop) (t : τ)
    (log : List (ι × κ × α)) : Prop :=
  ∀ before i op answer after, log = before ++ (i, op, answer) :: after →
    Same op answer (spec op (specAfter spec t (before.map fun e => e.2.1))).1

section

variable {spec : κ → τ → α × τ} {Same : κ → α → α → Prop} {t : τ}

theorem specAfter_append (ops : List κ) (op : κ) :
    specAfter spec t (ops ++ [op]) = (spec op (specAfter spec t ops)).2 := by
  rw [specAfter, List.foldl_append]
  rfl

theorem explained_nil : Explained spec Same t ([] : List (ι × κ × α)) := by
  intro before i op answer after h
  exact absurd h (by simp)

/-- One more call is explained. -/
theorem Explained.append {log : List (ι × κ × α)} {i : ι} {op : κ} {answer : α}
    (h : Explained spec Same t log)
    (hanswer : Same op answer (spec op (specAfter spec t (log.map fun e => e.2.1))).1) :
    Explained spec Same t (log ++ [(i, op, answer)]) := by
  intro before i' op' answer' after heq
  rcases List.eq_nil_or_concat after with rfl | ⟨after, e, rfl⟩
  · -- the entry is the new one
    obtain ⟨rfl, hentry⟩ := List.append_inj' heq rfl
    obtain ⟨rfl, rfl, rfl⟩ : i = i' ∧ op = op' ∧ answer = answer' := by simpa using hentry
    exact hanswer
  · rw [List.concat_eq_append, ← List.cons_append, ← List.append_assoc] at heq
    have hlog : log = before ++ (i', op', answer') :: after := (List.append_inj' heq rfl).1
    exact h before i' op' answer' after hlog

/-- **Preparing cannot be seen**: an object stands for the abstract one,
preparing keeps that, and a call that was prepared acts as the abstract
object does, if it is one of the calls that `Allowed` names. -/
structure Hides (P : Prepared σ κ α) (spec : κ → τ → α × τ) (Same : κ → α → α → Prop)
    (Allowed : κ → Prop) where
  Stands : σ → τ → Prop
  /-- The call was prepared. -/
  Ready : κ → σ → Prop
  prepare : ∀ {s t op}, Stands s t → Stands (P.prepare op s) t
  ready : ∀ {s t op}, Stands s t → Ready op (P.prepare op s)
  ready_prepare : ∀ {s t op op'}, Stands s t → Ready op s → Ready op (P.prepare op' s)
  act : ∀ {s t op}, Stands s t → Ready op s → Allowed op →
    Same op (P.act op s).1 (spec op t).1 ∧ Stands (P.act op s).2 (spec op t).2
  ready_act : ∀ {s t op op'}, Stands s t → Ready op s → Ready op' s → Allowed op' →
    Ready op (P.act op' s).2

namespace Hides

variable [DecidableEq ι] {P : Prepared σ κ α} {Allowed : κ → Prop}

/-- What every turn keeps: the object stands for the abstract one after
the calls that acted, these are explained, and what began to prepare is
prepared. -/
structure Inv (H : Hides P spec Same Allowed) (t : τ) (s : Shared ι σ κ α) : Prop where
  stands : H.Stands s.object (specAfter spec t s.ops)
  explained : Explained spec Same t s.log
  ready : ∀ i op n, s.calls i = some (op, n) → n < P.times op → H.Ready op s.object

variable (H : Hides P spec Same Allowed) {s s' : Shared ι σ κ α}

/-- **One turn.** -/
theorem inv_step {turn : Turn ι κ} (h : H.Inv t s) (hstep : s.step P turn = some s')
    (hallowed : ∀ op ∈ s'.ops, Allowed op) : H.Inv t s' := by
  rcases Shared.step_cases P hstep with
    ⟨i, op, rfl⟩ | ⟨i, op, n, hcalls, rfl⟩ | ⟨i, op, hcalls, rfl⟩
  · refine ⟨h.stands, h.explained, fun j op' n hj hn => ?_⟩
    by_cases hji : j = i
    · -- the call that starts has to prepare first
      subst hji
      obtain ⟨rfl, rfl⟩ : op = op' ∧ P.times op = n := by simpa using hj
      exact absurd hn (Nat.lt_irrefl _)
    · exact h.ready j op' n (by simpa [Function.update_of_ne hji] using hj) hn
  · refine ⟨H.prepare h.stands, h.explained, fun j op' n' hj hn => ?_⟩
    by_cases hji : j = i
    · -- the call that prepares is prepared from now on
      subst hji
      obtain ⟨rfl, rfl⟩ : op = op' ∧ n = n' := by simpa using hj
      exact H.ready h.stands
    · exact H.ready_prepare h.stands
        (h.ready j op' n' (by simpa [Function.update_of_ne hji] using hj) hn)
  · -- the call that acts has prepared at least once
    have hready := h.ready i op 0 hcalls (P.times_pos op)
    have hop : Allowed op := hallowed op (by simp [Shared.ops])
    obtain ⟨hsame, hstands⟩ := H.act h.stands hready hop
    refine ⟨?_, h.explained.append hsame, fun j op' n hj hn => ?_⟩
    · have hops : Shared.ops ⟨(P.act op s.object).2, Function.update s.calls i none,
          s.log ++ [(i, op, (P.act op s.object).1)]⟩ = s.ops ++ [op] := by simp [Shared.ops]
      rw [hops, specAfter_append]
      exact hstands
    · by_cases hji : j = i
      · subst hji
        simp at hj
      · exact H.ready_act h.stands
          (h.ready j op' n (by simpa [Function.update_of_ne hji] using hj) hn) hready hop

/-- The calls that acted stay in the log. -/
theorem ops_step {turn : Turn ι κ} (hstep : s.step P turn = some s') : s.ops ⊆ s'.ops := by
  rcases Shared.step_cases P hstep with ⟨i, op, rfl⟩ | ⟨i, op, n, -, rfl⟩ | ⟨i, op, -, rfl⟩
  · exact List.Subset.refl _
  · exact List.Subset.refl _
  · simp [Shared.ops]

theorem ops_run {turns : List (Turn ι κ)} (hrun : s.run P turns = some s') : s.ops ⊆ s'.ops :=
  Run.preserves (I := fun s₁ => s.ops ⊆ s₁.ops)
    (fun _ _ _ h hstep => List.Subset.trans h (ops_step hstep)) (List.Subset.refl _) hrun

/-- **Every interleaving is explained** by the order in which its calls
acted, if all of them are allowed. -/
theorem explained {object : σ} {turns : List (Turn ι κ)} (hstands : H.Stands object t)
    (hrun : (Shared.start object).run P turns = some s') (hallowed : ∀ op ∈ s'.ops, Allowed op) :
    Explained spec Same t s'.log := by
  have hstart : H.Inv t (Shared.start object : Shared ι σ κ α) :=
    ⟨hstands, explained_nil, fun i op n hi => by simp [Shared.start] at hi⟩
  have hinv : ∀ turns s, H.Inv t s → s.run P turns = some s' → H.Inv t s' := by
    intro turns
    induction turns with
    | nil =>
      intro s hs hrun
      obtain rfl := Option.some.inj hrun
      exact hs
    | cons turn turns ih =>
      intro s hs hrun
      obtain ⟨s₁, hstep, hrun⟩ := Run.play_cons_cases hrun
      exact ih s₁ (H.inv_step hs hstep fun op hop => hallowed op (ops_run hrun hop)) hrun
  exact (hinv turns _ hstart hrun).explained

end Hides

end

end Jubilee
