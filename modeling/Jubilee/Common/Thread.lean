import Mathlib.Data.Option.Basic
import Mathlib.Tactic.Common
/-!
# One thread, and the steps other parties take between its own

A `Thread` runs on a shared state one atomic step at a time, over control
points of its own. Other parties change the shared state between two of
its steps, through an environment that says which of their steps are
possible when. A list of moves is an interleaving, and `play` runs it.

The rule is the proof outline: an assertion at every control point,
which the environment cannot falsify and each step of the thread carries
to the next. `Outline.play` makes it a fact about every interleaving. An
outline may answer for the guarded steps only; what a run then owes is
that it took no other (`Thread.taken`).
-/

namespace Jubilee

variable {σ κ κ' α β ε : Type*}

/-- Where a step leaves a thread: at a control point, or finished. -/
inductive Next (κ α : Type*)
  | goto (k : κ)
  | done (a : α)
  deriving DecidableEq

/-- A thread: what one atomic step does at each control point. -/
structure Thread (σ κ α : Type*) where
  step : κ → σ → Next κ α × σ

/-- One move of an interleaving. -/
inductive Move (ε : Type*)
  /-- The thread takes a step. -/
  | own
  /-- The environment takes step `e`. -/
  | env (e : ε)
  deriving DecidableEq

namespace Thread

variable (T : Thread σ κ α) (env : ε → σ → Option σ)

/-- The outcome of a move, if it is possible. -/
def move : Move ε → Next κ α × σ → Option (Next κ α × σ)
  | .own, (.goto k, s) => some (T.step k s)
  | .own, (.done _, _) => none
  | .env e, (n, s) => (env e s).map fun s' => (n, s')

/-- The outcome of an interleaving, if each move of it is possible. -/
def play : List (Move ε) → Next κ α × σ → Option (Next κ α × σ)
  | [], c => some c
  | m :: ms, c => (T.move env m c).bind (play ms)

/-- The control points and states at which an interleaving has the thread
take a step. -/
def taken : List (Move ε) → Next κ α × σ → List (κ × σ)
  | [], _ => []
  | .own :: ms, (.goto k, s) => (k, s) :: taken ms (T.step k s)
  | .own :: _, (.done _, _) => []
  | .env e :: ms, (n, s) =>
    match env e s with
    | some s' => taken ms (n, s')
    | none => []

variable {T env}

/-- An interleaving goes on from where another left the thread. -/
theorem play_append {ms ms' : List (Move ε)} {c : Next κ α × σ} :
    T.play env (ms ++ ms') c = (T.play env ms c).bind (T.play env ms') := by
  induction ms generalizing c with
  | nil => rfl
  | cons m ms ih =>
    rw [List.cons_append, play, play, Option.bind_assoc]
    exact congrArg _ (funext fun _ => ih)

/-- **The first move of an interleaving**: a step of the thread, which is
taken, or a step of the environment. -/
theorem play_cons_cases {m : Move ε} {ms : List (Move ε)} {c c' : Next κ α × σ}
    (h : T.play env (m :: ms) c = some c') :
    (∃ k s, c = (.goto k, s) ∧ T.play env ms (T.step k s) = some c' ∧
      T.taken env (m :: ms) c = (k, s) :: T.taken env ms (T.step k s)) ∨
    ∃ e n s s₁, c = (n, s) ∧ env e s = some s₁ ∧ T.play env ms (n, s₁) = some c' ∧
      T.taken env (m :: ms) c = T.taken env ms (n, s₁) := by
  obtain ⟨n, s⟩ := c
  obtain ⟨c₁, hmove, hrest⟩ := Option.bind_eq_some_iff.mp h
  cases m with
  | own =>
    cases n with
    | goto k =>
      obtain rfl := Option.some.inj hmove
      exact Or.inl ⟨k, s, rfl, hrest, rfl⟩
    | done a => cases hmove
  | env e =>
    obtain ⟨s₁, he, rfl⟩ := Option.map_eq_some_iff.mp hmove
    exact Or.inr ⟨e, n, s, s₁, rfl, he, hrest, by simp only [taken, he]⟩

/-- **A run passes through every step it takes**: from there on it is a
run of its own. -/
theorem exists_play_of_mem_taken {ms : List (Move ε)} {c c' : Next κ α × σ} {k : κ} {s : σ}
    (h : T.play env ms c = some c') (hm : (k, s) ∈ T.taken env ms c) :
    ∃ ms', T.play env ms' (T.step k s) = some c' := by
  induction ms generalizing c with
  | nil => simp [taken] at hm
  | cons m ms ih =>
    obtain ⟨k₀, s₀, rfl, hrest, htaken⟩ | ⟨e, n, s₀, s₁, rfl, -, hrest, htaken⟩ :=
      play_cons_cases h
    · rw [htaken, List.mem_cons] at hm
      rcases hm with heq | hm
      · obtain ⟨rfl, rfl⟩ := Prod.mk.inj heq
        exact ⟨ms, hrest⟩
      · exact ih hrest hm
    · rw [htaken] at hm
      exact ih hrest hm

end Thread

/-! ## Proof outlines -/

/-- The assertions that a configuration is to meet: one for each control
point, and one for the end. -/
def Meets (holds : κ → σ → Prop) (post : α → σ → Prop) : Next κ α × σ → Prop
  | (.goto k, s) => holds k s
  | (.done a, s) => post a s

/-- Less may be asserted. -/
theorem Meets.mono {holds holds' : κ → σ → Prop} {post post' : α → σ → Prop} {c : Next κ α × σ}
    (h : Meets holds post c) (hholds : ∀ k s, holds k s → holds' k s)
    (hpost : ∀ a s, post a s → post' a s) : Meets holds' post' c := by
  obtain ⟨k | a, s⟩ := c
  · exact hholds k s h
  · exact hpost a s h

/-- An assertion at every control point and one at the end, kept by the
environment and by every guarded step. -/
structure Outline (T : Thread σ κ α) (env : ε → σ → Option σ) (guard : κ → σ → Prop) where
  holds : κ → σ → Prop
  post : α → σ → Prop
  holds_env : ∀ {k s e s'}, holds k s → env e s = some s' → holds k s'
  post_env : ∀ {a s e s'}, post a s → env e s = some s' → post a s'
  step : ∀ {k s}, holds k s → guard k s → Meets holds post (T.step k s)

namespace Outline

variable {T : Thread σ κ α} {env : ε → σ → Option σ} {guard : κ → σ → Prop}

/-- What an outline says of a configuration. -/
def Met (O : Outline T env guard) : Next κ α × σ → Prop := Meets O.holds O.post

/-- A step of the environment keeps the outline. -/
theorem met_env (O : Outline T env guard) {n : Next κ α} {s s' : σ} {e : ε} (h : O.Met (n, s))
    (he : env e s = some s') : O.Met (n, s') := by
  cases n with
  | goto k => exact O.holds_env h he
  | done a => exact O.post_env h he

/-- **The outline holds along every interleaving** whose own steps are
all guarded. -/
theorem play (O : Outline T env guard) {ms : List (Move ε)} {c c' : Next κ α × σ}
    (hc : O.Met c) (h : T.play env ms c = some c')
    (hg : ∀ v ∈ T.taken env ms c, guard v.1 v.2) : O.Met c' := by
  induction ms generalizing c with
  | nil =>
    obtain rfl := Option.some.inj h
    exact hc
  | cons m ms ih =>
    obtain ⟨k, s, rfl, hrest, htaken⟩ | ⟨e, n, s, s₁, rfl, he, hrest, htaken⟩ :=
      Thread.play_cons_cases h
    · rw [htaken, List.forall_mem_cons] at hg
      exact ih (O.step hc hg.1) hrest hg.2
    · rw [htaken] at hg
      exact ih (O.met_env hc he) hrest hg

/-- **The first unguarded step.** An interleaving takes guarded steps only,
and the outline holds at its end; or the outline holds up to a step that
is not guarded, and the rest is an interleaving from there. -/
theorem first_unguarded (O : Outline T env guard) {ms : List (Move ε)} {c c' : Next κ α × σ}
    (hc : O.Met c) (h : T.play env ms c = some c') :
    (∀ v ∈ T.taken env ms c, guard v.1 v.2) ∧ O.Met c' ∨
      ∃ k s, (k, s) ∈ T.taken env ms c ∧ ¬ guard k s ∧ O.holds k s ∧
        ∃ ms', T.play env ms' (T.step k s) = some c' := by
  induction ms generalizing c with
  | nil =>
    obtain rfl := Option.some.inj h
    exact Or.inl ⟨fun v hv => (nomatch hv), hc⟩
  | cons m ms ih =>
    obtain ⟨k, s, rfl, hrest, htaken⟩ | ⟨e, n, s, s₁, rfl, he, hrest, htaken⟩ :=
      Thread.play_cons_cases h
    · rw [htaken]
      by_cases hg : guard k s
      · obtain ⟨hguarded, hmet⟩ | ⟨k', s', hmem, hlater⟩ := ih (O.step hc hg) hrest
        · exact Or.inl ⟨List.forall_mem_cons.mpr ⟨hg, hguarded⟩, hmet⟩
        · exact Or.inr ⟨k', s', List.mem_cons_of_mem _ hmem, hlater⟩
      · exact Or.inr ⟨k, s, List.mem_cons_self, hg, hc, ms, hrest⟩
    · rw [htaken]
      exact ih (O.met_env hc he) hrest

/-- The outline holds at every step an interleaving takes. -/
theorem holds_of_mem_taken (O : Outline T env guard) {ms : List (Move ε)} {c : Next κ α × σ}
    (hc : O.Met c) (hg : ∀ v ∈ T.taken env ms c, guard v.1 v.2) {v : κ × σ}
    (hv : v ∈ T.taken env ms c) : O.holds v.1 v.2 := by
  induction ms generalizing c with
  | nil => simp [Thread.taken] at hv
  | cons m ms ih =>
    obtain ⟨n, s⟩ := c
    cases m with
    | own =>
      cases n with
      | goto k =>
        simp only [Thread.taken, List.mem_cons, forall_eq_or_imp] at hg hv
        rcases hv with rfl | hv
        · exact hc
        · exact ih (O.step hc hg.1) hg.2 hv
      | done a => simp [Thread.taken] at hv
    | env e =>
      cases he : env e s with
      | none => simp [Thread.taken, he] at hv
      | some s₁ =>
        simp only [Thread.taken, he] at hg hv
        exact ih (O.met_env hc he) hg hv

end Outline

/-! ## Calling one thread from another -/

/-- A step of a called thread, at the caller's control points: `into`
embeds the callee's, and `ret` says where the caller goes with a result. -/
def Thread.call (T : Thread σ κ α) (into : κ → κ') (ret : α → Next κ' β) (k : κ) (s : σ) :
    Next κ' β × σ :=
  match T.step k s with
  | (.goto k', s') => (.goto (into k'), s')
  | (.done a, s') => (ret a, s')

/-- What the caller makes of where the callee's step leads. -/
theorem Meets.call {T : Thread σ κ α} {holds : κ → σ → Prop} {post : α → σ → Prop} {into : κ → κ'}
    {ret : α → Next κ' β} {k : κ} {s : σ} (h : Meets holds post (T.step k s))
    {P : Next κ' β × σ → Prop} (hgoto : ∀ k' s', holds k' s' → P (.goto (into k'), s'))
    (hdone : ∀ a s', post a s' → P (ret a, s')) : P (T.call into ret k s) := by
  unfold Thread.call
  rcases hT : T.step k s with ⟨k' | a, s'⟩
  · rw [hT] at h; exact hgoto k' s' h
  · rw [hT] at h; exact hdone a s' h

/-- **The rule of a call.** What the callee's outline asserts, and what
the caller makes of a result, is what the step leaves. -/
theorem Outline.call {T : Thread σ κ α} {env : ε → σ → Option σ} {guard : κ → σ → Prop}
    (O : Outline T env guard) {into : κ → κ'} {ret : α → Next κ' β} {k : κ} {s : σ}
    (h : O.holds k s) (hg : guard k s) {P : Next κ' β × σ → Prop}
    (hgoto : ∀ k' s', O.holds k' s' → P (.goto (into k'), s'))
    (hdone : ∀ a s', O.post a s' → P (ret a, s')) : P (T.call into ret k s) :=
  (O.step h hg).call hgoto hdone

/-! ## One thread seen as another -/

/-- The same place, by other names. -/
def Next.map (f : κ → κ') (g : α → β) : Next κ α → Next κ' β
  | .goto k => .goto (f k)
  | .done a => .done (g a)

/-- **The rule of a view.** A thread whose every step is one of another
thread, seen by other names, plays as the other does. -/
theorem Thread.play_map {T : Thread σ κ α} {T' : Thread σ κ' β} {env : ε → σ → Option σ}
    {f : κ → κ'} {g : α → β}
    (hstep : ∀ k s, T'.step (f k) s = ((T.step k s).1.map f g, (T.step k s).2))
    (ms : List (Move ε)) (c : Next κ α × σ) :
    T'.play env ms (c.1.map f g, c.2) =
      (T.play env ms c).map fun c' => (c'.1.map f g, c'.2) := by
  induction ms generalizing c with
  | nil => rfl
  | cons m ms ih =>
    obtain ⟨n, s⟩ := c
    cases m with
    | own =>
      cases n with
      | goto k =>
        change T'.play env ms (T'.step (f k) s) = _
        rw [hstep, ih]
        rfl
      | done a => rfl
    | env e =>
      cases he : env e s with
      | none => simp [play, move, he]
      | some s' =>
        simp only [play, move, he, Option.map_some, Option.bind_some]
        exact ih (n, s')

/-! ## Runs of the thread alone -/

/-- Taking guarded steps only, and none of the environment's, the thread
finishes in a result and a state that `Q` allows. -/
inductive Thread.Ends (T : Thread σ κ α) (guard : κ → σ → Prop) (Q : α → σ → Prop) :
    Next κ α × σ → Prop
  | done {a : α} {s : σ} : Q a s → T.Ends guard Q (.done a, s)
  | step {k : κ} {s : σ} : guard k s → T.Ends guard Q (T.step k s) → T.Ends guard Q (.goto k, s)

namespace Thread

variable {T : Thread σ κ α} {guard : κ → σ → Prop} {Q : α → σ → Prop}

/-- A thread that ends plays to its end by steps of its own. -/
theorem Ends.exists_play (env : ε → σ → Option σ) {c : Next κ α × σ} (h : T.Ends guard Q c) :
    ∃ n a s, T.play env (List.replicate n .own) c = some (.done a, s) ∧ Q a s ∧
      ∀ v ∈ T.taken env (List.replicate n .own) c, guard v.1 v.2 := by
  induction h with
  | @done a s hQ => exact ⟨0, a, s, rfl, hQ, by simp [taken]⟩
  | @step k s hg _ ih =>
    obtain ⟨n, a, s', hplay, hQ, hguard⟩ := ih
    refine ⟨n + 1, a, s', ?_, hQ, ?_⟩
    · simpa [List.replicate_succ, play, move] using hplay
    · simp only [List.replicate_succ, taken, List.mem_cons, forall_eq_or_imp]
      exact ⟨hg, hguard⟩

/-- **The rule of a call, for a thread that ends**: the callee ends, and
the caller ends from every result the callee may leave. -/
theorem Ends.call {T' : Thread σ κ' β} {guard' : κ' → σ → Prop} {Q' : β → σ → Prop}
    (into : κ → κ') {ret : α → Next κ' β}
    (hstep : ∀ k s, T'.step (into k) s = T.call into ret k s)
    (hguard : ∀ k s, guard k s → guard' (into k) s)
    (hret : ∀ a s, Q a s → T'.Ends guard' Q' (ret a, s)) {k : κ} {s : σ}
    (h : T.Ends guard Q (.goto k, s)) : T'.Ends guard' Q' (.goto (into k), s) := by
  have key : ∀ c : Next κ α × σ, T.Ends guard Q c →
      T'.Ends guard' Q'
        (match c with
        | (.goto k, s) => (.goto (into k), s)
        | (.done a, s) => (ret a, s)) := by
    intro c hc
    induction hc with
    | done hQ => exact hret _ _ hQ
    | @step k s hg _ ih =>
      refine .step (hguard k s hg) ?_
      rw [hstep, Thread.call]
      rcases hT : T.step k s with ⟨k' | a, s'⟩
      · rw [hT] at ih; exact ih
      · rw [hT] at ih; exact ih
  exact key _ h

/-- Less may be asked of the steps, and said of the end. -/
theorem Ends.mono {guard' : κ → σ → Prop} {Q' : α → σ → Prop} {c : Next κ α × σ}
    (h : T.Ends guard Q c) (hg : ∀ k s, guard k s → guard' k s) (hQ : ∀ a s, Q a s → Q' a s) :
    T.Ends guard' Q' c := by
  induction h with
  | done hq => exact .done (hQ _ _ hq)
  | step hgk _ ih => exact .step (hg _ _ hgk) ih

/-- What an outline says of the end holds of the end that is reached. -/
theorem Ends.and_post {env : ε → σ → Option σ} (O : Outline T env guard) {c : Next κ α × σ}
    (h : T.Ends guard Q c) (hc : O.Met c) :
    T.Ends guard (fun a s => Q a s ∧ O.post a s) c := by
  induction h with
  | done hQ => exact .done ⟨hQ, hc⟩
  | step hg _ ih => exact .step hg (ih (O.step hc hg))

end Thread

end Jubilee
