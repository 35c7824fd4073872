import Jubilee.Common.Flag
import Jubilee.RackEnv.GetEnv
import Jubilee.RackEnv.Reads
/-!
# Rack env — the flag that requests share

Any number of requests go through one `RackEnvironment`, in any order:
each gets its env, calls methods of it, and is dispatched by what the
flag is then. `getEnv` sets the flag for all of them, and each true value
that one of them assigns to `rack.multithread` flips it for all of them.
So what a request reads depends on the others by a parity
(`dispatched_alone_iff`), and alone it depends on how often the request
assigned a true value, not on whether it assigned a false one
(`dispatched_iff`).
-/

namespace Jubilee

namespace RackEnv

variable {ι O : Type*} [DecidableEq ι] [DecidableEq O]

/-! ## Requests in progress -/

/-- What `getEnv` is given for a request. -/
structure Incoming (O : Type*) where
  request : HttpServerRequest
  input : O
  isSSL : Bool

/-- How far a request is. -/
inductive Stage (O : Type*)
  | arrived
  | serving (env : RackEnvironmentHash O)
  | failed
  | dispatched (multiThreaded : Bool)

/-- As far, with the same env; what the flag was may differ. -/
def Stage.Like (a b : Stage O) : Prop := a = b ∨ ∃ v w, a = .dispatched v ∧ b = .dispatched w

/-- The `RackEnvironment`, and the requests it serves. -/
structure Service (ι O : Type*) where
  rackEnv : RackEnvironment O
  stage : ι → Stage O

/-- What a request does next. -/
inductive Step (ι O : Type*)
  | getEnv (i : ι)
  | call (i : ι) (op : Op O)
  | isMutliThreaded (i : ι)

/-- The request whose step it is. -/
def Step.request : Step ι O → ι
  | .getEnv i | .call i _ | .isMutliThreaded i => i

/-- The call brings no `rack.multithread` in from another table. Whether
`RubyHash` goes through `op_aset` there is not this program's. -/
def Op.BringsNone : Op O → Prop
  | .whole (.mergeBang other _) | .whole (.replace other) | .whole (.initializeCopy other) =>
    ∀ key ∈ other, RackEnvironment.isMultiThreadedKey key = false
  | _ => True

instance (op : Op O) : Decidable op.BringsNone := by
  unfold Op.BringsNone
  split <;> infer_instance

namespace Service

/-- No request has its env yet. -/
def start (rackEnv : RackEnvironment O) : Service ι O := ⟨rackEnv, fun _ => .arrived⟩

/-- One step of a request, if it can take it. -/
def step (incoming : ι → Incoming O) (s : Service ι O) : Step ι O → Option (Service ι O)
  | .getEnv i =>
    match s.stage i with
    | .arrived =>
      match s.rackEnv.getEnv (incoming i).request (incoming i).input (incoming i).isSSL with
      | (.ok env, rackEnv) => some ⟨rackEnv, Function.update s.stage i (.serving env)⟩
      | (.error _, rackEnv) => some ⟨rackEnv, Function.update s.stage i .failed⟩
    | _ => none
  | .call i op =>
    match s.stage i with
    | .serving env =>
      if op.BringsNone then
        let ((_, env), rackEnv) := RackEnvironment.call op env s.rackEnv
        some ⟨rackEnv, Function.update s.stage i (.serving env)⟩
      else none
    | _ => none
  | .isMutliThreaded i =>
    match s.stage i with
    | .serving _ =>
      some ⟨s.rackEnv, Function.update s.stage i (.dispatched s.rackEnv.mutliThreaded)⟩
    | _ => none

/-- A run. -/
def run (incoming : ι → Incoming O) (s : Service ι O) (steps : List (Step ι O)) :
    Option (Service ι O) :=
  steps.foldlM (step incoming) s

/-! ## What a step does -/

/-- What a step sets and flips. -/
def flag (runtime : Ruby O) : Flag (Step ι O) where
  sets
    | .getEnv _ => true
    | _ => false
  flips
    | .call _ op => RackEnvironment.assignsTrue runtime op
    | _ => false
  not_flips_of_sets := by
    rintro (i | ⟨i, op⟩ | i) h
    · rfl
    · cases h
    · rfl

/-- What a step makes of its request. -/
def advance (incoming : ι → Incoming O) (rackEnv : RackEnvironment O) :
    Step ι O → Stage O → Option (Stage O)
  | .getEnv i, .arrived =>
    match (rackEnv.getEnv (incoming i).request (incoming i).input (incoming i).isSSL).1 with
    | .ok env => some (.serving env)
    | .error _ => some .failed
  | .call _ op, .serving env => if op.BringsNone then some (.serving (env.call op).2) else none
  | .isMutliThreaded _, .serving _ => some (.dispatched rackEnv.mutliThreaded)
  | _, _ => none

variable {incoming : ι → Incoming O} {s s' t : Service ι O} {st : Step ι O}
  {steps : List (Step ι O)} {i : ι}

/-- **A step** moves its own request on, and the flag of all. -/
theorem step_eq (incoming : ι → Incoming O) (s : Service ι O) (st : Step ι O) :
    step incoming s st = (advance incoming s.rackEnv st (s.stage st.request)).map fun stage =>
      ⟨s.rackEnv.setMutliThreaded ((flag s.rackEnv.runtime).step s.rackEnv.mutliThreaded st),
        Function.update s.stage st.request stage⟩ := by
  cases st with
  | getEnv i =>
    cases hstage : s.stage i with
    | arrived =>
      have hset := RackEnvironment.snd_getEnv (incoming i).request (incoming i).input
        (incoming i).isSSL s.rackEnv
      rw [Flag.step_of_sets _ rfl, ← hset]
      simp only [step, advance, Step.request, hstage]
      rcases RackEnvironment.getEnv (incoming i).request (incoming i).input
        (incoming i).isSSL s.rackEnv with ⟨e | env, rackEnv⟩ <;> rfl
    | serving env | failed | dispatched v => simp only [step, advance, Step.request, hstage]; rfl
  | call i op =>
    cases hstage : s.stage i with
    | serving env =>
      simp only [step, advance, Step.request, hstage]
      rw [Flag.step_of_not_sets _ rfl, RackEnvironment.call_eq]
      split <;> rfl
    | arrived | failed | dispatched v => simp only [step, advance, Step.request, hstage]; rfl
  | isMutliThreaded i =>
    cases hstage : s.stage i with
    | serving env =>
      rw [Flag.step_of_not_sets _ rfl]
      simp [step, advance, Step.request, hstage, flag, RackEnvironment.setMutliThreaded]
    | arrived | failed | dispatched v => simp only [step, advance, Step.request, hstage]; rfl

theorem step_eq_some :
    step incoming s st = some s' ↔
      ∃ stage, advance incoming s.rackEnv st (s.stage st.request) = some stage ∧
        s' = ⟨s.rackEnv.setMutliThreaded
            ((flag s.rackEnv.runtime).step s.rackEnv.mutliThreaded st),
          Function.update s.stage st.request stage⟩ := by
  rw [step_eq, Option.map_eq_some_iff]
  exact exists_congr fun stage => and_congr_right fun _ => eq_comm

theorem run_cons_eq_some :
    run incoming s (st :: steps) = some s' ↔
      ∃ s₁, step incoming s st = some s₁ ∧ run incoming s₁ steps = some s' := by
  rw [run, List.foldlM_cons]
  exact Option.bind_eq_some_iff

/-- **Over a run** the flag is what is done to it. -/
theorem rackEnv_run (h : run incoming s steps = some s') :
    s'.rackEnv = s.rackEnv.setMutliThreaded
      ((flag s.rackEnv.runtime).run s.rackEnv.mutliThreaded steps) := by
  induction steps generalizing s with
  | nil =>
    obtain rfl : s = s' := Option.some.inj h
    rfl
  | cons st steps ih =>
    obtain ⟨s₁, hst, hrun⟩ := run_cons_eq_some.mp h
    obtain ⟨stage, -, rfl⟩ := step_eq_some.mp hst
    exact ih hrun

/-! ## A request alone -/

/-- The steps of one request. -/
def own (i : ι) (steps : List (Step ι O)) : List (Step ι O) := steps.filter (·.request = i)

/-- A request alone in `t`, and with others in `s`. -/
structure Shadows (i : ι) (s t : Service ι O) : Prop where
  rackEnv : ∃ b, t.rackEnv = s.rackEnv.setMutliThreaded b
  stage : Stage.Like (s.stage i) (t.stage i)

omit [DecidableEq ι] in
/-- Alone, a request can do what it can do among others. -/
theorem advance_like {a b a' : Stage O} (hlike : Stage.Like a b) (flag : Bool)
    {rackEnv : RackEnvironment O} (h : advance incoming rackEnv st a = some a') :
    ∃ b', advance incoming (rackEnv.setMutliThreaded flag) st b = some b' ∧
      Stage.Like a' b' := by
  rcases hlike with rfl | ⟨v, w, rfl, rfl⟩
  · cases st with
    | getEnv i | call i op => exact ⟨a', by cases a <;> exact h, Or.inl rfl⟩
    | isMutliThreaded i =>
      cases a with
      | serving env =>
        obtain rfl := Option.some.inj h
        exact ⟨.dispatched flag, rfl, Or.inr ⟨_, _, rfl, rfl⟩⟩
      | arrived | failed | dispatched v => cases h
  · cases st <;> cases h

/-- The steps of others do not touch it. -/
theorem Shadows.other (hs : Shadows i s t) (hi : st.request ≠ i)
    (h : step incoming s st = some s') : Shadows i s' t := by
  obtain ⟨stage, -, rfl⟩ := step_eq_some.mp h
  obtain ⟨b, hb⟩ := hs.rackEnv
  refine ⟨⟨b, hb⟩, ?_⟩
  simpa only [Function.update_of_ne (Ne.symm hi)] using hs.stage

/-- Its own it takes alone, too. -/
theorem Shadows.own (hs : Shadows i s t) (hi : st.request = i)
    (h : step incoming s st = some s') :
    ∃ t', step incoming t st = some t' ∧ Shadows i s' t' := by
  subst hi
  obtain ⟨a', ha', rfl⟩ := step_eq_some.mp h
  obtain ⟨b, hb⟩ := hs.rackEnv
  obtain ⟨b', hb', hlike⟩ := advance_like hs.stage b ha'
  rw [← hb] at hb'
  refine ⟨_, step_eq_some.mpr ⟨b', hb', rfl⟩,
    ⟨(flag t.rackEnv.runtime).step t.rackEnv.mutliThreaded st, by rw [hb]; rfl⟩, ?_⟩
  simpa only [Function.update_self] using hlike

/-- **A request alone** takes its own steps of the run. -/
theorem exists_run_own (hs : Shadows i s t) (h : run incoming s steps = some s') :
    ∃ t', run incoming t (own i steps) = some t' ∧ Shadows i s' t' := by
  induction steps generalizing s t with
  | nil =>
    obtain rfl : s = s' := Option.some.inj h
    exact ⟨t, rfl, hs⟩
  | cons st steps ih =>
    obtain ⟨s₁, hst, hrun⟩ := run_cons_eq_some.mp h
    by_cases hi : st.request = i
    · obtain ⟨t₁, ht₁, hs₁⟩ := hs.own hi hst
      obtain ⟨t', ht', hs'⟩ := ih hs₁ hrun
      refine ⟨t', ?_, hs'⟩
      rw [own, List.filter_cons_of_pos (by simpa using hi)]
      exact run_cons_eq_some.mpr ⟨t₁, ht₁, ht'⟩
    · obtain ⟨t', ht', hs'⟩ := ih (hs.other hi hst) hrun
      refine ⟨t', ?_, hs'⟩
      rw [own, List.filter_cons_of_neg (by simpa using hi)]
      exact ht'

/-! ## What a request reads -/

omit [DecidableEq ι] in
/-- The first step of a request sets the flag, and no other step of it
does. -/
theorem advance_sets {a a' : Stage O} {rackEnv : RackEnvironment O} (runtime : Ruby O)
    (h : advance incoming rackEnv st a = some a') :
    a' ≠ .arrived ∧ ((flag runtime).sets st = true ↔ a = .arrived) := by
  cases a with
  | arrived =>
    cases st with
    | getEnv i =>
      refine ⟨?_, iff_of_true rfl rfl⟩
      rintro rfl
      rw [advance] at h
      split at h <;> cases h
    | call i op | isMutliThreaded i => cases h
  | serving env =>
    cases st with
    | getEnv i => cases h
    | call i op =>
      rw [advance, Option.ite_none_right_eq_some] at h
      obtain rfl := Option.some.inj h.2
      exact ⟨nofun, iff_of_false nofun nofun⟩
    | isMutliThreaded i =>
      obtain rfl := Option.some.inj h
      exact ⟨nofun, iff_of_false nofun nofun⟩
  | failed | dispatched v => cases st <;> cases h

/-- What is left of a request that is on its way sets nothing. -/
theorem not_sets_of_ne_arrived (runtime : Ruby O) (h : run incoming s steps = some s')
    (ha : s.stage i ≠ .arrived) (hown : ∀ st ∈ steps, st.request = i) :
    ∀ st ∈ steps, (flag runtime).sets st = false := by
  induction steps generalizing s with
  | nil => exact fun st hst => nomatch hst
  | cons st steps ih =>
    obtain ⟨s₁, hst, hrun⟩ := run_cons_eq_some.mp h
    obtain ⟨stage, hstage, rfl⟩ := step_eq_some.mp hst
    obtain ⟨rfl, hown⟩ := List.forall_mem_cons.mp hown
    obtain ⟨hne, hsets⟩ := advance_sets runtime hstage
    refine List.forall_mem_cons.mpr ⟨Bool.eq_false_iff.mpr fun h => ha (hsets.mp h), ?_⟩
    exact ih hrun (by simpa only [Function.update_self] using hne) hown

/-- A request alone has the flag set first, and flipped by its own true
values. -/
theorem flag_run_own (rackEnv : RackEnvironment O) (runtime : Ruby O) (b : Bool)
    (h : run incoming (start rackEnv) steps = some s) (hne : steps ≠ [])
    (hown : ∀ st ∈ steps, st.request = i) :
    (∃ st ∈ steps, (flag runtime).sets st = true) ∧
      (flag runtime).run b steps = !(flag runtime).odd steps := by
  cases steps with
  | nil => exact absurd rfl hne
  | cons st steps =>
    obtain ⟨s₁, hst, hrun⟩ := run_cons_eq_some.mp h
    obtain ⟨stage, hstage, rfl⟩ := step_eq_some.mp hst
    obtain ⟨rfl, hown⟩ := List.forall_mem_cons.mp hown
    obtain ⟨hne, hsets⟩ := advance_sets runtime hstage
    have hset := hsets.mpr rfl
    refine ⟨⟨st, List.mem_cons_self, hset⟩, ?_⟩
    have hrest := not_sets_of_ne_arrived runtime hrun
      (by simpa only [Function.update_self] using hne) hown
    change (flag runtime).run ((flag runtime).step b st) steps = _
    rw [Flag.step_of_sets b hset, Flag.run_of_not_set hrest, Bool.true_xor, Flag.odd, Flag.odd,
      List.countP_cons_of_neg (by simp [(flag runtime).not_flips_of_sets st hset])]

/-- What disturbs a request: the true values that others assigned since
the last `getEnv`, and those it assigned itself before that. -/
def disturbances (runtime : Ruby O) (i : ι) (steps : List (Step ι O)) : ℕ :=
  (((flag runtime).sinceSet steps).filter fun st => ¬ st.request = i).countP (flag runtime).flips +
    (own i ((flag runtime).untilSet steps)).countP (flag runtime).flips

/-- The flag is as with the request alone where the disturbances are even
in number. -/
theorem odd_sinceSet_iff (runtime : Ruby O) (i : ι) (steps : List (Step ι O)) :
    (flag runtime).odd ((flag runtime).sinceSet steps) = (flag runtime).odd (own i steps) ↔
      Even (disturbances runtime i steps) := by
  have hsince := List.countP_eq_countP_filter_add ((flag runtime).sinceSet steps)
    (flag runtime).flips (fun st => decide (st.request = i))
  have hown : own i steps =
      own i ((flag runtime).untilSet steps) ++ own i ((flag runtime).sinceSet steps) := by
    rw [own, own, own, ← List.filter_append, Flag.untilSet, Flag.sinceSet,
      List.rdropWhile_append_rtakeWhile]
  rw [Flag.odd, Flag.odd, hown, List.countP_append, decide_eq_decide, disturbances, own, own,
    hsince]
  simp only [← decide_not]
  grind

theorem run_concat_eq_some :
    run incoming s (steps ++ [st]) = some s' ↔
      ∃ s₁, run incoming s steps = some s₁ ∧ step incoming s₁ st = some s' := by
  rw [run, List.foldlM_append]
  simp only [List.foldlM_cons, List.foldlM_nil, bind_pure]
  exact Option.bind_eq_some_iff

/-- A request that reads the flag was being served. -/
theorem read_eq_some :
    step incoming s (.isMutliThreaded i) = some s' ↔
      (∃ env, s.stage i = .serving env) ∧
        s' = ⟨s.rackEnv, Function.update s.stage i (.dispatched s.rackEnv.mutliThreaded)⟩ := by
  rcases hs : s.stage i with _ | env | _ | v <;> simp [step, hs, eq_comm]

/-- **What a request reads is what it would read alone** just where the
disturbances are even in number. -/
theorem dispatched_alone_iff (incoming : ι → Incoming O) (rackEnv : RackEnvironment O) (i : ι)
    (steps : List (Step ι O)) {s : Service ι O}
    (h : run incoming (start rackEnv) (steps ++ [.isMutliThreaded i]) = some s) :
    ∃ v t w, s.stage i = .dispatched v ∧
      run incoming (start rackEnv) (own i (steps ++ [.isMutliThreaded i])) = some t ∧
      t.stage i = .dispatched w ∧ (v = w ↔ Even (disturbances rackEnv.runtime i steps)) := by
  obtain ⟨s₁, hrun, hread⟩ := run_concat_eq_some.mp h
  obtain ⟨⟨env, henv⟩, rfl⟩ := read_eq_some.mp hread
  have hstart : Shadows i (start rackEnv) (start rackEnv) :=
    ⟨⟨rackEnv.mutliThreaded, rfl⟩, Or.inl rfl⟩
  obtain ⟨t₁, hown, hshadows⟩ := exists_run_own hstart hrun
  have ht₁ : t₁.stage i = .serving env := by
    rcases hshadows.stage with heq | ⟨v, w, hv, -⟩
    · rw [← heq, henv]
    · rw [henv] at hv
      cases hv
  have hconcat : own i (steps ++ [.isMutliThreaded i]) = own i steps ++ [.isMutliThreaded i] := by
    simp [own, Step.request]
  refine ⟨_, ⟨t₁.rackEnv, Function.update t₁.stage i (.dispatched t₁.rackEnv.mutliThreaded)⟩, _,
    Function.update_self .., ?_, Function.update_self .., ?_⟩
  · rw [hconcat]
    exact run_concat_eq_some.mpr ⟨t₁, hown, read_eq_some.mpr ⟨⟨env, ht₁⟩, rfl⟩⟩
  · have hne : own i steps ≠ [] := by
      intro hnil
      rw [hnil] at hown
      obtain rfl := Option.some.inj hown
      cases ht₁
    have hall : ∀ st ∈ own i steps, st.request = i := fun st hst => by
      simpa using (List.mem_filter.mp hst).2
    obtain ⟨⟨st, hst, hsets⟩, halone⟩ :=
      flag_run_own rackEnv rackEnv.runtime rackEnv.mutliThreaded hown hne hall
    have hmany : (flag rackEnv.runtime).run rackEnv.mutliThreaded steps =
        !(flag rackEnv.runtime).odd ((flag rackEnv.runtime).sinceSet steps) :=
      Flag.run_of_set ⟨st, (List.mem_filter.mp hst).1, hsets⟩
    rw [rackEnv_run hrun, rackEnv_run hown]
    change (flag rackEnv.runtime).run rackEnv.mutliThreaded steps =
      (flag rackEnv.runtime).run rackEnv.mutliThreaded (own i steps) ↔ _
    rw [hmany, halone, Bool.not_inj_iff]
    exact odd_sinceSet_iff rackEnv.runtime i steps

/-- `GET /`, without headers. -/
def get : Incoming ℕ :=
  ⟨⟨.http11, "GET".toList, ['/'], ['/'], none, noHeaders, none⟩, 5, false⟩

/-- A `RackEnvironment`, its objects given numbers. -/
def numbered : RackEnvironment ℕ := ⟨⟨0, 1, 2⟩, 3, 4, true⟩

/-- `env['rack.multithread'] = value`. -/
def assign (value : ℕ) : Op ℕ :=
  .opAset (.string (RubyHelper.toUnicodeRubyString MULTI_THREADED).toKey) (.other value)

/-- Two true values that another request assigns cancel out. -/
theorem dispatched_alone_iff_locked :
    ∃ s v t w, run (fun _ => get) (start numbered) ([.getEnv 0, .getEnv 1,
        .call 0 (assign numbered.runtime.getTrue), .call 0 (assign numbered.runtime.getTrue)] ++
        [.isMutliThreaded 1]) = some s ∧
      s.stage 1 = .dispatched v ∧
      run (fun _ => get) (start numbered) [.getEnv 1, .isMutliThreaded 1] = some t ∧
      t.stage 1 = .dispatched w ∧ v = w := by
  obtain ⟨s, hs⟩ := Option.isSome_iff_exists.mp
    (rfl : (run (fun _ => get) (start numbered) ([.getEnv 0, .getEnv 1,
      .call 0 (assign numbered.runtime.getTrue), .call 0 (assign numbered.runtime.getTrue)] ++
      [.isMutliThreaded 1])).isSome = true)
  obtain ⟨v, t, w, hv, ht, hw, heq⟩ := dispatched_alone_iff (fun _ => get) numbered 1 _ hs
  exact ⟨s, v, t, w, hs, hv, ht, hw, heq.mpr (by decide)⟩

/-- A true value that another request assigns turns the flag off. -/
theorem dispatched_by_other :
    (run (fun _ => get) (start numbered) [.getEnv 0, .getEnv 1,
        .call 0 (assign numbered.runtime.getTrue), .isMutliThreaded 1]).map (·.stage 1) =
      some (.dispatched false) ∧
    (run (fun _ => get) (start numbered) (own 1 [.getEnv 0, .getEnv 1,
        .call 0 (assign numbered.runtime.getTrue), .isMutliThreaded 1])).map (·.stage 1) =
      some (.dispatched true) := ⟨rfl, rfl⟩

/-- **Switching `rack.multithread` off is honoured** just where an odd
number of true values is assigned if, and only if, a false one is. -/
theorem dispatched_iff (incoming : ι → Incoming O) (rackEnv : RackEnvironment O) (i : ι)
    (ops : List (Op O)) {s : Service ι O}
    (h : run incoming (start rackEnv)
      (.getEnv i :: ops.map (.call i) ++ [.isMutliThreaded i]) = some s) :
    ∃ v, s.stage i = .dispatched v ∧
      ((v = false ↔ ∃ op ∈ ops, RackEnvironment.assignsFalse rackEnv.runtime op = true) ↔
        (Odd (ops.countP (RackEnvironment.assignsTrue rackEnv.runtime)) ↔
          ∃ op ∈ ops, RackEnvironment.assignsFalse rackEnv.runtime op = true)) := by
  obtain ⟨s₁, hrun, hread⟩ := run_concat_eq_some.mp h
  obtain ⟨-, rfl⟩ := read_eq_some.mp hread
  refine ⟨_, Function.update_self .., ?_⟩
  have hown : ∀ st ∈ .getEnv i :: ops.map (Step.call i), st.request = i := by
    simp [Step.request]
  have hflag := (flag_run_own rackEnv rackEnv.runtime rackEnv.mutliThreaded hrun nofun hown).2
  have hodd : (flag rackEnv.runtime).odd (Step.getEnv i :: ops.map (Step.call i)) =
      decide (Odd (ops.countP (RackEnvironment.assignsTrue rackEnv.runtime))) := by
    rw [Flag.odd, List.countP_cons_of_neg Bool.false_ne_true, List.countP_map]
    rfl
  rw [rackEnv_run hrun]
  change ((flag rackEnv.runtime).run rackEnv.mutliThreaded _ = false ↔ _) ↔ _
  rw [hflag, hodd, Bool.not_eq_false', decide_eq_true_eq]

/-- Taking a lock and releasing it turns the flag off. -/
theorem dispatched_iff_lock :
    ∃ s, run (fun _ => get) (start numbered) (.getEnv 0 :: [assign numbered.runtime.getFalse,
        assign numbered.runtime.getTrue].map (.call 0) ++ [.isMutliThreaded 0]) = some s ∧
      s.stage 0 = .dispatched false := by
  obtain ⟨s, hs⟩ := Option.isSome_iff_exists.mp
    (rfl : (run (fun _ => get) (start numbered) (.getEnv 0 :: [assign numbered.runtime.getFalse,
      assign numbered.runtime.getTrue].map (.call 0) ++ [.isMutliThreaded 0])).isSome = true)
  obtain ⟨v, hv, hiff⟩ := dispatched_iff (fun _ => get) numbered 0 _ hs
  have hoff : v = false := (hiff.mpr (by decide)).mpr (by decide)
  exact ⟨s, hs, by rw [hv, hoff]⟩

/-- Switching it off without switching it on again leaves it on. -/
theorem dispatched_switched_off :
    (run (fun _ => get) (start numbered) [.getEnv 0, .call 0 (assign numbered.runtime.getFalse),
        .isMutliThreaded 0]).map (·.stage 0) = some (.dispatched true) ∧
    RackEnvironment.assignsFalse numbered.runtime (assign numbered.runtime.getFalse) = true :=
  ⟨rfl, rfl⟩

end Service

end RackEnv

end Jubilee
