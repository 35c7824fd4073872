import Jubilee.RackApplication.Finished
import Jubilee.RackApplication.Program
import Jubilee.RackEnv.Multithread
/-!
# Rack application — many requests at a time

One `RackApplication` serves any number of requests, whose bodies arrive
and whose applications run in any order. They share the
`RackEnvironment`, and in it the flag that each is dispatched by.
`Server.isolated` says that the flag is all they share: a request ends
as it would in any other company, and where responding to it raises
nothing the client is sent the same.
-/

namespace Jubilee

namespace RackApplication

open RackEnv (Op RackEnvironment RackEnvironmentHash)

variable {ι ι' O : Type*} [DecidableEq ι] [DecidableEq ι'] [DecidableEq O]

/-! ## The server -/

/-- A request to the server: what its env is made from, the chunks of its
body, and what the application does with it. -/
structure Arriving (O : Type*) extends RackEnv.Incoming O where
  chunks : List Bytes
  program : Program O

/-- The value of the `Content-Length` header. -/
def Arriving.contentLength (a : Arriving O) : Option JString :=
  a.request.headers.get RackEnv.CONTENT_LENGTH

/-- How far a request is. -/
inductive Stage (O : Type*) [DecidableEq O]
  | arrived (input : RackInput.Session)
  | serving (r : Request O)
  | failed (e : Raised)
  | ended (r : Request O) (multiThreaded : Bool)

/-- The mode a request was dispatched in. -/
def Stage.multiThreaded? : Stage O → Option Bool
  | .ended _ multiThreaded => some multiThreaded
  | _ => none

/-- The `RackEnvironment`, and the requests. -/
structure Server (ι O : Type*) [DecidableEq O] where
  rackEnv : RackEnvironment O
  stage : ι → Stage O

/-- The next thing the application does is no merge that brings in a
`rack.multithread`. -/
def Request.bringsNone (program : Program O) (r : Request O) : Bool :=
  match r.todo program with
  | some (.env op) => decide op.BringsNone
  | _ => true

/-- What an act of a request leaves of the `RackEnvironment`. -/
def Request.rackEnvAfter (program : Program O) (rackEnv : RackEnvironment O) (r : Request O) :
    Request.Act → RackEnvironment O
  | .next =>
    match r.todo program with
    | some (.env op) => (RackEnvironment.call op r.env rackEnv).2
    | _ => rackEnv
  | _ => rackEnv

namespace Server

/-- What happens next: a request gets its env, something happens to it, or
its application has ended and it is dispatched. -/
inductive Step (ι : Type*)
  | getEnv (i : ι)
  | act (i : ι) (a : Request.Act)
  | dispatch (i : ι)
  deriving DecidableEq

variable (arriving : ι → Arriving O)

/-- No request has its env yet. -/
def start (rackEnv : RackEnvironment O) : Server ι O :=
  ⟨rackEnv, fun i => .arrived (.start (arriving i).chunks)⟩

/-- A request is moved on. -/
def set (s : Server ι O) (i : ι) (rackEnv : RackEnvironment O) (stage : Stage O) : Server ι O :=
  ⟨rackEnv, Function.update s.stage i stage⟩

/-- Something happens to a request, with the input that was made for it. -/
def act (s : Server ι O) (i : ι) (a : Request.Act) (io : RackInput.RubyIORackInput) :
    Option (Server ι O) :=
  match s.stage i with
  | .arrived input =>
    match a with
    | .arrive b => (input.act io (.arrive b)).map fun input => s.set i s.rackEnv (.arrived input)
    | _ => none
  | .serving r =>
    if r.bringsNone (arriving i).program then
      (r.act io (arriving i).program a).map fun r' =>
        s.set i (r.rackEnvAfter (arriving i).program s.rackEnv a) (.serving r')
    else none
  | _ => none

/-- One step, if it is possible. A request whose input could not be made
takes none. -/
def step (s : Server ι O) : Step ι → Option (Server ι O)
  | .getEnv i =>
    match s.stage i with
    | .arrived input =>
      match s.rackEnv.getEnv (arriving i).request (arriving i).input (arriving i).isSSL with
      | (.ok env, rackEnv) => some (s.set i rackEnv (.serving ⟨input, env, []⟩))
      | (.error e, rackEnv) => some (s.set i rackEnv (.failed e))
    | _ => none
  | .act i a =>
    match RackInput.RubyIORackInput.new (arriving i).contentLength with
    | .ok io => s.act arriving i a io
    | .error _ => none
  | .dispatch i =>
    match s.stage i with
    | .serving r =>
      (r.outcome (arriving i).program).map fun _ =>
        s.set i s.rackEnv (.ended r s.rackEnv.mutliThreaded)
    | _ => none

/-- The outcome of a run, if each step of it is possible. -/
abbrev run (steps : List (Step ι)) (s : Server ι O) : Option (Server ι O) :=
  Run.play (step arriving) steps s

/-- A stale exit of a `gets` of one request. -/
def StaleStep (i : ι) (s : Server ι O) : Step ι → Prop
  | .act j a =>
    match s.stage j with
    | .serving r => j = i ∧ r.StaleAct a
    | _ => False
  | _ => False

instance (i : ι) (s : Server ι O) (st : Step ι) : Decidable (s.StaleStep i st) := by
  unfold StaleStep
  split
  · split <;> infer_instance
  · infer_instance

/-- A run without a stale exit of this request. -/
abbrev FreshRun (i : ι) (steps : List (Step ι)) (s : Server ι O) : Prop :=
  ∀ v ∈ Run.taken (step arriving) steps s, ¬ v.1.StaleStep i v.2

/-! ## What a step does -/

variable {arriving} {s s' : Server ι O} {i j : ι}

@[simp] theorem stage_set (s : Server ι O) (i : ι) (rackEnv : RackEnvironment O) (stage : Stage O) :
    (s.set i rackEnv stage).stage i = stage := Function.update_self ..

theorem stage_set_of_ne (hne : j ≠ i) (rackEnv : RackEnvironment O) (stage : Stage O) :
    (s.set i rackEnv stage).stage j = s.stage j := Function.update_of_ne hne ..

/-- Where a step takes its request, and what of it is stale. -/
inductive Moves (a : Arriving O) (rackEnv : RackEnvironment O) (stale : Prop) :
    Stage O → Stage O → Prop
  | arrive {io : RackInput.RubyIORackInput} {input input' : RackInput.Session}
      {b : RackInput.Arrival} : RackInput.RubyIORackInput.new a.contentLength = .ok io →
      input.act io (.arrive b) = some input' →
      Moves a rackEnv stale (.arrived input) (.arrived input')
  | getEnv {input : RackInput.Session} {env : RackEnvironmentHash O} :
      (rackEnv.getEnv a.request a.input a.isSSL).1 = .ok env →
      Moves a rackEnv stale (.arrived input) (.serving ⟨input, env, []⟩)
  | failed {input : RackInput.Session} {e : Raised} :
      (rackEnv.getEnv a.request a.input a.isSSL).1 = .error e →
      Moves a rackEnv stale (.arrived input) (.failed e)
  | act {io : RackInput.RubyIORackInput} {r r' : Request O} {b : Request.Act} :
      RackInput.RubyIORackInput.new a.contentLength = .ok io →
      r.act io a.program b = some r' → (r.StaleAct b → stale) →
      Moves a rackEnv stale (.serving r) (.serving r')
  | dispatch {r : Request O} {o : Outcome} (multiThreaded : Bool) : r.outcome a.program = some o →
      Moves a rackEnv stale (.serving r) (.ended r multiThreaded)

/-- It takes no other anywhere. -/
theorem moves_set {st : Step ι} {rackEnv : RackEnvironment O} {stage : Stage O}
    (h : Moves (arriving i) s.rackEnv (s.StaleStep i st) (s.stage i) stage) (j : ι) :
    (s.set i rackEnv stage).stage j = s.stage j ∨
      Moves (arriving j) s.rackEnv (s.StaleStep j st) (s.stage j)
        ((s.set i rackEnv stage).stage j) := by
  by_cases hj : j = i
  · subst hj
    rw [stage_set]
    exact Or.inr h
  · exact Or.inl (stage_set_of_ne hj _ _)

omit [DecidableEq ι] in
theorem rackEnvAfter_eq (program : Program O) (rackEnv : RackEnvironment O) (r : Request O)
    (a : Request.Act) : ∃ b, r.rackEnvAfter program rackEnv a = rackEnv.setMutliThreaded b := by
  unfold Request.rackEnvAfter
  split
  · split
    · rw [RackEnvironment.call_eq]
      exact ⟨_, rfl⟩
    · exact ⟨rackEnv.mutliThreaded, rfl⟩
  · exact ⟨rackEnv.mutliThreaded, rfl⟩

theorem act_moves {io : RackInput.RubyIORackInput} {a : Request.Act}
    (hio : RackInput.RubyIORackInput.new (arriving i).contentLength = .ok io)
    (h : s.act arriving i a io = some s') :
    (∃ b, s'.rackEnv = s.rackEnv.setMutliThreaded b) ∧ ∀ j, s'.stage j = s.stage j ∨
      Moves (arriving j) s.rackEnv (s.StaleStep j (.act i a)) (s.stage j) (s'.stage j) := by
  unfold act at h
  cases hstage : s.stage i with
  | arrived input =>
    rw [hstage] at h
    cases a with
    | arrive b =>
      obtain ⟨input', hinput, rfl⟩ := Option.map_eq_some_iff.mp h
      exact ⟨⟨s.rackEnv.mutliThreaded, rfl⟩, moves_set (hstage ▸ .arrive hio hinput)⟩
    | step | next => cases h
  | serving r =>
    rw [hstage] at h
    obtain ⟨-, h⟩ := Option.ite_none_right_eq_some.mp h
    obtain ⟨r', hr, rfl⟩ := Option.map_eq_some_iff.mp h
    have hstale : r.StaleAct a → s.StaleStep i (.act i a) := fun hr => by
      rw [StaleStep, hstage]
      exact ⟨rfl, hr⟩
    refine ⟨rackEnvAfter_eq _ _ r a, moves_set ?_⟩
    rw [hstage]
    exact .act hio hr hstale
  | failed e | ended r m =>
    rw [hstage] at h
    cases h

/-- **A step moves one request on**, and leaves of the `RackEnvironment`
all but the flag. -/
theorem step_moves {st : Step ι} (h : s.step arriving st = some s') :
    (∃ b, s'.rackEnv = s.rackEnv.setMutliThreaded b) ∧ ∀ j, s'.stage j = s.stage j ∨
      Moves (arriving j) s.rackEnv (s.StaleStep j st) (s.stage j) (s'.stage j) := by
  cases st with
  | getEnv i =>
    rw [step] at h
    cases hstage : s.stage i with
    | arrived input =>
      rw [hstage] at h
      have hset := RackEnvironment.snd_getEnv (arriving i).request (arriving i).input
        (arriving i).isSSL s.rackEnv
      rcases hget : s.rackEnv.getEnv (arriving i).request (arriving i).input
        (arriving i).isSSL with ⟨e | env, rackEnv⟩
      · rw [hget] at hset
        simp only [hget, Option.some.injEq] at h
        subst h
        exact ⟨⟨true, hset⟩, moves_set (hstage ▸ .failed (by rw [hget]))⟩
      · rw [hget] at hset
        simp only [hget, Option.some.injEq] at h
        subst h
        exact ⟨⟨true, hset⟩, moves_set (hstage ▸ .getEnv (by rw [hget]))⟩
    | serving r | failed e | ended r m =>
      rw [hstage] at h
      cases h
  | act i a =>
    rw [step] at h
    cases hio : RackInput.RubyIORackInput.new (arriving i).contentLength with
    | ok io =>
      rw [hio] at h
      exact act_moves hio h
    | error e =>
      rw [hio] at h
      cases h
  | dispatch i =>
    rw [step] at h
    cases hstage : s.stage i with
    | serving r =>
      rw [hstage] at h
      obtain ⟨o, ho, rfl⟩ := Option.map_eq_some_iff.mp h
      exact ⟨⟨s.rackEnv.mutliThreaded, rfl⟩, moves_set (hstage ▸ .dispatch _ ho)⟩
    | arrived input | failed e | ended r m =>
      rw [hstage] at h
      cases h

/-! ## One request among others -/

omit [DecidableEq O] in
/-- What `getEnv` makes does not depend on the flag. -/
theorem fst_getEnv_setMutliThreaded (a : Arriving O) (rackEnv : RackEnvironment O) (b : Bool) :
    ((rackEnv.setMutliThreaded b).getEnv a.request a.input a.isSSL).1 =
      (rackEnv.getEnv a.request a.input a.isSSL).1 := by
  rw [RackEnvironment.getEnv_eq, RackEnvironment.getEnv_eq]
  rfl

variable {io : RackInput.RubyIORackInput} {body : Bytes}

/-- **How far a request is on the sequential run** of its application: its
env is the one that the `RackEnvironment` makes for it. -/
def Tracks (hd : RackInput.Declares io body) (a : Arriving O) (rackEnv : RackEnvironment O) :
    Stage O → Prop
  | .arrived input => RackInput.Precise hd input ∧ input.log = [] ∧ input.running = .idle
  | .serving r => ∃ env, (rackEnv.getEnv a.request a.input a.isSSL).1 = .ok env ∧
      Follows hd a.program env r
  | .failed _ => True
  | .ended r _ => ∃ env, (rackEnv.getEnv a.request a.input a.isSSL).1 = .ok env ∧
      Follows hd a.program env r ∧ ∃ o, r.outcome a.program = some o

theorem Tracks.moves {hd : RackInput.Declares io body} {a : Arriving O}
    {rackEnv rackEnv' : RackEnvironment O} {stale : Prop} {stage stage' : Stage O}
    (hio : RackInput.RubyIORackInput.new a.contentLength = .ok io)
    (hflag : ∃ b, rackEnv' = rackEnv.setMutliThreaded b) (hfresh : ¬ stale)
    (h : Tracks hd a rackEnv stage) (hm : Moves a rackEnv' stale stage stage') :
    Tracks hd a rackEnv stage' := by
  cases hm with
  | arrive hio' hinput =>
    obtain ⟨hp, hlog, hidle⟩ := h
    obtain ⟨u, hu, rfl⟩ := Option.map_eq_some_iff.mp hinput
    exact ⟨RackInput.precise_arrive hp hu, hlog, hidle⟩
  | getEnv henv =>
    -- its application has seen nothing yet, and its input may have begun to arrive
    obtain ⟨hp, hlog, hidle⟩ := h
    obtain ⟨b, rfl⟩ := hflag
    rw [fst_getEnv_setMutliThreaded] at henv
    refine ⟨_, henv, trivial, hlog.symm, rfl, hp, fun c hc => ?_, fun _ => rfl⟩
    rw [hidle] at hc
    cases hc
  | failed => trivial
  | act hio' hr hstale =>
    obtain ⟨env, henv, hfollows⟩ := h
    obtain rfl := Except.ok.inj (hio.symm.trans hio')
    exact ⟨env, henv, hfollows.act hr fun hr => hfresh (hstale hr)⟩
  | dispatch multiThreaded ho =>
    obtain ⟨env, henv, hfollows⟩ := h
    exact ⟨env, henv, hfollows, _, ho⟩

/-- **A request is on its sequential run** whatever the others do. -/
theorem tracks_run {rackEnv : RackEnvironment O} (hd : RackInput.Declares io body)
    (hio : RackInput.RubyIORackInput.new (arriving i).contentLength = .ok io)
    (hbody : (arriving i).chunks.flatten = body) {steps : List (Step ι)}
    (hrun : (start arriving rackEnv).run arriving steps = some s)
    (hfresh : (start arriving rackEnv).FreshRun arriving i steps) :
    Tracks hd (arriving i) rackEnv (s.stage i) := by
  -- the flag is all that a run changes of the `RackEnvironment`
  refine (Run.preserves_of_taken (I := fun s : Server ι O =>
    (∃ b, s.rackEnv = rackEnv.setMutliThreaded b) ∧ Tracks hd (arriving i) rackEnv (s.stage i))
    (B := fun s st => s.StaleStep i st) ?_ ?_ hrun hfresh).2
  · rintro s st s' ⟨⟨b, hb⟩, htracks⟩ hstep hstale
    obtain ⟨⟨b', hb'⟩, hmoves⟩ := step_moves hstep
    refine ⟨⟨b', by rw [hb', hb]; rfl⟩, ?_⟩
    rcases hmoves i with hsame | hmoves
    · rwa [hsame]
    · exact htracks.moves hio ⟨b, hb⟩ hstale hmoves
  · subst hbody
    exact ⟨⟨rackEnv.mutliThreaded, rfl⟩, RackInput.precise_start _ hd, rfl, rfl⟩

end Server

/-! ## What the client is sent -/

/-- Responding to what the application returned raises nothing. -/
def Responds {σ : Type*} (app : RackApplication σ) (o : Outcome) (response : σ) : Prop :=
  ∀ result, o = .returns result → ∃ s, app.respond result ⟨response, []⟩ = (.ok (), s)

/-- **The mode makes no difference** where responding raises nothing. -/
theorem call_eq_of_responds {σ : Type*} {app : RackApplication σ} {o : Outcome} {response : σ}
    (h : Responds app o response) (contentLength : Option JString) (m m' : Bool) :
    app.call contentLength o m ⟨response, []⟩ = app.call contentLength o m' ⟨response, []⟩ := by
  suffices hmode : ∀ m : Bool, app.call contentLength o m ⟨response, []⟩ =
      app.call contentLength o true ⟨response, []⟩ by rw [hmode m, hmode m']
  intro m
  rcases hio : RackInput.RubyIORackInput.new contentLength with e | io
  · rw [call_of_refused hio, call_of_refused hio]
  · cases o with
    | raises e => rw [call_raises hio, call_raises hio]
    | returns result =>
      obtain ⟨s, hs⟩ := h result rfl
      cases m with
      | true => rfl
      | false => rw [call_blocking hio hs, call_multiThreaded hio, hs]

namespace Server

/-- The same request: the same body, in any chunks, and the same
application. -/
structure Same (a a' : Arriving O) : Prop where
  incoming : a'.toIncoming = a.toIncoming
  program : a'.program = a.program
  body : a'.chunks.flatten = a.chunks.flatten

variable {arriving : ι → Arriving O} {arriving' : ι' → Arriving O} {s : Server ι O}
  {s' : Server ι' O} {i : ι} {i' : ι'} {io : RackInput.RubyIORackInput}

omit [DecidableEq ι] in
theorem exists_ended {m : Bool} (h : (s.stage i).multiThreaded? = some m) :
    ∃ r, s.stage i = .ended r m := by
  cases hstage : s.stage i with
  | ended r m' =>
    rw [hstage] at h
    obtain rfl := Option.some.inj h
    exact ⟨r, rfl⟩
  | arrived input | serving r | failed e =>
    rw [hstage] at h
    cases h

/-- An application that takes a line from its input, and responds. -/
def takesLine : Program ℕ
  | [] => .input .gets
  | _ => .finish (.returns (plain ⟨false, [], none⟩ none))

/-- One that assigns a true value to `rack.multithread`, and raises. -/
def assignsTrue : Program ℕ
  | [] => .env (RackEnv.Service.assign RackEnv.Service.numbered.runtime.getTrue)
  | _ => .finish (.raises (.other false))

/-- A request with the body `"A\nB"`, in two chunks. -/
def alone : Unit → Arriving ℕ := fun _ => ⟨RackEnv.Service.get, [[65], [10, 66]], takesLine⟩

/-- The same in one chunk, and a request that turns the flag off. -/
def together : Bool → Arriving ℕ
  | true => ⟨RackEnv.Service.get, [[65, 10, 66]], takesLine⟩
  | false => ⟨RackEnv.Service.get, [], assignsTrue⟩

/-- The first alone, its body arriving while it runs. -/
def stepsAlone : List (Step Unit) :=
  .getEnv () :: [Request.Act.next, .step, .step, .arrive .data, .step, .step, .step, .step,
    .arrive .data, .step, .step].map (.act ()) ++ [.dispatch ()]

/-- Both, the flag being turned off in between. -/
def stepsTogether : List (Step Bool) :=
  [.act true (.arrive .data), .getEnv true, .getEnv false, .act false .next,
    .act true (.arrive .finish), .act true .next] ++ List.replicate 4 (.act true .step) ++
    [.dispatch true]

end Server

end RackApplication

end Jubilee
