import Jubilee.RackApplication.Server
import Jubilee.RackEnv.Respelled
/-!
# Rack application — how the clients spell their headers

`Server.respelled_alike`: a server whose clients spell the names of their
headers in other cases takes the same steps, and no application sees a
difference. The proviso is the one of `RackEnv.Respells`.
-/

namespace Jubilee

namespace RackApplication

open RackEnv (Op RackEnvironment RackEnvironmentHash Respelled)

variable {ι O : Type*} [DecidableEq ι] [DecidableEq O]

/-! ## One request -/

namespace Request

/-- Two requests that differ in how the env spells the headers only. -/
structure Alike (r r' : Request O) : Prop where
  input : r'.input = r.input
  env : RackEnv.Alike r.env r'.env
  log : r'.log = r.log

namespace Alike

variable {io : RackInput.RubyIORackInput} {program : Program O} {r r' t : Request O}

theorem todo (h : Alike r r') (program : Program O) : r'.todo program = r.todo program := by
  rw [Request.todo, Request.todo, h.input, h.log]

theorem outcome (h : Alike r r') (program : Program O) :
    r'.outcome program = r.outcome program := by
  rw [Request.outcome, Request.outcome, h.todo]

theorem note (h : Alike r r') (input : RackInput.Session) :
    Alike (r.note input) (r'.note input) := by
  refine ⟨rfl, h.env, ?_⟩
  rw [Request.note, Request.note, h.input, h.log]

theorem callEnv (h : Alike r r') (op : Op O) : Alike (r.callEnv op) (r'.callEnv op) := by
  obtain ⟨hanswer, henv⟩ := h.env.call op
  refine ⟨h.input, henv, ?_⟩
  rw [Request.callEnv, Request.callEnv, h.log, hanswer]

/-- **What happens to one happens to the other.** -/
theorem act (h : Alike r r') {a : Request.Act} (ha : r.act io program a = some t) :
    ∃ t', r'.act io program a = some t' ∧ Alike t t' := by
  cases a with
  | arrive b =>
    obtain ⟨input, hinput, rfl⟩ := Option.map_eq_some_iff.mp ha
    refine ⟨r'.note input, ?_, h.note input⟩
    rw [Request.act, h.input, hinput, Option.map_some]
  | step =>
    obtain ⟨input, hinput, rfl⟩ := Option.map_eq_some_iff.mp ha
    refine ⟨r'.note input, ?_, h.note input⟩
    rw [Request.act, h.input, hinput, Option.map_some]
  | next =>
    rw [Request.act] at ha
    cases htodo : r.todo program with
    | none =>
      rw [htodo] at ha
      cases ha
    | some next =>
      have htodo' : r'.todo program = some next := (h.todo program).trans htodo
      rw [htodo] at ha
      cases next with
      | input c =>
        obtain rfl := Option.some.inj ha
        refine ⟨r'.note (r'.input.begin c), by rw [Request.act, htodo'], ?_⟩
        rw [h.input]
        exact h.note _
      | env op =>
        obtain rfl := Option.some.inj ha
        exact ⟨r'.callEnv op, by rw [Request.act, htodo'], h.callEnv op⟩
      | finish o => cases ha

end Alike

end Request

/-! ## The server -/

/-- The request with its headers spelled in another way. -/
def Arriving.respell (a : Arriving O) (headers : MultiMap) : Arriving O :=
  { a with request := { a.request with headers := headers } }

/-- Two requests are equally far. -/
inductive Stage.Alike : Stage O → Stage O → Prop
  | arrived (input : RackInput.Session) : Alike (.arrived input) (.arrived input)
  | serving {r r' : Request O} : Request.Alike r r' → Alike (.serving r) (.serving r')
  | failed (e : Raised) : Alike (.failed e) (.failed e)
  | ended {r r' : Request O} (multiThreaded : Bool) : Request.Alike r r' →
      Alike (.ended r multiThreaded) (.ended r' multiThreaded)

namespace Server

/-- Two servers at the same point. -/
structure Alike (s s' : Server ι O) : Prop where
  rackEnv : s'.rackEnv = s.rackEnv
  stage : ∀ i, Stage.Alike (s.stage i) (s'.stage i)

variable {arriving : ι → Arriving O} {headers : ι → MultiMap} {s s' t : Server ι O} {i : ι}

/-- The requests with their headers spelled in another way. -/
abbrev respell (arriving : ι → Arriving O) (headers : ι → MultiMap) : ι → Arriving O :=
  fun i => (arriving i).respell (headers i)

theorem Alike.set (h : Alike s s') (i : ι) (rackEnv : RackEnvironment O) {stage stage' : Stage O}
    (hstage : Stage.Alike stage stage') :
    Alike (s.set i rackEnv stage) (s'.set i rackEnv stage') := by
  refine ⟨rfl, fun j => ?_⟩
  by_cases hj : j = i
  · subst hj
    rw [stage_set, stage_set]
    exact hstage
  · rw [stage_set_of_ne hj, stage_set_of_ne hj]
    exact h.stage j

omit [DecidableEq O] in
theorem contentLength_respell {a : Arriving O} {headers : MultiMap}
    (h : Respelled a.request.headers headers) :
    (a.respell headers).contentLength = a.contentLength := h.get RackEnv.CONTENT_LENGTH

theorem rackEnvAfter_alike {program : Program O} {r r' : Request O} (h : Request.Alike r r')
    (rackEnv : RackEnvironment O) (a : Request.Act) :
    r'.rackEnvAfter program rackEnv a = r.rackEnvAfter program rackEnv a := by
  cases a with
  | arrive b | step => rfl
  | next =>
    rw [Request.rackEnvAfter, Request.rackEnvAfter, h.todo]
    split
    · rw [RackEnvironment.call_eq, RackEnvironment.call_eq]
    · rfl

/-- Something happens to a request of both. -/
theorem Alike.act (h : Alike s s') {a : Request.Act} {io : RackInput.RubyIORackInput}
    (ha : s.act arriving i a io = some t) :
    ∃ t', s'.act (respell arriving headers) i a io = some t' ∧ Alike t t' := by
  unfold Server.act at ha ⊢
  have hi := h.stage i
  rw [h.rackEnv]
  generalize s.stage i = stage, s'.stage i = stage' at ha hi ⊢
  cases hi with
  | arrived input =>
    cases a with
    | arrive b =>
      obtain ⟨input', hinput, rfl⟩ := Option.map_eq_some_iff.mp ha
      dsimp only
      rw [hinput, Option.map_some]
      exact ⟨_, rfl, h.set i _ (.arrived input')⟩
    | step | next => cases ha
  | @serving r r' hr =>
    obtain ⟨hbrings, ha⟩ := Option.ite_none_right_eq_some.mp ha
    obtain ⟨r₁, hact, rfl⟩ := Option.map_eq_some_iff.mp ha
    obtain ⟨r₁', hact', hr₁⟩ := hr.act hact
    have hbrings' : r'.bringsNone (arriving i).program = true := by
      rw [Request.bringsNone, hr.todo]
      exact hbrings
    change ∃ t', (if r'.bringsNone (arriving i).program = true then
      (r'.act io (arriving i).program a).map fun r'' =>
        s'.set i (r'.rackEnvAfter (arriving i).program s.rackEnv a) (.serving r'') else none) =
          some t' ∧ _
    rw [if_pos hbrings', hact', Option.map_some]
    refine ⟨_, rfl, ?_⟩
    rw [rackEnvAfter_alike hr]
    exact h.set i _ (.serving hr₁)
  | failed e | ended m hr => cases ha

/-- **A step of one server is a step of the other.** -/
theorem Alike.step (hheaders : ∀ i, Respelled (arriving i).request.headers (headers i))
    (h : Alike s s') {st : Step ι} (hstep : s.step arriving st = some t) :
    ∃ t', s'.step (respell arriving headers) st = some t' ∧ Alike t t' := by
  cases st with
  | getEnv i =>
    unfold Server.step at hstep ⊢
    dsimp only at hstep ⊢
    have hi := h.stage i
    rw [h.rackEnv]
    generalize s.stage i = stage, s'.stage i = stage' at hstep hi ⊢
    cases hi with
    | arrived input =>
      have hmade := RackEnv.getEnv_alike (hheaders i) (arriving i).input (arriving i).isSSL
        s.rackEnv
      have hset := RackEnvironment.snd_getEnv (arriving i).request (arriving i).input
        (arriving i).isSSL s.rackEnv
      have hset' := RackEnvironment.snd_getEnv
        { (arriving i).request with headers := headers i } (arriving i).input (arriving i).isSSL
        s.rackEnv
      dsimp only [respell, Arriving.respell] at hstep ⊢
      generalize s.rackEnv.getEnv (arriving i).request (arriving i).input (arriving i).isSSL = made,
        s.rackEnv.getEnv { (arriving i).request with headers := headers i } (arriving i).input
          (arriving i).isSSL = made' at hstep hmade hset hset' ⊢
      obtain ⟨made, rackEnv⟩ := made
      obtain ⟨made', rackEnv'⟩ := made'
      obtain rfl : rackEnv' = rackEnv := hset'.trans hset.symm
      cases hmade with
      | error e =>
        obtain rfl := Option.some.inj hstep
        exact ⟨_, rfl, h.set i _ (.failed e)⟩
      | ok henv =>
        obtain rfl := Option.some.inj hstep
        exact ⟨_, rfl, h.set i _ (.serving ⟨rfl, henv, rfl⟩)⟩
    | serving hr | failed e | ended m hr => cases hstep
  | act i a =>
    unfold Server.step at hstep ⊢
    dsimp only at hstep ⊢
    rw [contentLength_respell (hheaders i)]
    split at hstep
    · exact h.act hstep
    · cases hstep
  | dispatch i =>
    unfold Server.step at hstep ⊢
    dsimp only at hstep ⊢
    have hi := h.stage i
    rw [h.rackEnv]
    generalize s.stage i = stage, s'.stage i = stage' at hstep hi ⊢
    cases hi with
    | @serving r r' hr =>
      obtain ⟨o, ho, rfl⟩ := Option.map_eq_some_iff.mp hstep
      have ho' : r'.outcome (respell arriving headers i).program = some o :=
        (hr.outcome _).trans ho
      dsimp only
      rw [ho', Option.map_some]
      exact ⟨_, rfl, h.set i _ (.ended _ hr)⟩
    | arrived input | failed e | ended m hr => cases hstep

/-- **Runs are alike.** -/
theorem Alike.run (hheaders : ∀ i, Respelled (arriving i).request.headers (headers i))
    (h : Alike s s') {steps : List (Step ι)} (hrun : s.run arriving steps = some t) :
    ∃ t', s'.run (respell arriving headers) steps = some t' ∧ Alike t t' := by
  induction steps generalizing s s' with
  | nil =>
    obtain rfl := Option.some.inj hrun
    exact ⟨s', rfl, h⟩
  | cons st steps ih =>
    obtain ⟨s₁, hstep, hrest⟩ := Run.play_cons_cases hrun
    obtain ⟨s₁', hstep', h₁⟩ := h.step hheaders hstep
    obtain ⟨t', hrun', ht⟩ := ih h₁ hrest
    exact ⟨t', (Run.play_cons hstep').trans hrun', ht⟩

/-- **The spelling of headers makes no difference.** Whatever the clients
of a server do, they can do with the names of their headers spelled in
other cases; every application sees the same and ends the same, in the
same mode, on the same declared length. -/
theorem respelled_alike (hheaders : ∀ i, Respelled (arriving i).request.headers (headers i))
    (rackEnv : RackEnvironment O) {steps : List (Step ι)}
    (hrun : (start arriving rackEnv).run arriving steps = some s) :
    ∃ s', (start (respell arriving headers) rackEnv).run (respell arriving headers) steps =
        some s' ∧ s'.rackEnv = s.rackEnv ∧
      ∀ i, (respell arriving headers i).contentLength = (arriving i).contentLength ∧
        ∀ r m, s.stage i = .ended r m → ∃ r', s'.stage i = .ended r' m ∧ r'.log = r.log ∧
          r'.env.table = r.env.table ∧
            r'.outcome (arriving i).program = r.outcome (arriving i).program := by
  have hstart : Alike (start arriving rackEnv) (start (respell arriving headers) rackEnv) :=
    ⟨rfl, fun i => .arrived _⟩
  obtain ⟨s', hrun', h⟩ := hstart.run hheaders hrun
  refine ⟨s', hrun', h.rackEnv, fun i => ⟨contentLength_respell (hheaders i), ?_⟩⟩
  intro r m hended
  have hi := h.stage i
  rw [hended] at hi
  generalize s'.stage i = stage' at hi ⊢
  cases hi with
  | ended _ hr => exact ⟨_, rfl, hr.log, hr.env.table, hr.outcome _⟩

/-- An application that looks for `HTTP_ACCEPT`. -/
def looksForAccept : Program ℕ
  | [] => .env (.opAref (.string (RackEnv.rubyKey "Accept".toList)))
  | _ => .finish (.returns (plain ⟨false, [], none⟩ none))

/-- `GET /` with an `Accept` header. -/
def accepting : Unit → Arriving ℕ := fun _ =>
  ⟨⟨RackEnv.getWith "Accept".toList "a".toList, 5, false⟩, [], looksForAccept⟩

/-- The header in capitals. -/
def shoutedHeaders : MultiMap := RackEnv.oneHeader "ACCEPT".toList "a".toList

theorem respelled_alike_accept :
    ∃ s s' r r', (start accepting RackEnv.Service.numbered).run accepting
        [.getEnv (), .act () .next, .dispatch ()] = some s ∧ s.stage () = .ended r true ∧
      (start (respell accepting fun _ => shoutedHeaders) RackEnv.Service.numbered).run
        (respell accepting fun _ => shoutedHeaders)
        [.getEnv (), .act () .next, .dispatch ()] = some s' ∧ s'.stage () = .ended r' true ∧
      r'.log = r.log := by
  have hends : ((start accepting RackEnv.Service.numbered).run accepting
      [.getEnv (), .act () .next, .dispatch ()]).map (fun s => (s.stage ()).multiThreaded?) =
        some (some true) := by decide +kernel
  obtain ⟨s, hrun, hmode⟩ := Option.map_eq_some_iff.mp hends
  obtain ⟨r, hr⟩ := exists_ended hmode
  have hheaders : ∀ i, Respelled (accepting i).request.headers shoutedHeaders := fun _ =>
    ⟨.cons (by decide) .nil, .cons ⟨by decide, by decide⟩ .nil⟩
  obtain ⟨s', hrun', -, halike⟩ := respelled_alike hheaders RackEnv.Service.numbered hrun
  obtain ⟨r', hr', hlog, -, -⟩ := (halike ()).2 r true hr
  exact ⟨s, s', r, r', hrun, hr, hrun', hr', hlog⟩

end Server

end RackApplication

end Jubilee
