import Jubilee.Common.Run
import Jubilee.Common.Written
import Jubilee.RackApplication.Model
import Jubilee.RackEnv.Reads
import Jubilee.RackInput.Sequential
/-!
# Rack application — a request, from its arrival to the result

The application is any function of what it has seen: it calls methods of
its input and of its env in whatever order, and returns or raises in the
end. The body arrives while it runs. What the application sees is what
it would see if it ran on a body that was all there (`Follows.run`), so
two runs on one request see the same and end the same, however the body
was cut and whenever its chunks arrived (`Request.ended_alike`).
-/

namespace Jubilee

namespace RackApplication

open RackEnv (Op Answer RackEnvironmentHash)

variable {O : Type*} [DecidableEq O]

/-! ## Applications -/

/-- What an application has seen: the result of a call on its input, or
what a method of its env answered. -/
inductive Seen (O : Type*)
  | input (call : RackInput.Call) (result : RackInput.Result)
  | env (op : Op O) (answer : Answer O)

/-- What it does next. -/
inductive Todo (O : Type*)
  | input (call : RackInput.Call)
  | env (op : Op O)
  | finish (outcome : Outcome)

/-- **An application**: what it does next, by what it has seen, newest
first. A block that it gives to `each` calls neither the input nor the
env. -/
abbrev Program (O : Type*) := List (Seen O) → Todo O

/-- What it has seen, and the positions of the reader, which it does not
see. -/
inductive Entry (O : Type*)
  | input (e : RackInput.Event)
  | env (op : Op O) (answer : Answer O)

namespace Entry

def seen : Entry O → Seen O
  | .input e => .input e.call e.result
  | .env op answer => .env op answer

def event? : Entry O → Option RackInput.Event
  | .input e => some e
  | .env _ _ => none

end Entry

/-! ## A request in progress -/

/-- The input, the env, and the log of both. -/
structure Request (O : Type*) [DecidableEq O] where
  input : RackInput.Session
  env : RackEnvironmentHash O
  log : List (Entry O)

namespace Request

/-- What happens next: an arrival, a step of the call on the input that is
running, or the next thing the application does. -/
inductive Act
  | arrive (a : RackInput.Arrival)
  | step
  | next
  deriving DecidableEq

variable (io : RackInput.RubyIORackInput) (program : Program O)

/-- The body of the request, in chunks, and the env that was made for it. -/
def start (chunks : List Bytes) (env : RackEnvironmentHash O) : Request O :=
  ⟨.start chunks, env, []⟩

/-- The input after an act of its own, with the result it handed out if it
did. -/
def note (r : Request O) (input : RackInput.Session) : Request O :=
  { r with
    input := input
    log := (input.log.take (input.log.length - r.input.log.length)).map .input ++ r.log }

/-- What the application does next, when no call on the input is running. -/
def todo (r : Request O) : Option (Todo O) :=
  if r.input.running = .idle then some (program (r.log.map Entry.seen)) else none

/-- A method of the env is called. -/
def callEnv (r : Request O) (op : Op O) : Request O :=
  { r with env := (r.env.call op).2, log := .env op (r.env.call op).1 :: r.log }

/-- One act, if it is possible. -/
def act (r : Request O) : Act → Option (Request O)
  | .arrive a => (r.input.act io (.arrive a)).map r.note
  | .step => (r.input.act io .step).map r.note
  | .next =>
    match r.todo program with
    | some (.input c) => some (r.note (r.input.begin c))
    | some (.env op) => some (r.callEnv op)
    | some (.finish _) | none => none

/-- How the application ended, if it did. -/
def outcome (r : Request O) : Option Outcome :=
  match r.todo program with
  | some (.finish o) => some o
  | _ => none

/-- The outcome of a run, if each act of it is possible. -/
abbrev run (acts : List Act) (r : Request O) : Option (Request O) :=
  Run.play (act io program) acts r

/-- A stale exit of a `gets`. -/
def StaleAct (r : Request O) : Act → Prop
  | .step => r.input.StaleAct .step
  | _ => False

instance (r : Request O) (a : Act) : Decidable (r.StaleAct a) := by
  cases a with
  | step =>
    change Decidable (r.input.StaleAct .step)
    unfold RackInput.Session.StaleAct
    dsimp only
    split <;> infer_instance
  | arrive a | next => exact inferInstanceAs (Decidable False)

end Request

/-! ## The run on a body that is all there -/

/-- The results of the input in a log. -/
def events (log : List (Entry O)) : List RackInput.Event := log.filterMap Entry.event?

/-- The env after what a log says was done to it. -/
def envAfter (env : RackEnvironmentHash O) : List (Entry O) → RackEnvironmentHash O
  | [] => env
  | .input _ :: older => envAfter env older
  | .env op _ :: older => ((envAfter env older).call op).2

/-- The newest entry is a string that `each` yielded, and `each` goes on. -/
def inEach : List (Entry O) → Bool
  | .input ⟨.each, _, .ok (some _), _⟩ :: _ => true
  | _ => false

/-- What is done next after a log. -/
def nextTodo (program : Program O) (log : List (Entry O)) : Todo O :=
  if inEach log then .input .each else program (log.map Entry.seen)

/-- **The sequential run**: the next entry of a log, as the body and the
env determine it. -/
def sequential (program : Program O) (body : Bytes) (env : RackEnvironmentHash O)
    (log : List (Entry O)) : Option (Entry O) :=
  match nextTodo program log with
  | .input c => some (.input (RackInput.answer body (RackInput.position (events log)) c))
  | .env op => some (.env op ((envAfter env log).call op).1)
  | .finish _ => none

/-! ## Every run follows the sequential one -/

variable {io : RackInput.RubyIORackInput} {program : Program O} {body : Bytes}
  {hd : RackInput.Declares io body} {env : RackEnvironmentHash O} {r r' : Request O}
  {input : RackInput.Session}

omit [DecidableEq O] in
theorem inEach_input_eq_true {e : RackInput.Event} {log : List (Entry O)} :
    inEach (.input e :: log) = true ↔ e.call = .each ∧ ∃ s, e.result = .ok (some s) := by
  obtain ⟨c, p, result, q⟩ := e
  constructor
  · intro h
    unfold inEach at h
    split at h
    · rename_i heq
      cases heq
      exact ⟨rfl, _, rfl⟩
    · cases h
  · rintro ⟨rfl, s, rfl⟩
    rfl

theorem note_of_log_eq (h : input.log = r.input.log) :
    r.note input = { r with input := input } := by
  simp only [Request.note, h, Nat.sub_self, List.take_zero, List.map_nil, List.nil_append]

theorem note_of_log_cons {e : RackInput.Event} (h : input.log = e :: r.input.log) :
    r.note input = { r with input := input, log := .input e :: r.log } := by
  simp only [Request.note, h, List.length_cons, Nat.add_sub_cancel_left, List.take_succ_cons,
    List.take_zero, List.map_cons, List.map_nil, List.singleton_append]

/-- **The invariant**: the log is the sequential run's, the input and the
env are as the log says, and the call that is running is what the
application asked for. -/
structure Follows (hd : RackInput.Declares io body) (program : Program O)
    (env : RackEnvironmentHash O) (r : Request O) : Prop where
  written : Written (sequential program body env) r.log
  events : events r.log = r.input.log
  env : envAfter env r.log = r.env
  precise : RackInput.Precise hd r.input
  asked : ∀ c, r.input.running.call = some c → nextTodo program r.log = .input c
  idle : r.input.running = .idle → inEach r.log = false

namespace Follows

theorem start {chunks : List Bytes} (hbody : chunks.flatten = body)
    (hd : RackInput.Declares io body) (program : Program O) (env : RackEnvironmentHash O) :
    Follows hd program env (Request.start chunks env) := by
  subst hbody
  exact ⟨trivial, rfl, rfl, RackInput.precise_start chunks hd, nofun, fun _ => rfl⟩

/-- The answer to the call that was asked for is the sequential run's next
entry. -/
theorem sequential_eq (h : Follows hd program env r) {c : RackInput.Call}
    (hc : nextTodo program r.log = .input c) :
    sequential program body env r.log =
      some (.input (RackInput.answer body (RackInput.position r.input.log) c)) := by
  rw [sequential, hc, h.events]

/-- **An answer is noted**, and the call is over, or it is `each` and goes on. -/
theorem note_answer (h : Follows hd program env r) {c : RackInput.Call}
    (hc : nextTodo program r.log = .input c) (hp : RackInput.Precise hd input)
    (hlog : input.log = RackInput.answer body (RackInput.position r.input.log) c :: r.input.log)
    (hrunning : input.running =
      if c = .each then RackInput.Session.afterGets
        (RackInput.answer body (RackInput.position r.input.log) c).result
      else .idle) : Follows hd program env (r.note input) := by
  rw [note_of_log_cons hlog]
  generalize hanswer : RackInput.answer body (RackInput.position r.input.log) c = e at *
  have hcall : e.call = c := by rw [← hanswer, RackInput.call_answer]
  refine ⟨⟨by rw [h.sequential_eq hc, hanswer], h.written⟩, ?_, h.env, hp, fun c' hc' => ?_,
    fun hidle => ?_⟩
  · change e :: RackApplication.events r.log = input.log
    rw [h.events, hlog]
  · -- the call that is running is `each`, after a string
    change input.running.call = some c' at hc'
    rw [hrunning] at hc'
    by_cases heach : c = .each
    · rw [if_pos heach] at hc'
      unfold RackInput.Session.afterGets at hc'
      split at hc'
      · obtain rfl := Option.some.inj hc'
        rw [nextTodo, if_pos (inEach_input_eq_true.mpr ⟨hcall.trans heach, _, ‹_›⟩)]
      · cases hc'
    · rw [if_neg heach] at hc'
      cases hc'
  · change input.running = .idle at hidle
    rw [hrunning] at hidle
    refine Bool.eq_false_iff.mpr fun heach => ?_
    obtain ⟨hceach, s, hs⟩ := inEach_input_eq_true.mp heach
    rw [if_pos (hcall.symm.trans hceach), hs] at hidle
    cases hidle

/-- An arrival, or a step of the call that is running. -/
theorem note (h : Follows hd program env r) (hp : RackInput.Precise hd input)
    (hands : RackInput.Hands body r.input input) : Follows hd program env (r.note input) := by
  cases hands with
  | nothing hlog hcall =>
    -- the call that is running is the one that was asked for before
    rw [note_of_log_eq hlog]
    refine ⟨h.written, h.events.trans hlog.symm, h.env, hp, fun c hc => h.asked c ?_,
      fun hidle => ?_⟩
    · exact hcall.symm.trans hc
    · refine h.idle (RackInput.Running.call_eq_none_iff.mp (hcall.symm.trans ?_))
      exact RackInput.Running.call_eq_none_iff.mpr hidle
  | answer c hlog hcall hrunning => exact h.note_answer (h.asked c hcall) hp hlog hrunning

theorem nextTodo_of_todo (h : Follows hd program env r) {t : Todo O}
    (ht : r.todo program = some t) : r.input.running = .idle ∧ nextTodo program r.log = t := by
  obtain ⟨hidle, ht⟩ := Option.ite_none_right_eq_some.mp ht
  rw [nextTodo, h.idle hidle]
  exact ⟨hidle, Option.some.inj ht⟩

/-- A call on the input is begun. -/
theorem begin (h : Follows hd program env r) {c : RackInput.Call}
    (ht : r.todo program = some (.input c)) :
    Follows hd program env (r.note (r.input.begin c)) := by
  obtain ⟨hidle, hnext⟩ := h.nextTodo_of_todo ht
  obtain ⟨hp, ⟨hlog, hcall⟩ | ⟨hlog, hrunning, hne⟩⟩ := RackInput.precise_begin h.precise hidle c
  · -- it is running now, and has no result yet
    rw [note_of_log_eq hlog]
    refine ⟨h.written, h.events.trans hlog.symm, h.env, hp, fun c' hc' => ?_, fun hidle' => ?_⟩
    · obtain rfl := Option.some.inj (hcall.symm.trans hc')
      exact hnext
    · have hnone := RackInput.Running.call_eq_none_iff.mpr hidle'
      cases hcall.symm.trans hnone
  · exact h.note_answer hnext hp hlog (by rw [hrunning, if_neg hne])

/-- A method of the env is called. -/
theorem callEnv (h : Follows hd program env r) {op : Op O} (ht : r.todo program = some (.env op)) :
    Follows hd program env (r.callEnv op) := by
  obtain ⟨hidle, hnext⟩ := h.nextTodo_of_todo ht
  refine ⟨⟨?_, h.written⟩, h.events, ?_, h.precise, fun c hc => ?_, fun _ => rfl⟩
  · rw [sequential, hnext, h.env]
  · rw [Request.callEnv, envAfter, h.env]
  · rw [show (r.callEnv op).input = r.input from rfl, hidle] at hc
    cases hc

/-- **An act** that is no stale exit keeps to the sequential run. -/
theorem act (h : Follows hd program env r) {a : Request.Act} (ha : r.act io program a = some r')
    (hstale : ¬ r.StaleAct a) : Follows hd program env r' := by
  cases a with
  | arrive a =>
    obtain ⟨input, hinput, rfl⟩ := Option.map_eq_some_iff.mp ha
    obtain ⟨u, hu, rfl⟩ := Option.map_eq_some_iff.mp hinput
    exact h.note (RackInput.precise_arrive h.precise hu) (.nothing rfl rfl)
  | step =>
    obtain ⟨input, hinput, rfl⟩ := Option.map_eq_some_iff.mp ha
    obtain ⟨hp, hands⟩ := RackInput.precise_advance h.precise hinput hstale
    exact h.note hp hands
  | next =>
    rw [Request.act] at ha
    split at ha
    · obtain rfl := Option.some.inj ha
      exact h.begin ‹_›
    · obtain rfl := Option.some.inj ha
      exact h.callEnv ‹_›
    · cases ha
    · cases ha

/-- What has ended has nothing to add to the log. -/
theorem sequential_eq_none (h : Follows hd program env r) {o : Outcome}
    (ho : r.outcome program = some o) :
    sequential program body env r.log = none ∧ nextTodo program r.log = .finish o := by
  have ht : r.todo program = some (.finish o) := by
    unfold Request.outcome at ho
    split at ho
    · rwa [← Option.some.inj ho]
    · cases ho
  have hnext := (h.nextTodo_of_todo ht).2
  exact ⟨by rw [sequential, hnext], hnext⟩

end Follows

/-- A run without a stale exit. -/
abbrev Request.FreshRun (io : RackInput.RubyIORackInput) (program : Program O)
    (acts : List Request.Act) (r : Request O) : Prop :=
  ∀ v ∈ Run.taken (Request.act io program) acts r, ¬ v.1.StaleAct v.2

/-- **Every run without a stale exit follows the sequential one.** -/
theorem Follows.run (h : Follows hd program env r) {acts : List Request.Act}
    (hrun : r.run io program acts = some r') (hfresh : r.FreshRun io program acts) :
    Follows hd program env r' :=
  Run.preserves_of_taken (fun _ _ _ h ha hstale => h.act ha hstale) h hrun hfresh

/-- Two requests that follow one sequential run and have ended are alike. -/
theorem Follows.alike (h : Follows hd program env r) (h' : Follows hd program env r')
    {o o' : Outcome} (ho : r.outcome program = some o) (ho' : r'.outcome program = some o') :
    r.log = r'.log ∧ r.env = r'.env ∧ o = o' := by
  obtain ⟨hend, hnext⟩ := h.sequential_eq_none ho
  obtain ⟨hend', hnext'⟩ := h'.sequential_eq_none ho'
  have hlog := h.written.eq_of_ended h'.written hend hend'
  refine ⟨hlog, by rw [← h.env, ← h'.env, hlog], ?_⟩
  rw [hlog, hnext'] at hnext
  cases hnext
  rfl

/-- **Two runs of an application on one request** see the same as far as
they both go, and end the same, however the body was cut into chunks,
whenever these arrived and whatever the application calls in what order,
unless a `gets` takes a stale exit. -/
theorem Request.ended_alike {hdr : Option JString} {chunks chunks' : List Bytes}
    (hio : RackInput.Serves hdr chunks.flatten io) (hbody : chunks'.flatten = chunks.flatten)
    (program : Program O) (env : RackEnvironmentHash O) {acts acts' : List Request.Act}
    {r r' : Request O} (hrun : (Request.start chunks env).run io program acts = some r)
    (hrun' : (Request.start chunks' env).run io program acts' = some r')
    (hfresh : (Request.start chunks env).FreshRun io program acts)
    (hfresh' : (Request.start chunks' env).FreshRun io program acts') :
    (r.log <:+ r'.log ∨ r'.log <:+ r.log) ∧
      ∀ o o', r.outcome program = some o → r'.outcome program = some o' →
        r.log = r'.log ∧ r.env = r'.env ∧ o = o' := by
  have h := (Follows.start rfl hio.declares program env).run hrun hfresh
  have h' := (Follows.start hbody hio.declares program env).run hrun' hfresh'
  exact ⟨h.written.suffix_or_suffix h'.written, fun o o' ho ho' => h.alike h' ho ho'⟩

/-- An application that takes a line from its input, looks into its env,
takes the rest of the input, and raises. -/
def lineThenRest : Program ℕ
  | [] => .input .gets
  | [_] => .env (.hasKeyP (.other 0))
  | [_, _] => .input .readAll
  | _ => .finish (.raises (.other false))

/-- It runs while `"A\nB"` arrives in two chunks. -/
def meanwhile : List Request.Act :=
  [.next, .step, .step, .arrive .data, .step, .step, .step, .step, .arrive .data, .step, .step,
    .next, .arrive .finish, .next] ++ List.replicate 5 .step

/-- It runs when the body is there, in one. -/
def afterwards : List Request.Act :=
  [.arrive .data, .arrive .finish, .next] ++ List.replicate 4 .step ++ [.next, .next] ++
    List.replicate 5 .step

/-- A request with that body. -/
def requestOf (chunks : List Bytes) : Request ℕ := .start chunks (.new RackEnv.noHeaders)

theorem ended_alike_lineThenRest :
    ∃ r r', (requestOf [[65], [10, 66]]).run ⟨0, true⟩ lineThenRest meanwhile = some r ∧
      (requestOf [[65, 10, 66]]).run ⟨0, true⟩ lineThenRest afterwards = some r' ∧
      r.log = r'.log := by
  have hends : (((requestOf [[65], [10, 66]]).run ⟨0, true⟩ lineThenRest meanwhile).bind
      (Request.outcome lineThenRest)).isSome = true := rfl
  have hends' : (((requestOf [[65, 10, 66]]).run ⟨0, true⟩ lineThenRest afterwards).bind
      (Request.outcome lineThenRest)).isSome = true := rfl
  obtain ⟨o, ho⟩ := Option.isSome_iff_exists.mp hends
  obtain ⟨o', ho'⟩ := Option.isSome_iff_exists.mp hends'
  obtain ⟨r, hrun, ho⟩ := Option.bind_eq_some_iff.mp ho
  obtain ⟨r', hrun', ho'⟩ := Option.bind_eq_some_iff.mp ho'
  have hfresh : (requestOf [[65], [10, 66]]).FreshRun ⟨0, true⟩ lineThenRest meanwhile := by decide
  have hfresh' : (requestOf [[65, 10, 66]]).FreshRun ⟨0, true⟩ lineThenRest afterwards := by decide
  have hio : RackInput.Serves none ([[65], [10, 66]] : List Bytes).flatten ⟨0, true⟩ := .absent _
  have hbody : ([[65, 10, 66]] : List Bytes).flatten = ([[65], [10, 66]] : List Bytes).flatten :=
    rfl
  have halike := Request.ended_alike hio hbody lineThenRest _ hrun hrun' hfresh hfresh'
  exact ⟨r, r', hrun, hrun', (halike.2 o o' ho ho').1⟩

end RackApplication

end Jubilee
