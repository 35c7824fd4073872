import Jubilee.RackInput.Gets
import Jubilee.RackInput.Read
/-!
# Rack input — a session of calls

One application thread calls the methods of its input in any order while
the body arrives. The session keeps a log of every result handed out,
with the reader position before and after it. `session_faithful` is what
the log says on every interleaving: each result is the body's bytes
between its two positions, results follow on from one another, and what
was handed out since the last `rewind` is a prefix of the body. And a
call comes to its end: after the end of the body was signalled it goes on
by the application's own steps (`exists_run_idle`).
-/

namespace Jubilee

namespace RackInput

/-- A call on the input, without a destination buffer. -/
inductive Call
  | gets
  | read (n : ℕ)
  | readAll
  | each
  | rewind
  deriving DecidableEq

/-- One result: the call it is of, the result, and the reader's position
before and after it. `each` has one for every string it yields and one
for the `nil` it ends with. -/
structure Event where
  call : Call
  before : ℕ
  result : Result
  after : ℕ
  deriving DecidableEq

/-- What the application thread is doing. -/
inductive Running
  | idle
  | gets (k : Gets)
  | read (c : Call) (args : ReadArgs) (k : Read)
  | each (k : Gets)
  deriving DecidableEq

/-- The body, the thread, the position at which the result in progress
was begun, and the results so far, newest first. -/
structure Session where
  upload : Upload
  running : Running
  mark : ℕ
  log : List Event
  deriving DecidableEq

/-- What happens next. -/
inductive Act
  | arrive (a : Arrival)
  | call (c : Call)
  | step
  deriving DecidableEq

namespace Session

variable (io : RubyIORackInput)

def start (chunks : List Bytes) : Session := ⟨.start chunks, .idle, 0, []⟩

/-- A result is handed out, with the upload as `u` leaves it. -/
def record (s : Session) (c : Call) (r : Result) (u : Upload) (next : Running) : Session where
  upload := u
  running := next
  mark := u.bodyBuf.readerIndex
  log := ⟨c, s.mark, r, u.bodyBuf.readerIndex⟩ :: s.log

/-- The step of `each` after a result of its `gets`: a string is yielded,
and the loop goes on; on `nil` it is left. -/
def afterGets : Result → Running
  | .ok (some _) => .each Gets.entry
  | _ => .idle

/-- A call is begun. -/
def begin (s : Session) (c : Call) : Session :=
  match c with
  | .gets => { s with running := .gets Gets.entry }
  | .read n => { s with running := .read c (.length (.int n)) Read.entry }
  | .readAll => { s with running := .read c .none Read.entry }
  | .each => { s with running := .each Gets.entry }
  | .rewind => s.record .rewind (.ok none) (rewind s.upload) .idle

/-- The call goes on, or its result is handed out. -/
def resume {κ : Type} (s : Session) (c : Call) (into : κ → Running) (next : Result → Running) :
    Next κ Result × Upload → Session
  | (.goto k, u) => { s with upload := u, running := into k }
  | (.done r, u) => s.record c r u (next r)

/-- One step of the call that is running. -/
def advance (s : Session) : Option Session :=
  match s.running with
  | .idle => none
  | .gets k => some (s.resume .gets .gets (fun _ => .idle) ((gets io).step k s.upload))
  | .read c args k =>
    some (s.resume c (.read c args) (fun _ => .idle) ((read io args).step k s.upload))
  | .each k => some (s.resume .each .each afterGets ((gets io).step k s.upload))

/-- One act, if it is possible. -/
def act (s : Session) : Act → Option Session
  | .arrive a => (arrive a s.upload).map fun u => { s with upload := u }
  | .call c => if s.running = .idle then some (s.begin c) else none
  | .step => s.advance io

/-- A run of acts. -/
def run : List Act → Session → Option Session
  | [], s => some s
  | a :: as, s => (s.act io a).bind (run as)

end Session

/-! ## What an act does -/

section

variable {io : RubyIORackInput} {s s' s₁ : Session}

theorem advance_of_gets {k : Gets} (h : s.running = .gets k) :
    s.advance io = some (s.resume .gets .gets (fun _ => .idle) ((gets io).step k s.upload)) := by
  rw [Session.advance, h]

theorem advance_of_read {c : Call} {args : ReadArgs} {k : Read} (h : s.running = .read c args k) :
    s.advance io =
      some (s.resume c (.read c args) (fun _ => .idle) ((read io args).step k s.upload)) := by
  rw [Session.advance, h]

theorem advance_of_each {k : Gets} (h : s.running = .each k) :
    s.advance io = some (s.resume .each .each Session.afterGets ((gets io).step k s.upload)) := by
  rw [Session.advance, h]

/-- A step is one of the method that is running. -/
theorem advance_cases (h : s.advance io = some s') :
    (∃ k, s.running = .gets k ∧
      s' = s.resume .gets .gets (fun _ => .idle) ((gets io).step k s.upload)) ∨
    (∃ k, s.running = .each k ∧
      s' = s.resume .each .each Session.afterGets ((gets io).step k s.upload)) ∨
    ∃ c args k, s.running = .read c args k ∧
      s' = s.resume c (.read c args) (fun _ => .idle) ((read io args).step k s.upload) := by
  cases hrunning : s.running with
  | idle => simp [Session.advance, hrunning] at h
  | gets k =>
    rw [advance_of_gets hrunning] at h
    exact Or.inl ⟨k, rfl, (Option.some.inj h).symm⟩
  | each k =>
    rw [advance_of_each hrunning] at h
    exact Or.inr (Or.inl ⟨k, rfl, (Option.some.inj h).symm⟩)
  | read c args k =>
    rw [advance_of_read hrunning] at h
    exact Or.inr (Or.inr ⟨c, args, k, rfl, (Option.some.inj h).symm⟩)

/-- An act is an arrival, the begin of a call, or a step of the one that is
running. -/
theorem act_cases {a : Act} (h : s.act io a = some s') :
    (∃ b u, a = .arrive b ∧ arrive b s.upload = some u ∧
      s' = { s with upload := u }) ∨
    (∃ c, a = .call c ∧ s.running = .idle ∧ s' = s.begin c) ∨
    a = .step ∧ s.advance io = some s' := by
  cases a with
  | arrive b =>
    obtain ⟨u, hb, hs⟩ := Option.map_eq_some_iff.mp h
    exact Or.inl ⟨b, u, rfl, hb, hs.symm⟩
  | call c =>
    obtain ⟨hidle, hs⟩ := Option.ite_none_right_eq_some.mp h
    exact Or.inr (Or.inl ⟨c, rfl, hidle, (Option.some.inj hs).symm⟩)
  | step => exact Or.inr (Or.inr ⟨rfl, h⟩)

/-- **What every act preserves**, a run preserves. -/
theorem run_preserves {P : Session → Prop} {acts : List Act}
    (hact : ∀ a ∈ acts, ∀ s s', P s → s.act io a = some s' → P s') (h : P s)
    (hs : s.run io acts = some s') : P s' := by
  induction acts generalizing s with
  | nil =>
    obtain rfl := Option.some.inj hs
    exact h
  | cons a acts ih =>
    obtain ⟨s₁, ha, hs⟩ := Option.bind_eq_some_iff.mp hs
    obtain ⟨hfirst, hacts⟩ := List.forall_mem_cons.mp hact
    exact ih hacts (hfirst s s₁ h ha) hs

/-- A run goes on from where another left the session. -/
theorem run_append {as bs : List Act} (h : s.run io as = some s₁) :
    s.run io (as ++ bs) = s₁.run io bs := by
  induction as generalizing s with
  | nil =>
    obtain rfl := Option.some.inj h
    rfl
  | cons a as ih =>
    obtain ⟨s₂, ha, h⟩ := Option.bind_eq_some_iff.mp h
    rw [List.cons_append, Session.run, ha, Option.bind_some, ih h]

end

/-! ## What a log says -/

/-- The bytes a result hands out. -/
def bytesOf : Result → Bytes
  | .ok (some b) => b
  | _ => []

/-- The position after the newest result. -/
def position : List Event → ℕ
  | [] => 0
  | e :: _ => e.after

/-- Each result begins where the one before it ended. -/
def Chained : List Event → Prop
  | [] => True
  | e :: older => e.before = position older ∧ Chained older

/-- What was handed out since the last `rewind`. -/
def gathered : List Event → Bytes
  | [] => []
  | e :: older => if e.call = .rewind then [] else gathered older ++ bytesOf e.result

/-- A result is the body's bytes between its two positions. -/
structure Handed (body : Bytes) (e : Event) : Prop where
  le : e.before ≤ e.after
  after_le : e.after ≤ body.length
  bytes : bytesOf e.result = slice body e.before e.after

/-- **A faithful result.** It is the body's bytes between its positions;
`read n` returns `n` of them, or as many as are left, and `read` all that
are left. Where bytes are left and `n` is no Java `int`, `read n` raises
and hands out nothing. `rewind` goes back to the start. -/
def Faithful (body : Bytes) (e : Event) : Prop :=
  match e.call with
  | .gets => Handed body e ∧ ∃ o, e.result = .ok o
  | .each => Handed body e ∧ ∃ o, e.result = .ok o
  | .read n => Handed body e ∧
      if e.before < body.length ∧ maxInt < (n : ℤ) then
        e.result = .error .rangeError ∧ e.after = e.before
      else ∃ b, e.result = .ok (some b) ∧ b.length = min n (body.length - e.before)
  | .readAll => Handed body e ∧ (∃ o, e.result = .ok o) ∧ e.after = body.length
  | .rewind => e.after = 0

variable {io : RubyIORackInput} {body : Bytes} {p : ℕ} {r : Result} {u : Upload}

/-- The results of `gets`, in a call of its own or of `each`. -/
theorem handed_gets (c : Call) (h : GetsPost body p (fun _ => True) r u) :
    (Handed body ⟨c, p, r, u.bodyBuf.readerIndex⟩ ∧ ∃ o, r = .ok o) ∧
      At body u.bodyBuf.readerIndex u := by
  rcases h with ⟨rfl, hp, hat⟩ | ⟨q, hq, -, rfl, hat⟩
  · rw [hat.position]
    exact ⟨⟨⟨le_rfl, hp.le, (slice_self _ _).symm⟩, _, rfl⟩, hat⟩
  · rw [hat.position]
    exact ⟨⟨⟨hq.le, hat.le_length, rfl⟩, _, rfl⟩, hat⟩

/-- The result of `read n`. -/
theorem faithful_read {n : ℕ} (hp : p ≤ body.length)
    (h : ReadPost body p (.length (.int n)) r u) :
    Faithful body ⟨.read n, p, r, u.bodyBuf.readerIndex⟩ ∧ At body u.bodyBuf.readerIndex u := by
  obtain ⟨q, hr, hat⟩ := h
  rw [hat.position]
  refine ⟨?_, hat⟩
  have hle := hat.le_length
  rcases eq_or_lt_of_le hp with hend | hlt
  · rw [readAt_of_end hend] at hr
    obtain ⟨rfl, rfl⟩ := Prod.mk.inj hr
    refine ⟨⟨le_rfl, hle, (slice_self _ _).symm⟩, ?_⟩
    rw [if_neg (by simp only; omega)]
    exact ⟨[], rfl, by simp [hend]⟩
  · rw [readAt, if_neg hlt.ne] at hr
    by_cases hn : (n : ℤ) ≤ maxInt
    · simp only [num2int_int hn, readAt.upTo, if_neg (by omega : ¬ (n : ℤ) < 0),
        Int.toNat_natCast, List.nil_append] at hr
      obtain ⟨rfl, rfl⟩ := Prod.mk.inj hr
      refine ⟨⟨by simp only; omega, hle, rfl⟩, ?_⟩
      rw [if_neg (by omega)]
      exact ⟨_, rfl, by rw [length_slice hle]; simp only; omega⟩
    · have hgt : maxInt < (n : ℤ) := by omega
      simp only [num2int_int_of_gt hgt, readAt.upTo] at hr
      obtain ⟨rfl, rfl⟩ := Prod.mk.inj hr
      refine ⟨⟨le_rfl, hle, (slice_self _ _).symm⟩, ?_⟩
      rw [if_pos ⟨hlt, hgt⟩]
      exact ⟨rfl, rfl⟩

/-- The result of `read` with no length. -/
theorem faithful_readAll (hp : p ≤ body.length) (h : ReadPost body p .none r u) :
    Faithful body ⟨.readAll, p, r, u.bodyBuf.readerIndex⟩ ∧ At body u.bodyBuf.readerIndex u := by
  obtain ⟨q, hr, hat⟩ := h
  rw [hat.position]
  refine ⟨?_, hat⟩
  rcases eq_or_lt_of_le hp with hend | hlt
  · rw [readAt_of_end hend] at hr
    obtain ⟨rfl, rfl⟩ := Prod.mk.inj hr
    exact ⟨⟨le_rfl, hat.le_length, (slice_self _ _).symm⟩, ⟨_, rfl⟩, hend⟩
  · rw [readAt, if_neg hlt.ne] at hr
    obtain ⟨rfl, rfl⟩ := Prod.mk.inj hr
    exact ⟨⟨hlt.le, le_rfl, (slice_of_length_le le_rfl).symm⟩, ⟨_, rfl⟩, rfl⟩

/-! ## The invariant of a session -/

/-- What a log is to satisfy. -/
structure GoodLog (body : Bytes) (log : List Event) : Prop where
  faithful : ∀ e ∈ log, Faithful body e
  chained : Chained log
  gathered : gathered log = body.take (position log)

/-- Every result but that of `rewind` is a slice. -/
theorem Faithful.handed {e : Event} (h : Faithful body e) (hne : e.call ≠ .rewind) :
    Handed body e := by
  unfold Faithful at h
  split at h
  · exact h.1
  · exact h.1
  · exact h.1
  · exact h.1
  · exact absurd ‹_› hne

/-- **A faithful result extends a good log**, if it begins where the log
ends. -/
theorem GoodLog.cons {log : List Event} {e : Event} (h : GoodLog body log)
    (he : Faithful body e) (hbefore : e.before = position log) : GoodLog body (e :: log) := by
  refine ⟨fun e' he' => ?_, ⟨hbefore, h.chained⟩, ?_⟩
  · rcases List.mem_cons.mp he' with rfl | he'
    · exact he
    · exact h.faithful e' he'
  · by_cases hc : e.call = .rewind
    · have hafter : e.after = 0 := by
        unfold Faithful at he
        rwa [hc] at he
      rw [Jubilee.RackInput.gathered, if_pos hc, position, hafter, List.take_zero]
    · obtain ⟨hle, -, hbytes⟩ := he.handed hc
      rw [Jubilee.RackInput.gathered, if_neg hc, h.gathered, hbytes, ← hbefore, position,
        ← slice_zero, ← slice_zero, slice_append_slice body (Nat.zero_le _) hle]

/-- What holds of the running thread: its outline, for the position the
log has reached. -/
def RunningHolds (hd : Declares io body) (p : ℕ) : Running → Upload → Prop
  | .idle, u => At body p u
  | .gets k, u => (getsAnyOutline hd p).holds k u
  | .read c args k, u => (readOutline hd p args).holds k u ∧
      ((∃ n : ℕ, c = .read n ∧ args = .length (.int n)) ∨ (c = .readAll ∧ args = .none))
  | .each k, u => (getsAnyOutline hd p).holds k u

/-- **The invariant**: the log is good, and the running thread works from
the position the log has reached. -/
structure Inv (hd : Declares io body) (s : Session) : Prop where
  log : GoodLog body s.log
  position_le : position s.log ≤ body.length
  mark : s.mark = position s.log
  running : RunningHolds hd (position s.log) s.running s.upload

variable {hd : Declares io body} {s : Session}

theorem inv_start (chunks : List Bytes) (hd : Declares io chunks.flatten) :
    Inv hd (Session.start chunks) :=
  ⟨⟨fun _ he => by simp [Session.start] at he, trivial, rfl⟩, Nat.zero_le _, rfl, At.start chunks⟩

/-- A faithful result is recorded, and the thread goes on from where it
left the reader. -/
theorem inv_record (h : Inv hd s) {c : Call} {next : Running}
    (he : Faithful body ⟨c, s.mark, r, u.bodyBuf.readerIndex⟩)
    (hat : At body u.bodyBuf.readerIndex u)
    (hnext : RunningHolds hd u.bodyBuf.readerIndex next u) : Inv hd (s.record c r u next) :=
  ⟨h.log.cons he h.mark, hat.le_length, rfl, hnext⟩

theorem inv_begin (h : Inv hd s) (hidle : s.running = .idle) (c : Call) : Inv hd (s.begin c) := by
  have hat : At body (position s.log) s.upload := by
    have hr := h.running
    rwa [hidle] at hr
  cases c with
  | gets => exact ⟨h.log, h.position_le, h.mark, hat⟩
  | read n => exact ⟨h.log, h.position_le, h.mark, hat, Or.inl ⟨n, rfl, rfl⟩⟩
  | readAll => exact ⟨h.log, h.position_le, h.mark, hat, Or.inr ⟨rfl, rfl⟩⟩
  | each => exact ⟨h.log, h.position_le, h.mark, hat⟩
  | rewind => exact inv_record h rfl hat.rewind hat.rewind

/-- What is left of `each` after a result of its `gets`. -/
theorem runningHolds_afterGets (hat : At body p u) :
    RunningHolds hd p (Session.afterGets r) u := by
  unfold Session.afterGets
  split
  · exact hat
  · exact hat

/-- **A step of the running method**, whichever it is: it goes on, or its
result is recorded. -/
theorem inv_resume {κ : Type} {holds : κ → Upload → Prop} {post : Result → Upload → Prop}
    {c : Call} {into : κ → Running} {next : Result → Running} {n : Next κ Result × Upload}
    (h : Inv hd s) (hmet : Meets holds post n)
    (hgoto : ∀ k u, holds k u → RunningHolds hd (position s.log) (into k) u)
    (hdone : ∀ r u, post r u →
      (Faithful body ⟨c, position s.log, r, u.bodyBuf.readerIndex⟩ ∧
        At body u.bodyBuf.readerIndex u) ∧ RunningHolds hd u.bodyBuf.readerIndex (next r) u) :
    Inv hd (s.resume c into next n) := by
  obtain ⟨k | r, u⟩ := n
  · exact ⟨h.log, h.position_le, h.mark, hgoto k u hmet⟩
  · obtain ⟨⟨he, hat⟩, hnext⟩ := hdone r u hmet
    exact inv_record h (by rw [h.mark]; exact he) hat hnext

theorem inv_advance (h : Inv hd s) {s' : Session} (hs : s.advance io = some s') : Inv hd s' := by
  have hrun := h.running
  obtain ⟨k, hrunning, rfl⟩ | ⟨k, hrunning, rfl⟩ | ⟨c, args, k, hrunning, rfl⟩ := advance_cases hs
  · rw [hrunning] at hrun
    have hmet := (getsAnyOutline hd (position s.log)).step hrun trivial
    refine inv_resume h hmet (fun _ _ hk => hk) fun r u' hpost => ?_
    have hfaith := handed_gets .gets hpost
    exact ⟨hfaith, hfaith.2⟩
  · -- the same thread, and after a string the loop goes on
    rw [hrunning] at hrun
    have hmet := (getsAnyOutline hd (position s.log)).step hrun trivial
    refine inv_resume h hmet (fun _ _ hk => hk) fun r u' hpost => ?_
    have hfaith := handed_gets .each hpost
    exact ⟨hfaith, runningHolds_afterGets hfaith.2⟩
  · rw [hrunning] at hrun
    obtain ⟨hk, hargs⟩ := hrun
    have hmet := (readOutline hd (position s.log) args).step hk trivial
    refine inv_resume h hmet (fun _ _ hk' => ⟨hk', hargs⟩) fun r u' hpost => ?_
    have hfaith : Faithful body ⟨c, position s.log, r, u'.bodyBuf.readerIndex⟩ ∧
        At body u'.bodyBuf.readerIndex u' := by
      rcases hargs with ⟨n, rfl, rfl⟩ | ⟨rfl, rfl⟩
      · exact faithful_read h.position_le hpost
      · exact faithful_readAll h.position_le hpost
    exact ⟨hfaith, hfaith.2⟩

/-- An arrival disturbs no running thread. -/
theorem inv_arrive (h : Inv hd s) {a : Arrival} (ha : arrive a s.upload = some u) :
    Inv hd { s with upload := u } := by
  obtain ⟨u₀, running, mark, log⟩ := s
  obtain ⟨hlog, hle, hmark, hrun⟩ := h
  refine ⟨hlog, hle, hmark, ?_⟩
  cases running with
  | idle => exact At.arrive hrun ha
  | gets k => exact (getsAnyOutline hd _).holds_env hrun ha
  | read c args k => exact ⟨(readOutline hd _ _).holds_env hrun.1 ha, hrun.2⟩
  | each k => exact (getsAnyOutline hd _).holds_env hrun ha

theorem inv_act (h : Inv hd s) {a : Act} {s' : Session} (hs : s.act io a = some s') :
    Inv hd s' := by
  obtain ⟨b, u, -, hb, rfl⟩ | ⟨c, -, hidle, rfl⟩ | ⟨-, hs⟩ := act_cases hs
  · exact inv_arrive h hb
  · exact inv_begin h hidle c
  · exact inv_advance h hs

theorem inv_run (h : Inv hd s) {acts : List Act} {s' : Session}
    (hs : s.run io acts = some s') : Inv hd s' :=
  run_preserves (fun _ _ _ _ h ha => inv_act h ha) h hs

/-! ## Every call comes to an end -/

/-- A method that ends hands out its result, by steps of its own. -/
theorem run_of_ends (io : RubyIORackInput) {κ : Type} {T : Thread Upload κ Result}
    {guard : κ → Upload → Prop} {Q : Result → Upload → Prop} (c : Call) (into : κ → Running)
    (next : Result → Running)
    (hadvance : ∀ (s : Session) k, s.running = into k →
      s.advance io = some (s.resume c into next (T.step k s.upload)))
    {n : Next κ Result × Upload} (h : T.Ends guard Q n) (s : Session) :
    ∃ m r u, (s.resume c into next n).run io (List.replicate m .step) =
      some (s.record c r u (next r)) ∧ Q r u := by
  induction h with
  | @done r u hQ => exact ⟨0, r, u, rfl, hQ⟩
  | @step k u hg _ ih =>
    obtain ⟨m, r, u', hrun, hQ⟩ := ih
    refine ⟨m + 1, r, u', ?_, hQ⟩
    have hagain : ({ s with upload := u, running := into k } : Session).resume c into next
        (T.step k u) = s.resume c into next (T.step k u) := by
      rcases T.step k u with ⟨k' | r', u'⟩
      · rfl
      · rfl
    rw [List.replicate_succ, Session.run, Session.act, Session.resume, hadvance _ k rfl, hagain]
    exact hrun

/-- **Once the end was signalled the call that is running comes to its
end**, by steps of the application alone. -/
theorem exists_run_idle (h : Inv hd s) (he : s.upload.eof = true) :
    ∃ m s', s.run io (List.replicate m .step) = some s' ∧ s'.running = .idle := by
  induction hm : body.length - position s.log using Nat.strong_induction_on generalizing s with
  | _ t ih =>
    subst hm
    obtain ⟨u, running, mark, log⟩ := s
    have hrun : RunningHolds hd (position log) running u := h.running
    cases running with
    | idle => exact ⟨0, _, rfl, rfl⟩
    | gets k =>
      obtain ⟨m, r, u', hplay, -⟩ := run_of_ends io .gets .gets (fun _ => .idle)
        (fun _ _ => advance_of_gets) (gets_ends he k) ⟨u, .gets k, mark, log⟩
      exact ⟨m, _, hplay, rfl⟩
    | read c args k =>
      obtain ⟨q, hat⟩ := hrun.1.exists_at
      obtain ⟨m, r, u', hplay, -⟩ := run_of_ends io c (.read c args) (fun _ => .idle)
        (fun _ _ => advance_of_read) (read_ends he (hat.length_le_of_declares hd) k)
        ⟨u, .read c args k, mark, log⟩
      exact ⟨m, _, hplay, rfl⟩
    | each k =>
      obtain ⟨m, r, u', hplay, he', hpost⟩ := run_of_ends io .each .each Session.afterGets
        (fun _ _ => advance_of_each)
        ((gets_ends he k).and_post (getsAnyOutline hd (position log)) hrun)
        ⟨u, .each k, mark, log⟩
      rcases hpost with ⟨rfl, -, -⟩ | ⟨q, hq, -, rfl, hat⟩
      · exact ⟨m, _, hplay, rfl⟩
      · -- a string was yielded, and less of the body is left
        have hle := hat.le_length
        have hlt : body.length - u'.bodyBuf.readerIndex < body.length - position log := by
          rw [hat.position]; omega
        obtain ⟨m', s', hplay', hidle⟩ := ih _ hlt (inv_run h hplay) he' rfl
        refine ⟨m + m', s', ?_, hidle⟩
        rw [List.replicate_add]
        exact (run_append hplay).trans hplay'

/-- **A rack input is a faithful cursor over the body**, for every
chunking, every interleaving of the arrivals with the steps of the
calls, and every sequence of calls: each result is the body's bytes
between its two positions, each begins where the one before it ended,
and together those since the last `rewind` are the body up to the
position. Once the end was signalled, steps of the application alone
bring the call that is running to its end. -/
theorem session_faithful {hdr : Option JString} (chunks : List Bytes)
    (hio : Serves hdr chunks.flatten io) {acts : List Act} {s : Session}
    (hrun : (Session.start chunks).run io acts = some s) :
    (∀ e ∈ s.log, Faithful chunks.flatten e) ∧ Chained s.log ∧
      gathered s.log = chunks.flatten.take (position s.log) ∧
      (s.upload.eof = true →
        ∃ m s', s.run io (List.replicate m .step) = some s' ∧ s'.running = .idle) := by
  have h := inv_run (inv_start chunks hio.declares) hrun
  exact ⟨h.log.faithful, h.log.chained, h.log.gathered, exists_run_idle h⟩

/-- The body `"A\nB"` in two chunks, and a call of each kind. -/
def smallSession : List Act :=
  [.arrive .data, .arrive .data, .arrive .finish, .call .gets, .step, .step, .step, .step,
    .call (.read 5), .step, .step, .step, .step, .step, .step, .step, .step, .step, .step,
    .call .rewind]

/-- The log it leaves: a line, the rest, and the `rewind`. -/
def smallLog : List Event :=
  [⟨.rewind, 3, .ok none, 0⟩, ⟨.read 5, 2, .ok (some [66]), 3⟩,
    ⟨.gets, 0, .ok (some [65, 10]), 2⟩]

theorem session_faithful_small :
    (∀ e ∈ smallLog, Faithful [65, 10, 66] e) ∧ Chained smallLog ∧
      gathered smallLog = [65, 10, 66].take (position smallLog) := by
  have hrun : (Session.start [[65], [10, 66]]).run ⟨0, true⟩ smallSession =
      some ⟨⟨⟨[65, 10, 66], 0, by decide⟩, true, []⟩, .idle, 0, smallLog⟩ := by decide
  obtain ⟨hfaith, hchain, hgathered, -⟩ :=
    session_faithful [[65], [10, 66]] (Serves.absent _) hrun
  exact ⟨hfaith, hchain, hgathered⟩

/-- One byte arrives, and `read` is asked for `2³¹`. -/
def bigRead : List Act :=
  [.arrive .data, .arrive .finish, .call (.read 2147483648), .step, .step]

/-- A length that is no Java `int` is refused, where `min 2³¹ 1` bytes were
to be returned. -/
theorem read_past_maxInt :
    Serves none [65] ⟨0, true⟩ ∧
      ((Session.start [[65]]).run ⟨0, true⟩ bigRead).map Session.log =
        some [⟨.read 2147483648, 0, .error .rangeError, 0⟩] ∧
      (bytesOf (.error .rangeError)).length ≠ min 2147483648 ([65].length - 0) :=
  ⟨.absent _, by decide, by decide⟩

end RackInput

end Jubilee
