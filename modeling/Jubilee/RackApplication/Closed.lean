import Jubilee.Common.Noted
import Jubilee.RackApplication.Finished
import Jubilee.RackApplication.Related
/-!
# Rack application — when the body is closed

The calls that `respond` makes are noted here beside the exchange, the
`close` of the body among them. Noting them changes nothing
(`tracedCall_response`), and `closed_once_and_last` says where the `close`
stands among them.
-/

namespace Jubilee

namespace RackApplication

open Response

variable {σ : Type*}

/-- What is done for a request: a part of the body written, a file sent,
the response ended by `respond`, or by `fail`, and the body closed. -/
inductive Call
  | written
  | fileSent
  | ended
  | failed
  | closed
  deriving DecidableEq

/-! ## The model with the calls noted -/

/-- The application on a response that notes the calls. `respond` ends it
with no text, `fail` with one. -/
def traced (app : RackApplication σ) : RackApplication (σ × List Call) where
  vertx :=
    { setStatusCode := fun status => .silent (app.vertx.setStatusCode status)
      putHeader := fun name values => .silent (app.vertx.putHeader name values)
      setChunked := fun chunked => .silent (app.vertx.setChunked chunked)
      write := fun chunk => .noting .written (app.vertx.write chunk)
      end_ := fun text => .noting (if text = none then .ended else .failed) (app.vertx.end_ text)
      sendFile := fun path => .noting .fileSent (app.vertx.sendFile path)
      netSocket := .silent app.vertx.netSocket
      end_native := by
        intro text s e s' h
        have hraises : (app.vertx.end_ text s.1).1 = .error e := congrArg Prod.fst h
        exact app.vertx.end_native (s := s.1) (Prod.ext hraises rfl)
      sendFile_native := by
        intro path s e s' h
        have hraises : (app.vertx.sendFile path s.1).1 = .error e := congrArg Prod.fst h
        exact app.vertx.sendFile_native (s := s.1) (Prod.ext hraises rfl)
      setStatusCode_500 := by
        rintro ⟨s, calls⟩
        obtain ⟨s', hs'⟩ := app.vertx.setStatusCode_500 s
        exact ⟨(s', calls), by rw [Act.silent, hs']⟩ }
  lineSeparator := app.lineSeparator
  decoders := app.decoders
  hideErrorStack := app.hideErrorStack
  getMessage := app.getMessage
  printStackTrace := app.printStackTrace

/-- `@body.close`, if the body responds to it. -/
def closeBody (result : AppResult) : Act (Exchange (σ × List Call)) Raised Unit :=
  match result.close with
  | some closed => Exchange.on (.noting .closed fun s => (closed, s))
  | none => pure ()

/-- `Response#respond`. -/
def tracedRespond (app : RackApplication σ) (result : AppResult) :
    Act (Exchange (σ × List Call)) Raised Unit :=
  Act.ensure (rescueNative (Exchange.on (app.traced.prepare result) >>= app.traced.perform))
    (closeBody result)

/-- `call`. -/
def tracedCall (app : RackApplication σ) (contentLength : Option JString) (outcome : Outcome)
    (multiThreaded : Bool) (s : Exchange (σ × List Call)) : Exchange (σ × List Call) :=
  match RackInput.RubyIORackInput.new contentLength with
  | .error _ => s
  | .ok _ =>
    executeBlocking
      (do
        let result ← callMethod outcome
        if multiThreaded then pure (some result)
        else do
          app.tracedRespond result
          pure none)
      (fun
        | .ok result => app.tracedRespond result
        | .error e => app.traced.fail e)
      s

/-- What is done for a request, in order. -/
def calls (app : RackApplication σ) (contentLength : Option JString) (outcome : Outcome)
    (multiThreaded : Bool) (response : σ) : List Call :=
  (app.tracedCall contentLength outcome multiThreaded ⟨(response, []), []⟩).response.2

/-! ## Noting changes nothing -/

/-- An exchange without its notes, all made since `l` being `P`. -/
def ExchangeNoted (P : Call → Prop) (l : List Call) (s : Exchange (σ × List Call))
    (t : Exchange σ) : Prop :=
  Act.Noted P l s.response t.response ∧ s.finished = t.finished

variable {P : Call → Prop} {l : List Call} (app : RackApplication σ)

theorem lifts_exchangeNoted :
    Lifts (Act.Noted P l) (ExchangeNoted P l : Exchange (σ × List Call) → Exchange σ → Prop) :=
  fun _ _ => Iff.rfl

theorem respAlike_traced : RespAlike (Act.Noted P l) app.traced.vertx.toHttpServerResponse
    app.vertx.toHttpServerResponse where
  setStatusCode _ := .silent _
  putHeader _ _ := .silent _
  setChunked _ := .silent _

/-- **Before it finishes the response**, `respond` only writes parts of a
body, and only where the status goes with one. -/
theorem related_prepare_traced (result : AppResult)
    (hwrite : noBody result.response = false → P .written) :
    Act.Related (Act.Noted P l) Eq (app.traced.prepare result) (app.prepare result) := by
  have hresp := app.respAlike_traced (P := P) (l := l)
  refine (hresp.writeStatus _).bind_eq fun _ =>
    (hresp.writeHeaders' _ _).bind fun r r' hr => ?_
  obtain ⟨rfl, hstatus⟩ := hr
  have hnoBody : noBody r = noBody result.response := by rw [noBody, noBody, hstatus]
  by_cases hhijack : r.hijack = .falsy
  · simp only [ne_eq, hhijack, not_true_eq_false, if_false, hnoBody]
    cases hn : noBody result.response with
    | true => exact .pure rfl
    | false =>
      rcases result.toPath with _ | e | path
      · exact (hresp.writeBody (fun _ => .noting (hwrite hn) _) r).bind_eq fun _ => .pure rfl
      · exact .raise e
      · exact .pure rfl
  · simp only [ne_eq, hhijack, not_false_eq_true, if_true]
    refine (Act.Related.silent _).bind_eq fun _ => ?_
    cases result.hijackCall with
    | none => exact .raise _
    | some called => exact .pure rfl

/-- What `respond` may do for a result before it closes the body. -/
def Performs (result : AppResult) (c : Call) : Prop :=
  c = .written ∧ noBody result.response = false ∨ c = .fileSent ∨ c = .ended

/-- **Until the body is closed.** -/
theorem related_beforeClose (result : AppResult) (hP : ∀ c, Performs result c → P c) :
    Act.Related (ExchangeNoted P l) Eq
      (rescueNative (Exchange.on (app.traced.prepare result) >>= app.traced.perform))
      (rescueNative (Exchange.on (app.prepare result) >>= app.perform)) :=
  related_rescueNative <|
    (related_on lifts_exchangeNoted (app.related_prepare_traced result fun hn =>
      hP _ (Or.inl ⟨rfl, hn⟩))).bind_eq
      (related_perform lifts_exchangeNoted (.noting (hP _ (Or.inr (Or.inr rfl))) _) fun _ =>
        .noting (hP _ (Or.inr (Or.inl rfl))) _)

theorem ensureClose_eq (result : AppResult) (x : Act (Exchange σ) Raised Unit) :
    ensureClose result x = Act.ensure x fun s => (result.close.getD (.ok ()), s) := by
  funext s
  unfold ensureClose Act.ensure
  rcases result.close with _ | e | ⟨⟩ <;> rfl

/-- `respond` is what it is without the notes. -/
theorem related_tracedRespond (result : AppResult) :
    Act.Related (ExchangeNoted (fun _ => True) l) Eq (app.tracedRespond result)
      (app.respond result) := by
  unfold tracedRespond respond
  rw [ensureClose_eq]
  refine (app.related_beforeClose result fun _ _ => trivial).ensure ?_
  unfold closeBody
  cases result.close with
  | none => exact .pure rfl
  | some closed => exact related_on lifts_exchangeNoted (.noting trivial fun s => (closed, s))

/-- `fail` only ends the response, with a text. -/
theorem related_fail_traced (hP : P .failed) (e : Raised) :
    Act.Related (ExchangeNoted P l) Eq (app.traced.fail e) (app.fail e) :=
  (related_on lifts_exchangeNoted (.silent _)).bind_eq fun _ =>
    related_finish lifts_exchangeNoted .failed (.noting hP _)

/-- **Noting the calls changes nothing.** -/
theorem tracedCall_response (contentLength : Option JString) (outcome : Outcome)
    (multiThreaded : Bool) (s : Exchange (σ × List Call)) :
    app.call contentLength outcome multiThreaded ⟨s.response.1, s.finished⟩ =
      ⟨(app.tracedCall contentLength outcome multiThreaded s).response.1,
        (app.tracedCall contentLength outcome multiThreaded s).finished⟩ := by
  have hstart : ExchangeNoted (fun _ => True) s.response.2 s ⟨s.response.1, s.finished⟩ :=
    ⟨.start _ _, rfl⟩
  have hnoted : ExchangeNoted (fun _ => True) s.response.2
      (app.tracedCall contentLength outcome multiThreaded s)
      (app.call contentLength outcome multiThreaded ⟨s.response.1, s.finished⟩) := by
    unfold tracedCall call
    rcases RackInput.RubyIORackInput.new contentLength with e | io
    · exact hstart
    refine related_executeBlocking ?_ (fun r => ?_) hstart
    · cases outcome with
      | raises e => exact .raise e
      | returns result =>
        refine Act.Related.bind_eq (.pure rfl) fun result => ?_
        cases multiThreaded with
        | true => exact .pure rfl
        | false => exact (app.related_tracedRespond result).bind_eq fun _ => .pure rfl
    · rcases r with e | result
      · exact app.related_fail_traced trivial e
      · exact app.related_tracedRespond result
  obtain ⟨⟨hresponse, -⟩, hfinished⟩ := hnoted
  rw [hresponse, hfinished]

/-! ## When the body is closed -/

variable {result : AppResult} {closed : Except Raised Unit}

/-- **`respond` closes the body last.** -/
theorem calls_tracedRespond (hclose : result.close = some closed)
    (s : Exchange (σ × List Call)) :
    ∃ before, (app.tracedRespond result s).2.response.2 = s.response.2 ++ before ++ [.closed] ∧
      ∀ c ∈ before, Performs result c := by
  obtain ⟨-, ⟨-, before, hbefore, hperforms⟩, -⟩ :=
    app.related_beforeClose (l := s.response.2) result (fun _ h => h) s
      ⟨s.response.1, s.finished⟩ ⟨.start _ _, rfl⟩
  refine ⟨before, ?_, hperforms⟩
  rw [← hbefore, tracedRespond]
  have hcloseBody : ∀ s' : Exchange (σ × List Call), closeBody result s' =
      (closed, ⟨(s'.response.1, s'.response.2 ++ [.closed]), s'.finished⟩) := by
    intro s'
    rw [closeBody, hclose]
    rfl
  cases closed with
  | ok => rw [Act.ensure_of_ok (hcloseBody _)]
  | error e => rw [Act.ensure_of_error (hcloseBody _)]

theorem calls_fail_traced (e : Raised) (s : Exchange (σ × List Call)) :
    ∃ after, (app.traced.fail e s).2.response.2 = s.response.2 ++ after ∧
      ∀ c ∈ after, c = .failed := by
  obtain ⟨-, ⟨-, hnotes⟩, -⟩ :=
    app.related_fail_traced (P := (· = .failed)) (l := s.response.2) rfl e s
      ⟨s.response.1, s.finished⟩ ⟨.start _ _, rfl⟩
  exact hnotes

/-- **The calls for a request**: what `respond` does, the `close`, and what
`fail` does if `respond` raised in the blocking code. -/
theorem calls_eq {contentLength : Option JString}
    (hio : ∃ io, RackInput.RubyIORackInput.new contentLength = .ok io)
    (hclose : result.close = some closed) (multiThreaded : Bool) (response : σ) :
    ∃ before after, app.calls contentLength (.returns result) multiThreaded response =
        before ++ .closed :: after ∧
      (∀ c ∈ before, Performs result c) ∧ ∀ c ∈ after, c = .failed := by
  obtain ⟨io, hio⟩ := hio
  obtain ⟨before, hbefore, hperforms⟩ :=
    app.calls_tracedRespond hclose ⟨(response, []), []⟩
  rw [List.nil_append] at hbefore
  unfold calls tracedCall
  rw [hio]
  cases multiThreaded with
  | true => exact ⟨before, [], hbefore, hperforms, fun _ h => nomatch h⟩
  | false =>
    change ∃ before after, (executeBlocking (app.tracedRespond result >>= fun _ => pure none) _
      ⟨(response, []), []⟩).response.2 = _ ∧ _
    rcases hrun : app.tracedRespond result ⟨(response, []), []⟩ with ⟨e | ⟨⟩, s'⟩
    · obtain ⟨after, hafter, hfailed⟩ := app.calls_fail_traced e s'
      rw [hrun] at hbefore
      rw [executeBlocking, Act.bind_of_error hrun]
      refine ⟨before, after, ?_, hperforms, hfailed⟩
      rw [hafter, hbefore, List.append_assoc]
      rfl
    · rw [hrun] at hbefore
      rw [executeBlocking, Act.bind_of_ok hrun]
      exact ⟨before, [], hbefore, hperforms, fun _ h => nomatch h⟩

/-- **The body is closed once, and last**: every write, every file sent and
every end of `respond` comes before, and after it only the end of `fail`.
No part of the body is written where the status goes without one. -/
theorem closed_once_and_last (app : RackApplication σ) {contentLength : Option JString}
    (hio : ∃ io, RackInput.RubyIORackInput.new contentLength = .ok io) {result : AppResult}
    (hclose : result.close.isSome) (multiThreaded : Bool) (response : σ) :
    (app.calls contentLength (.returns result) multiThreaded response).count .closed = 1 ∧
      (∃ before after, app.calls contentLength (.returns result) multiThreaded response =
          before ++ .closed :: after ∧
        (∀ c ∈ before, c = .written ∨ c = .fileSent ∨ c = .ended) ∧ ∀ c ∈ after, c = .failed) ∧
      (noBody result.response = true →
        .written ∉ app.calls contentLength (.returns result) multiThreaded response) := by
  obtain ⟨closed, hclosed⟩ := Option.isSome_iff_exists.mp hclose
  obtain ⟨before, after, hcalls, hbefore, hafter⟩ :=
    app.calls_eq hio hclosed multiThreaded response
  have hnotBefore : .closed ∉ before := by
    intro hmem
    rcases hbefore _ hmem with ⟨h, -⟩ | h | h <;> cases h
  have hnotAfter : .closed ∉ after := fun hmem => nomatch hafter _ hmem
  rw [hcalls]
  refine ⟨?_, ⟨before, after, rfl, fun c hc => ?_, hafter⟩, fun hnoBody hmem => ?_⟩
  · rw [List.count_append, List.count_cons_self, List.count_eq_zero.mpr hnotBefore,
      List.count_eq_zero.mpr hnotAfter]
  · rcases hbefore c hc with ⟨h, -⟩ | h | h
    · exact Or.inl h
    · exact Or.inr (Or.inl h)
    · exact Or.inr (Or.inr h)
  · rcases List.mem_append.mp hmem with hmem | hmem
    · rcases hbefore _ hmem with ⟨-, h⟩ | h | h
      · rw [hnoBody] at h
        cases h
      · cases h
      · cases h
    · rcases List.mem_cons.mp hmem with h | hmem
      · cases h
      · cases hafter _ hmem

/-- A body that raises after its first part, and a `close` that raises. -/
theorem closed_once_and_last_raises :
    let part : RubyString := ⟨[97], .utf8⟩
    let result := plain ⟨false, [some part], some (.other false)⟩ (some (.error (.other false)))
    onRecorder.calls none (.returns result) false .fresh = [.written, .closed, .failed] ∧
      (onRecorder.calls none (.returns result) false .fresh).count .closed = 1 :=
  ⟨rfl, (closed_once_and_last onRecorder ⟨_, rfl⟩ rfl false .fresh).1⟩

end RackApplication

end Jubilee
