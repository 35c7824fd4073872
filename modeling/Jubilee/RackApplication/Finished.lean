import Jubilee.RackApplication.Model
/-!
# Rack application — how often a response is finished

An exception of `respond` meets a different fate in each mode: in the
blocking code it fails the request, which finishes the response, a second
time if it was finished before; in the result handler it is logged and
nothing finishes the response any more. A `NativeException` is swallowed
in both. `finished_once_iff` says exactly when there is one finish.
-/

namespace Jubilee

namespace RackApplication

variable {σ : Type*} {app : RackApplication σ} {result : AppResult} {s : Exchange σ}

/-! ## The condition -/

/-- The hijack callback raises, and it is no `NativeException`. -/
def Ending.RaisesRuby (ending : Ending) : Prop :=
  ∃ e, ending = .hijack (.error e) ∧ e.isNative = false

/-- `close` raises. -/
def AppResult.CloseRaises (result : AppResult) : Prop := ∃ e, result.close = some (.error e)

/-- What can go wrong with a result. Where nothing raises before the
response is finished, nothing that fails the request may raise after it,
unless the request is multithreaded; where something does, it has to fail
the request, which it does not when it is. -/
def RaisesWell (app : RackApplication σ) (multiThreaded : Bool) (result : AppResult)
    (response : σ) : Prop :=
  match (app.prepare result response).1 with
  | .ok ending => multiThreaded = true ∨ ¬ ending.RaisesRuby ∧ ¬ AppResult.CloseRaises result
  | .error e => multiThreaded = false ∧ (e.isNative = false ∨ AppResult.CloseRaises result)

/-! ## What `respond` leaves -/

/-- An action on the response finishes nothing. -/
theorem on_of {α : Type} {x : Act σ Raised α} {r : Except Raised α} {t : σ}
    (h : x s.response = (r, t)) : Exchange.on x s = (r, { s with response := t }) := by
  rw [Exchange.on, h]

theorem finished_perform (ending : Ending) (s : Exchange σ) :
    (app.perform ending s).2.finished.length = s.finished.length + 1 := by
  cases ending with
  | hijack called | end_ | sendFile path =>
    change (s.finished ++ [_]).length = _
    rw [List.length_append, List.length_singleton]

/-- Of the ways to finish the response only the callback raises something
that is not rescued. -/
theorem raises_perform (ending : Ending) (s : Exchange σ) :
    (∃ e, (app.perform ending s).1 = .error e ∧ e.isNative = false) ↔ ending.RaisesRuby := by
  have hnative : ∀ {x : Act σ Raised Unit} {f : Finish},
      (∀ {t e t'}, x t = (.error e, t') → e.isNative = true) →
        ¬ ∃ e, (Exchange.finish f x s).1 = .error e ∧ e.isNative = false := by
    rintro x f hx ⟨e, hraises, he⟩
    rcases hr : x s.response with ⟨r, t⟩
    have hfinish : Exchange.finish f x s = (r, ⟨t, s.finished ++ [f]⟩) :=
      on_of (s := ⟨s.response, s.finished ++ [f]⟩) hr
    rw [hfinish] at hraises
    obtain rfl : r = .error e := hraises
    rw [hx hr] at he
    cases he
  cases ending with
  | hijack called =>
    refine exists_congr fun e => and_congr_left fun _ => ?_
    rw [Ending.hijack.injEq]
    rfl
  | end_ =>
    refine iff_of_false (hnative app.vertx.end_native) ?_
    rintro ⟨e, he, -⟩
    cases he
  | sendFile path =>
    refine iff_of_false (hnative app.vertx.sendFile_native) ?_
    rintro ⟨e, he, -⟩
    cases he

theorem finished_rescueNative (x : Act (Exchange σ) Raised Unit) :
    (rescueNative x s).2 = (x s).2 := by
  rcases hx : x s with ⟨e | ⟨⟩, s'⟩
  · rw [rescueNative, hx]
  · rw [rescueNative, hx]

/-- What is left of an exception: it is rescued when it is Java's. -/
theorem raises_rescueNative (x : Act (Exchange σ) Raised Unit) :
    (∃ e, (rescueNative x s).1 = .error e) ↔ ∃ e, (x s).1 = .error e ∧ e.isNative = false := by
  rcases hx : x s with ⟨e | ⟨⟩, s'⟩
  · rw [rescueNative, hx]
    cases hn : e.isNative with
    | true => simp [hn]
    | false => simp [hn]
  · rw [rescueNative, hx]
    simp

theorem finished_ensureClose (x : Act (Exchange σ) Raised Unit) :
    (ensureClose result x s).2 = (x s).2 := by
  rcases hclose : result.close with _ | e | ⟨⟩ <;> rw [ensureClose, hclose]

theorem raises_ensureClose (x : Act (Exchange σ) Raised Unit) :
    (∃ e, (ensureClose result x s).1 = .error e) ↔
      (∃ e, (x s).1 = .error e) ∨ AppResult.CloseRaises result := by
  rcases hclose : result.close with _ | e | ⟨⟩ <;>
    simp [ensureClose, AppResult.CloseRaises, hclose]

/-- **Where nothing raises before**, `respond` finishes the response, and
raises what the callback or `close` raises. -/
theorem respond_of_ready {ending : Ending} {t : σ}
    (h : app.prepare result s.response = (.ok ending, t)) :
    (app.respond result s).2.finished.length = s.finished.length + 1 ∧
      ((∃ e, (app.respond result s).1 = .error e) ↔
        ending.RaisesRuby ∨ AppResult.CloseRaises result) := by
  have hrun := Act.bind_of_ok (f := app.perform) (on_of h)
  constructor
  · rw [respond, finished_ensureClose, finished_rescueNative, hrun, finished_perform]
  · rw [respond, raises_ensureClose, raises_rescueNative, hrun, raises_perform]

/-- **Where something does**, it finishes nothing, and raises the same
unless that was rescued. -/
theorem respond_of_raised {e : Raised} {t : σ}
    (h : app.prepare result s.response = (.error e, t)) :
    (app.respond result s).2.finished = s.finished ∧
      ((∃ e, (app.respond result s).1 = .error e) ↔
        e.isNative = false ∨ AppResult.CloseRaises result) := by
  have hrun := Act.bind_of_error (f := app.perform) (on_of h)
  constructor
  · rw [respond, finished_ensureClose, finished_rescueNative, hrun]
  · rw [respond, raises_ensureClose, raises_rescueNative, hrun]
    simp

/-- `fail` finishes the response. -/
theorem finished_fail (e : Raised) (s : Exchange σ) :
    (app.fail e s).2.finished.length = s.finished.length + 1 := by
  obtain ⟨t, ht⟩ := app.vertx.setStatusCode_500 s.response
  rw [fail, Act.bind_of_ok (on_of ht)]
  change (s.finished ++ [_]).length = _
  rw [List.length_append, List.length_singleton]

/-! ## The whole call -/

variable {response : σ}

/-- With a multithreaded request an exception of `respond` is lost. -/
theorem finished_multiThreaded (app : RackApplication σ) (result : AppResult) (response : σ) :
    (app.respond result ⟨response, []⟩).2.finished.length = 1 ↔
      RaisesWell app true result response := by
  unfold RaisesWell
  rcases hprepare : app.prepare result response with ⟨e | ending, t⟩
  · have hnone := (respond_of_raised (s := ⟨response, []⟩) hprepare).1
    rw [hnone]
    simp
  · have hone := (respond_of_ready (s := ⟨response, []⟩) hprepare).1
    rw [hone]
    simp

/-- The blocking code of a request that is not: the future is left as it is
unless `respond` raises. -/
theorem finished_blocking (app : RackApplication σ) (result : AppResult) (s : Exchange σ) :
    (executeBlocking (app.respond result >>= fun _ => pure none)
      (fun
        | .ok result => app.respond result
        | .error e => app.fail e) s).finished.length =
      (app.respond result s).2.finished.length +
        (match (app.respond result s).1 with
        | .ok _ => 0
        | .error _ => 1) := by
  rcases hrun : app.respond result s with ⟨e | ⟨⟩, s'⟩
  · rw [executeBlocking, Act.bind_of_error hrun]
    exact finished_fail e s'
  · rw [executeBlocking, Act.bind_of_ok hrun]
    rfl

/-- With a request that is not, an exception of `respond` finishes the
response once more. -/
theorem finished_not_multiThreaded (app : RackApplication σ) (result : AppResult) (response : σ) :
    (executeBlocking (app.respond result >>= fun _ => pure none)
      (fun
        | .ok result => app.respond result
        | .error e => app.fail e) ⟨response, []⟩).finished.length = 1 ↔
      RaisesWell app false result response := by
  rw [finished_blocking app result ⟨response, []⟩]
  unfold RaisesWell
  rcases hprepare : app.prepare result response with ⟨e | ending, t⟩
  · obtain ⟨hnone, hraises⟩ := respond_of_raised (s := ⟨response, []⟩) hprepare
    rw [hnone]
    rcases hr : (app.respond result ⟨response, []⟩).1 with e' | ⟨⟩
    · simpa [hr] using hraises
    · simpa [hr] using hraises
  · obtain ⟨hone, hraises⟩ := respond_of_ready (s := ⟨response, []⟩) hprepare
    rw [hone]
    rcases hr : (app.respond result ⟨response, []⟩).1 with e' | ⟨⟩
    · simpa [hr, ← not_or] using hraises
    · simpa [hr, ← not_or] using hraises

/-- **Exactly when the response is finished once.** -/
theorem finished_once_iff (app : RackApplication σ) (contentLength : Option JString)
    (outcome : Outcome) (multiThreaded : Bool) (response : σ) :
    (app.call contentLength outcome multiThreaded ⟨response, []⟩).finished.length = 1 ↔
      (∃ io, RackInput.RubyIORackInput.new contentLength = .ok io) ∧
        ∀ result, outcome = .returns result → RaisesWell app multiThreaded result response := by
  unfold call
  rcases RackInput.RubyIORackInput.new contentLength with e | io
  · simp
  simp only [exists_eq', true_and, Except.ok.injEq]
  cases outcome with
  | raises e =>
    have hfail : (executeBlocking
        ((callMethod (.raises e) : Act (Exchange σ) Raised AppResult) >>= fun result =>
          if multiThreaded then pure (some result)
          else app.respond result >>= fun _ => pure none)
        (fun
          | .ok result => app.respond result
          | .error e => app.fail e) ⟨response, []⟩).finished.length = 1 :=
      finished_fail e _
    exact iff_of_true hfail fun result h => nomatch h
  | returns result =>
    simp only [Outcome.returns.injEq, forall_eq']
    cases multiThreaded with
    | true => exact finished_multiThreaded app result response
    | false => exact finished_not_multiThreaded app result response

/-! ## No finish, and two -/

/-- The application on the response that records. -/
def onRecorder : RackApplication Sent where
  vertx :=
    { Sent.recorder with
      end_ := fun
        | some text => Sent.recorder.write text
        | none => pure ()
      sendFile := fun _ => pure ()
      netSocket := pure ()
      end_native := by
        rintro (_ | text) s e s' h <;> cases h
      sendFile_native := by
        rintro path s e s' h
        cases h
      setStatusCode_500 := fun s => ⟨{ s with status := 500 }, rfl⟩ }
  lineSeparator := .lf
  decoders := ⟨bytewise, fun _ _ => []⟩
  hideErrorStack := true
  getMessage := fun _ => []
  printStackTrace := fun _ => []

/-- A result without headers. -/
def plain (body : Response.Body) (close : Option (Except Raised Unit)) : AppResult :=
  ⟨.new 200 ⟨[], List.nodup_nil⟩ body, none, close, none⟩

/-- A body that raises in the result handler leaves the response open; a
`close` that raises in the blocking code has it ended a second time. -/
theorem not_finished_once :
    (onRecorder.call none (.returns (plain ⟨false, [none], some (.other false)⟩ none))
      true ⟨.fresh, []⟩).finished = [] ∧
    (onRecorder.call none (.returns (plain ⟨false, [none], none⟩ (some (.error (.other false)))))
      false ⟨.fresh, []⟩).finished = [.ended, .failed] := ⟨rfl, rfl⟩

end RackApplication

end Jubilee
