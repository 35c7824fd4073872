import Jubilee.RackInput.Model
import Jubilee.Response.Model
/-!
# Rack application — the model

`RackApplication.call` on one request: the application runs in Vert.x's
blocking code, and its result is responded to there or, when the request
is multithreaded, in the result handler. Every action that finishes the
response is noted where it is called, whether it returns or raises.
-/

namespace Jubilee

/-! ## The Vert.x response -/

/-- `HttpServerResponse` with the methods that finish it, and the request's
`netSocket`. What these throw is Java's, and any Vert.x response takes
the status 500. -/
structure VertxResponse (σ : Type*) extends HttpServerResponse σ where
  end_ : Option JString → Act σ Raised Unit
  sendFile : JString → Act σ Raised Unit
  netSocket : Act σ Raised Unit
  end_native : ∀ {text s e s'}, end_ text s = (.error e, s') → e.isNative = true
  sendFile_native : ∀ {path s e s'}, sendFile path s = (.error e, s') → e.isNative = true
  setStatusCode_500 : ∀ s, ∃ s', setStatusCode 500 s = (.ok (), s')

/-- What finishes a response: `end`, `send_file`, the `end` of `fail`, and
the application's hijack callback. -/
inductive Finish
  | ended
  | fileSent
  | failed
  | hijacked
  deriving DecidableEq

/-- A response, and what was called to finish it, in order. -/
structure Exchange (σ : Type*) where
  response : σ
  finished : List Finish

namespace Exchange

variable {σ : Type*} {α : Type}

/-- An action on the response. -/
def on (x : Act σ Raised α) : Act (Exchange σ) Raised α := fun s =>
  let (r, response) := x s.response
  (r, { s with response := response })

/-- An action that finishes it. -/
def finish (f : Finish) (x : Act σ Raised Unit) : Act (Exchange σ) Raised Unit := fun s =>
  on x { s with finished := s.finished ++ [f] }

end Exchange

/-! ## The result of the application -/

/-- A `Jubilee::Response` with what `respond` asks of its body and of the
object under `rack.hijack`: `none` where there is no such method. -/
structure AppResult where
  response : Response
  toPath : Option (Except Raised JString)
  close : Option (Except Raised Unit)
  hijackCall : Option (Except Raised Unit)

/-- What the application does with a request. -/
inductive Outcome
  | raises (e : Raised)
  | returns (result : AppResult)

/-- The fields of `RackApplication` that `respond` and `fail` read, the
response of Vert.x and what it is reached through, and the texts of an
exception. -/
structure RackApplication (σ : Type*) where
  vertx : VertxResponse σ
  lineSeparator : Response.LineSeparator
  decoders : Response.Decoders
  hideErrorStack : Bool
  getMessage : Raised → JString
  printStackTrace : Raised → JString

namespace RackApplication

variable {σ : Type*} (app : RackApplication σ)

/-- `RubyHttpServerResponse`, for the response of the request. -/
def rubyResponse : Response.RubyHttpServerResponse σ :=
  ⟨app.vertx.toHttpServerResponse, app.lineSeparator, app.decoders⟩

/-! ## `Response#respond` -/

/-- `STATUS_WITH_NO_ENTITY_BODY`. -/
def STATUS_WITH_NO_ENTITY_BODY : List ℤ := [204, 205, 304]

/-- `no_body`. -/
def noBody (r : Response) : Bool := r.status < 200 || STATUS_WITH_NO_ENTITY_BODY.contains r.status

/-- The ways in which `respond` finishes the response. -/
inductive Ending
  | hijack (called : Except Raised Unit)
  | end_
  | sendFile (path : JString)

/-- `respond` until it finishes the response. -/
def prepare (result : AppResult) : Act σ Raised Ending := do
  Response.writeStatus app.rubyResponse result.response
  let r ← Response.writeHeaders app.rubyResponse result.response
  if r.hijack ≠ .falsy then do
    app.vertx.netSocket
    match result.hijackCall with
    | some called => pure (.hijack called)
    -- the object has no method `call`
    | none => Act.raise (.other false)
  else if noBody r then pure .end_
  else
    match result.toPath with
    | some (.ok path) => pure (.sendFile path)
    | some (.error e) => Act.raise e
    | none => do
      Response.writeBody app.rubyResponse r
      pure .end_

/-- The response is finished. -/
def perform : Ending → Act (Exchange σ) Raised Unit
  | .hijack called => Exchange.finish .hijacked fun s => (called, s)
  | .end_ => Exchange.finish .ended (app.vertx.end_ none)
  | .sendFile path => Exchange.finish .fileSent (app.vertx.sendFile path)

/-- `rescue NativeException`. -/
def rescueNative (x : Act (Exchange σ) Raised Unit) : Act (Exchange σ) Raised Unit := fun s =>
  match x s with
  | (.ok (), s') => (.ok (), s')
  | (.error e, s') => (if e.isNative then .ok () else .error e, s')

/-- `ensure`: the body is closed whatever happened, and what `close`
raises takes the place of what was raised before. -/
def ensureClose (result : AppResult) (x : Act (Exchange σ) Raised Unit) :
    Act (Exchange σ) Raised Unit := fun s =>
  let (r, s') := x s
  match result.close with
  | some (.error e) => (.error e, s')
  | _ => (r, s')

/-- `Response#respond`. -/
def respond (result : AppResult) : Act (Exchange σ) Raised Unit :=
  ensureClose result (rescueNative (Exchange.on (app.prepare result) >>= app.perform))

/-! ## `RackApplication` -/

/-- `fail`. -/
def fail (e : Raised) : Act (Exchange σ) Raised Unit := do
  Exchange.on (app.vertx.setStatusCode 500)
  let message := "Jubilee caught this error: ".toList ++ app.getMessage e ++ ['\n']
  Exchange.finish .failed (app.vertx.end_ (some
    (if app.hideErrorStack then "Internal error.".toList else message ++ app.printStackTrace e)))

/-- `executeBlocking`. The handler is called with what the blocking code
completed its future with, or with what it raised, and not at all when it
did neither. What the handler itself raises is logged. -/
def executeBlocking (blockingCode : Act (Exchange σ) Raised (Option AppResult))
    (handler : Except Raised AppResult → Act (Exchange σ) Raised Unit) (s : Exchange σ) :
    Exchange σ :=
  match blockingCode s with
  | (.ok (some result), s') => (handler (.ok result) s').2
  | (.ok none, s') => s'
  | (.error e, s') => (handler (.error e) s').2

/-- The call of the application. -/
def callMethod : Outcome → Act (Exchange σ) Raised AppResult
  | .raises e => Act.raise e
  | .returns result => pure result

/-- `call`, for a request with the value of its `Content-Length` header.
What the constructor of the input raises is raised in the handler of the
request. -/
def call (contentLength : Option JString) (outcome : Outcome) (multiThreaded : Bool)
    (s : Exchange σ) : Exchange σ :=
  match RackInput.RubyIORackInput.new contentLength with
  | .error _ => s
  | .ok _ =>
    executeBlocking
      (do
        let result ← callMethod outcome
        if multiThreaded then pure (some result)
        else do
          app.respond result
          -- the future is not completed
          pure none)
      (fun
        | .ok result => app.respond result
        | .error e => app.fail e)
      s

/-! ## What `call` comes to -/

section

variable {app} {contentLength : Option JString} {io : RackInput.RubyIORackInput}
  {result : AppResult} {s s' : Exchange σ}

/-- Without an input nothing is done. -/
theorem call_of_refused {e : Raised}
    (hio : RackInput.RubyIORackInput.new contentLength = .error e) (outcome : Outcome)
    (multiThreaded : Bool) : app.call contentLength outcome multiThreaded s = s := by
  simp only [call, hio]

variable (hio : RackInput.RubyIORackInput.new contentLength = .ok io)

include hio

/-- What the application raises fails the request. -/
theorem call_raises (e : Raised) (multiThreaded : Bool) :
    app.call contentLength (.raises e) multiThreaded s = (app.fail e s).2 := by
  simp only [call, hio]
  rfl

/-- In the result handler what `respond` raises is logged. -/
theorem call_multiThreaded :
    app.call contentLength (.returns result) true s = (app.respond result s).2 := by
  simp only [call, hio]
  rfl

/-- In the blocking code it responds, and completes no future. -/
theorem call_blocking (h : app.respond result s = (.ok (), s')) :
    app.call contentLength (.returns result) false s = s' := by
  simp only [call, hio]
  change executeBlocking (app.respond result >>= fun _ => pure none) _ s = s'
  rw [executeBlocking, Act.bind_of_ok h]
  rfl

/-- What `respond` raises there fails the request. -/
theorem call_blocking_of_error {e : Raised} (h : app.respond result s = (.error e, s')) :
    app.call contentLength (.returns result) false s = (app.fail e s').2 := by
  simp only [call, hio]
  change executeBlocking (app.respond result >>= fun _ => pure none) _ s = _
  rw [executeBlocking, Act.bind_of_error h]

end

end RackApplication

end Jubilee
