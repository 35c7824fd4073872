import Jubilee.RackApplication.Model
import Jubilee.Response.Related
/-!
# Rack application — two runs that do alike

The rules for what `respond` is put together of, for two applications
whose Vert.x responses do alike.
-/

namespace Jubilee

namespace RackApplication

variable {σ τ : Type*} {R : σ → τ → Prop} {R' : Exchange σ → Exchange τ → Prop}

/-- The exchanges are related as the responses are, and finished in the
same way. -/
def Lifts (R : σ → τ → Prop) (R' : Exchange σ → Exchange τ → Prop) : Prop :=
  ∀ s t, R' s t ↔ R s.response t.response ∧ s.finished = t.finished

theorem related_on (hR : Lifts R R') {α β : Type} {S : α → β → Prop} {x : Act σ Raised α}
    {y : Act τ Raised β} (h : Act.Related R S x y) :
    Act.Related R' S (Exchange.on x) (Exchange.on y) := by
  intro s t hst
  obtain ⟨hresponse, hfinished⟩ := (hR s t).mp hst
  obtain ⟨halike, hleft⟩ := h s.response t.response hresponse
  exact ⟨halike, (hR _ _).mpr ⟨hleft, hfinished⟩⟩

theorem related_finish (hR : Lifts R R') (f : Finish) {x : Act σ Raised Unit}
    {y : Act τ Raised Unit} (h : Act.Related R Eq x y) :
    Act.Related R' Eq (Exchange.finish f x) (Exchange.finish f y) := by
  intro s t hst
  obtain ⟨hresponse, hfinished⟩ := (hR s t).mp hst
  exact related_on hR h _ _ ((hR _ _).mpr ⟨hresponse, congrArg (· ++ [f]) hfinished⟩)

/-- **The response is finished alike.** -/
theorem related_perform (hR : Lifts R R') {app : RackApplication σ} {app' : RackApplication τ}
    (hend : Act.Related R Eq (app.vertx.end_ none) (app'.vertx.end_ none))
    (hsendFile : ∀ path, Act.Related R Eq (app.vertx.sendFile path) (app'.vertx.sendFile path))
    (ending : Ending) : Act.Related R' Eq (app.perform ending) (app'.perform ending) := by
  cases ending with
  | hijack called => exact related_finish hR .hijacked fun s t h => ⟨Act.alike_eq_iff.mpr rfl, h⟩
  | end_ => exact related_finish hR .ended hend
  | sendFile path => exact related_finish hR .fileSent (hsendFile path)

theorem related_rescueNative {x : Act (Exchange σ) Raised Unit} {y : Act (Exchange τ) Raised Unit}
    (h : Act.Related R' Eq x y) : Act.Related R' Eq (rescueNative x) (rescueNative y) := by
  intro s t hst
  obtain ⟨halike, hleft⟩ := h s t hst
  rw [Act.alike_eq_iff] at halike ⊢
  rw [rescueNative, rescueNative]
  rcases hx : x s with ⟨r, s'⟩
  rcases hy : y t with ⟨r', t'⟩
  rw [hx, hy] at halike hleft
  obtain rfl : r = r' := halike
  cases r with
  | error e => exact ⟨rfl, hleft⟩
  | ok => exact ⟨rfl, hleft⟩

/-- The bodies being closed alike. -/
theorem related_ensureClose {result result' : AppResult} (hclose : result.close = result'.close)
    {x : Act (Exchange σ) Raised Unit} {y : Act (Exchange τ) Raised Unit}
    (h : Act.Related R' Eq x y) :
    Act.Related R' Eq (ensureClose result x) (ensureClose result' y) := by
  intro s t hst
  obtain ⟨halike, hleft⟩ := h s t hst
  unfold ensureClose
  rw [hclose]
  rcases result'.close with _ | e | ⟨⟩
  · exact ⟨halike, hleft⟩
  · exact ⟨.error e, hleft⟩
  · exact ⟨halike, hleft⟩

/-- **The rule of the blocking code and its handler.** -/
theorem related_executeBlocking {code : Act (Exchange σ) Raised (Option AppResult)}
    {code' : Act (Exchange τ) Raised (Option AppResult)}
    {handler : Except Raised AppResult → Act (Exchange σ) Raised Unit}
    {handler' : Except Raised AppResult → Act (Exchange τ) Raised Unit}
    (hcode : Act.Related R' Eq code code')
    (hhandler : ∀ r, Act.Related R' Eq (handler r) (handler' r)) {s : Exchange σ} {t : Exchange τ}
    (hst : R' s t) : R' (executeBlocking code handler s) (executeBlocking code' handler' t) := by
  obtain ⟨halike, hleft⟩ := hcode s t hst
  unfold executeBlocking
  rcases hx : code s with ⟨r, s'⟩
  rcases hy : code' t with ⟨r', t'⟩
  rw [hx, hy, Act.alike_eq_iff] at halike
  rw [hx, hy] at hleft
  obtain rfl : r = r' := halike
  rcases r with e | _ | result
  · exact (hhandler (.error e) s' t' hleft).2
  · exact hleft
  · exact (hhandler (.ok result) s' t' hleft).2

/-! ## Two applications -/

/-- The responses of two applications do alike, and the applications differ
in nothing else. -/
structure AppAlike (R : σ → τ → Prop) (app : RackApplication σ) (app' : RackApplication τ) :
    Prop where
  resp : Response.RespAlike R app.vertx.toHttpServerResponse app'.vertx.toHttpServerResponse
  write : ∀ chunk, Act.Related R Eq (app.vertx.write chunk) (app'.vertx.write chunk)
  end_ : ∀ text, Act.Related R Eq (app.vertx.end_ text) (app'.vertx.end_ text)
  sendFile : ∀ path, Act.Related R Eq (app.vertx.sendFile path) (app'.vertx.sendFile path)
  netSocket : Act.Related R Eq app.vertx.netSocket app'.vertx.netSocket
  lineSeparator : app.lineSeparator = app'.lineSeparator
  decoders : app.decoders = app'.decoders
  hideErrorStack : app.hideErrorStack = app'.hideErrorStack
  getMessage : app.getMessage = app'.getMessage
  printStackTrace : app.printStackTrace = app'.printStackTrace

namespace AppAlike

variable {app : RackApplication σ} {app' : RackApplication τ}

theorem prepare (h : AppAlike R app app') (result : AppResult) :
    Act.Related R Eq (app.prepare result) (app'.prepare result) := by
  unfold RackApplication.prepare rubyResponse
  rw [h.lineSeparator, h.decoders]
  refine (h.resp.writeStatus _).bind_eq fun _ =>
    (h.resp.writeHeaders' _ _).bind fun r r' hr => ?_
  obtain ⟨rfl, -⟩ := hr
  by_cases hhijack : r.hijack = .falsy
  · simp only [ne_eq, hhijack, not_true_eq_false, if_false]
    cases hn : noBody r with
    | true => exact .pure rfl
    | false =>
      rcases result.toPath with _ | e | path
      · exact (h.resp.writeBody h.write r).bind_eq fun _ => .pure rfl
      · exact .raise e
      · exact .pure rfl
  · simp only [ne_eq, hhijack, not_false_eq_true, if_true]
    refine h.netSocket.bind_eq fun _ => ?_
    cases result.hijackCall with
    | none => exact .raise _
    | some called => exact .pure rfl

theorem respond (h : AppAlike R app app') (hR : Lifts R R') (result : AppResult) :
    Act.Related R' Eq (app.respond result) (app'.respond result) :=
  related_ensureClose rfl <| related_rescueNative <|
    (related_on hR (h.prepare result)).bind_eq (related_perform hR (h.end_ none) h.sendFile)

theorem fail (h : AppAlike R app app') (hR : Lifts R R') (e : Raised) :
    Act.Related R' Eq (app.fail e) (app'.fail e) := by
  unfold RackApplication.fail
  rw [h.hideErrorStack, h.getMessage, h.printStackTrace]
  exact (related_on hR (h.resp.setStatusCode 500)).bind_eq fun _ =>
    related_finish hR .failed (h.end_ _)

/-- **The whole call does alike.** -/
theorem call (h : AppAlike R app app') (hR : Lifts R R') (contentLength : Option JString)
    (outcome : Outcome) (multiThreaded : Bool) {s : Exchange σ} {t : Exchange τ} (hst : R' s t) :
    R' (app.call contentLength outcome multiThreaded s)
      (app'.call contentLength outcome multiThreaded t) := by
  unfold RackApplication.call
  rcases RackInput.RubyIORackInput.new contentLength with e | io
  · exact hst
  refine related_executeBlocking ?_ (fun r => ?_) hst
  · cases outcome with
    | raises e => exact .raise e
    | returns result =>
      refine Act.Related.bind_eq (.pure rfl) fun result => ?_
      cases multiThreaded with
      | true => exact .pure rfl
      | false => exact (h.respond hR result).bind_eq fun _ => .pure rfl
  · rcases r with e | result
    · exact h.fail hR e
    · exact h.respond hR result

end AppAlike

end RackApplication

end Jubilee
