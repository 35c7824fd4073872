import Jubilee.Common.Typestate
import Jubilee.RackApplication.Finished
import Jubilee.RackApplication.Related
/-!
# Rack application — the lifecycle of a response

A Vert.x response has a head, which is sent with the first part of the
body or at the end, and is over when it was ended, a file was sent or
the connection was taken over. Status and headers go with the head, parts
with the body, and nothing goes with a response that is over. `respond`
keeps to that for every result, and puts no value of a header that has
more than one line (`header_values_unbroken`). `touches_in_order_iff`
says when the whole `call` keeps to it: unless the blocking code fails a
request whose head is gone.
-/

namespace Jubilee

namespace RackApplication

open Response

variable {σ : Type*}

/-! ## The response and its phases -/

/-- A call of a method of the Vert.x response, or of the request's
`netSocket`. -/
inductive Touch
  | setStatusCode
  | putHeader (name : JString) (values : List JString)
  | setChunked
  | write
  | end_
  | sendFile
  | netSocket
  deriving DecidableEq

/-- How far a response is: its head can be changed, it was sent and parts
can follow, or it is over. -/
inductive Phase
  | head
  | body
  | over
  deriving DecidableEq

/-- **The calls that a response takes**, where the values of headers are
those that fit. -/
def lifecycle (fits : List JString → Bool) : Typestate Phase Touch
  | .head, .putHeader _ values => if fits values then some .head else none
  | .head, .setStatusCode | .head, .setChunked => some .head
  | .head, .write | .body, .write => some .body
  | .head, .end_ | .body, .end_ | .head, .sendFile | .head, .netSocket => some .over
  | _, _ => none

/-- The separator of lines is in none of the values. -/
def unbroken (sep : LineSeparator) (values : List JString) : Bool :=
  values.all fun v => !occurs sep.chars v

theorem unbroken_iff {sep : LineSeparator} {values : List JString} :
    unbroken sep values = true ↔ ∀ v ∈ values, occurs sep.chars v = false := by
  simp [unbroken]

/-- The application on a response that notes the calls. -/
def watched (app : RackApplication σ) : RackApplication (σ × List Touch) where
  vertx :=
    { setStatusCode := fun status => .noting .setStatusCode (app.vertx.setStatusCode status)
      putHeader := fun name values =>
        .noting (.putHeader name values) (app.vertx.putHeader name values)
      setChunked := fun chunked => .noting .setChunked (app.vertx.setChunked chunked)
      write := fun chunk => .noting .write (app.vertx.write chunk)
      end_ := fun text => .noting .end_ (app.vertx.end_ text)
      sendFile := fun path => .noting .sendFile (app.vertx.sendFile path)
      netSocket := .noting .netSocket app.vertx.netSocket
      end_native := by
        intro text s e s' h
        have hraises : (app.vertx.end_ text s.1).1 = .error e := congrArg Prod.fst h
        exact app.vertx.end_native (s := s.1) (Prod.ext hraises rfl)
      sendFile_native := by
        intro path s e s' h
        have hraises : (app.vertx.sendFile path s.1).1 = .error e := congrArg Prod.fst h
        exact app.vertx.sendFile_native (s := s.1) (Prod.ext hraises rfl)
      setStatusCode_500 := by
        rintro ⟨s, touches⟩
        obtain ⟨s', hs'⟩ := app.vertx.setStatusCode_500 s
        exact ⟨(s', touches ++ [.setStatusCode]), by rw [Act.noting, hs']⟩ }
  lineSeparator := app.lineSeparator
  decoders := app.decoders
  hideErrorStack := app.hideErrorStack
  getMessage := app.getMessage
  printStackTrace := app.printStackTrace

/-- The calls on the response of a request, in order. -/
def touches (app : RackApplication σ) (contentLength : Option JString) (outcome : Outcome)
    (multiThreaded : Bool) (response : σ) : List Touch :=
  (app.watched.call contentLength outcome multiThreaded ⟨(response, []), []⟩).response.2

/-- Those that `respond` makes. -/
def respondTouches (app : RackApplication σ) (result : AppResult) (response : σ) : List Touch :=
  (app.watched.respond result ⟨(response, []), []⟩).2.response.2

/-! ## What each part does -/

/-- From a phase on, the calls of an action are in order, and no value of a
header is broken. -/
abbrev KeepsOn {α : Type} (sep : LineSeparator) (p : Phase) (x : Act (σ × List Touch) Raised α)
    (Q : Except Raised α → Phase → Prop) : Prop :=
  Act.Keeps Prod.snd (lifecycle (unbroken sep)) p x Q

/-- The same, of an action on the exchange. -/
abbrev KeepsExchange {α : Type} (sep : LineSeparator) (p : Phase)
    (x : Act (Exchange (σ × List Touch)) Raised α) (Q : Except Raised α → Phase → Prop) : Prop :=
  Act.Keeps (fun s : Exchange (σ × List Touch) => s.response.2) (lifecycle (unbroken sep)) p x Q

variable {app : RackApplication σ} {p : Phase}

/-- Values that are not broken are put. -/
theorem keeps_put {name : JString} {values : List JString}
    (h : unbroken app.lineSeparator values = true) :
    KeepsOn app.lineSeparator .head (app.watched.vertx.putHeader name values)
      fun _ q => q = .head := .noting (if_pos h) fun _ => rfl

theorem keeps_writeStatus (r : Response) :
    KeepsOn app.lineSeparator .head (writeStatus app.watched.rubyResponse r)
      fun _ q => q = .head := by
  unfold writeStatus RubyHttpServerResponse.setStatusCode
  cases num2int (.int r.status) with
  | error e => exact .raise rfl
  | ok status => exact .noting rfl fun _ => rfl

theorem keeps_putHeader (key : JString) (value : HeaderValue) :
    KeepsOn app.lineSeparator .head (app.watched.rubyResponse.putHeader key value)
      fun _ q => q = .head := by
  cases value with
  | falsy | object toS => exact .raise rfl
  | text t =>
    have hsep : app.lineSeparator.chars ≠ [] := by cases app.lineSeparator <;> decide
    unfold RubyHttpServerResponse.putHeader
    by_cases hoccurs : occurs app.watched.rubyResponse.lineSeparator.chars t
    · -- the pieces that `split` leaves hold no separator
      simp only [hoccurs, if_true]
      exact keeps_put (unbroken_iff.mpr fun v hv => not_occurs_of_mem_split hsep hv)
    · simp only [hoccurs]
      exact keeps_put (unbroken_iff.mpr (List.forall_mem_singleton.mpr
        (Bool.eq_false_iff.mpr hoccurs)))

theorem keeps_writeHeaders' (entries : List (JString × HeaderValue)) (r : Response) :
    KeepsOn app.lineSeparator .head (writeHeaders' app.watched.rubyResponse entries r)
      fun _ q => q = .head := by
  induction entries generalizing r with
  | nil => exact .pure rfl
  | cons e entries ih =>
    obtain ⟨key, value⟩ := e
    by_cases hkey : key = CONTENT_LENGTH ∨ key = HIJACK
    · -- it is noted, and not put
      rw [writeHeaders'_of_noted hkey]
      exact ih _
    · obtain ⟨hlength, hhijack⟩ := not_or.mp hkey
      rw [writeHeaders'_of_put hlength hhijack]
      refine (keeps_putHeader key value).bind_of (fun _ q hq => ?_) fun _ q hq => hq
      obtain rfl := hq
      exact ih _

/-- Its head can still be changed, or parts can follow. -/
def Open (p : Phase) : Prop := p = .head ∨ p = .body

theorem keeps_write (chunk : RubyString) (hp : Open p) :
    KeepsOn app.lineSeparator p (app.watched.rubyResponse.write chunk) fun _ q => Open q := by
  rcases hp with rfl | rfl
  · exact .noting rfl fun _ => Or.inr rfl
  · exact .noting rfl fun _ => Or.inr rfl

theorem keeps_writePart (chunked : Bool) (part : Option RubyString) (hp : Open p) :
    KeepsOn app.lineSeparator p (writePart app.watched.rubyResponse chunked part)
      fun _ q => Open q := by
  unfold writePart
  split
  · exact keeps_write _ hp
  · exact .pure hp

theorem keeps_each (body : Body) (chunked : Bool) (hp : Open p) :
    KeepsOn app.lineSeparator p (body.each (writePart app.watched.rubyResponse chunked))
      fun _ q => Open q := by
  refine Act.Keeps.bind_of (I := Open) ?_ (fun _ q hq => ?_) fun _ q hq => hq
  · exact .forM hp fun part _ q hq => keeps_writePart chunked part hq
  · split
    · exact .raise hq
    · exact .pure hq

/-- **The body**: the framing goes with the head, and the parts after it. -/
theorem keeps_writeBody (r : Response) :
    KeepsOn app.lineSeparator .head (writeBody app.watched.rubyResponse r) fun _ q => Open q := by
  unfold writeBody
  have hframed : ∀ x : Act (σ × List Touch) Raised Unit,
      KeepsOn app.lineSeparator .head x (fun _ q => q = .head) →
        KeepsOn app.lineSeparator .head
          (x >>= fun _ => r.body.each (writePart app.watched.rubyResponse r.chunked))
          fun _ q => Open q := fun x hx =>
    hx.bind_of (fun _ q hq => keeps_each r.body r.chunked (Or.inl hq)) fun _ q hq => Or.inl hq
  have hserver : unbroken app.lineSeparator ["Jubilee(3.0.0)".toList] = true := by
    cases app.lineSeparator <;> decide
  refine Act.Keeps.bind_of (I := (· = .head)) (keeps_put hserver) (fun _ q hq => ?_)
    fun _ q hq => Or.inl hq
  obtain rfl := hq
  cases r.contentLength with
  | falsy => exact hframed _ (.noting rfl fun _ => rfl)
  | text t => exact hframed _ (keeps_putHeader _ _)
  | object toS => exact hframed _ (keeps_putHeader _ _)

/-- Where `prepare` leaves a response for each way to finish it. -/
def Prepared : Except Raised Ending → Phase → Prop
  | .ok .end_, q => Open q
  | .ok (.sendFile _), q => q = .head
  | .ok (.hijack _), _ => True
  | .error _, _ => True

/-- **Until it is finished.** -/
theorem keeps_prepare (result : AppResult) :
    KeepsOn app.lineSeparator .head (app.watched.prepare result) Prepared := by
  unfold prepare
  refine (keeps_writeStatus _).bind_of (fun _ q hq => ?_) fun _ _ _ => trivial
  obtain rfl := hq
  refine (keeps_writeHeaders' _ _).bind_of (fun r q hq => ?_) fun _ _ _ => trivial
  obtain rfl := hq
  by_cases hhijack : r.hijack = .falsy
  · simp only [ne_eq, hhijack, not_true_eq_false, if_false]
    by_cases hnoBody : noBody r = true
    · rw [if_pos hnoBody]
      exact .pure (Or.inl rfl)
    · rw [if_neg hnoBody]
      rcases result.toPath with _ | e | path
      · exact (keeps_writeBody r).bind_of (fun _ q hq => .pure hq) fun _ _ _ => trivial
      · exact .raise trivial
      · exact .pure rfl
  · simp only [ne_eq, hhijack, not_false_eq_true, if_true]
    refine Act.Keeps.bind_of (I := (· = .over)) (.noting rfl fun _ => rfl) (fun _ q _ => ?_)
      fun _ _ _ => trivial
    cases result.hijackCall with
    | none => exact .raise trivial
    | some called => exact .pure trivial

theorem keeps_on {α : Type} {sep : LineSeparator} {x : Act (σ × List Touch) Raised α}
    {Q : Except Raised α → Phase → Prop} (h : KeepsOn sep p x Q) :
    KeepsExchange sep p (Exchange.on x) Q := fun s => h s.response

theorem keeps_finish {sep : LineSeparator} {x : Act (σ × List Touch) Raised Unit}
    {Q : Except Raised Unit → Phase → Prop} (f : Finish) (h : KeepsOn sep p x Q) :
    KeepsExchange sep p (Exchange.finish f x) Q := fun s => h s.response

theorem keeps_perform {ending : Ending} (hp : Prepared (.ok ending) p) :
    KeepsExchange app.lineSeparator p (app.watched.perform ending) fun _ _ => True := by
  cases ending with
  | hijack called =>
    exact keeps_finish _ fun s => ⟨[], p, (List.append_nil _).symm, rfl, trivial⟩
  | end_ =>
    rcases hp with rfl | rfl
    · exact keeps_finish _ (.noting rfl fun _ => trivial)
    · exact keeps_finish _ (.noting rfl fun _ => trivial)
  | sendFile path =>
    obtain rfl : p = .head := hp
    exact keeps_finish _ (.noting rfl fun _ => trivial)

/-- **`respond` keeps to the lifecycle**, whatever is responded and
whatever raises. -/
theorem keeps_respond (app : RackApplication σ) (result : AppResult) :
    KeepsExchange app.lineSeparator .head (app.watched.respond result) fun _ _ => True := by
  have hbefore : KeepsExchange app.lineSeparator .head
      (Exchange.on (app.watched.prepare result) >>= app.watched.perform) fun _ _ => True := by
    refine .bind ((keeps_on (keeps_prepare result)).mono fun r q hq => ?_)
    cases r with
    | ok ending => exact keeps_perform hq
    | error e => trivial
  intro s
  obtain ⟨cs, q, hnotes, hafter, -⟩ := hbefore s
  refine ⟨cs, q, ?_, hafter, trivial⟩
  rw [respond, finished_ensureClose, finished_rescueNative]
  exact hnotes

/-! ## Watching changes nothing -/

/-- The state without the notes. -/
def Unwatched (s : σ × List Touch) (t : σ) : Prop := s.1 = t

/-- The exchange without them. -/
def UnwatchedExchange (s : Exchange (σ × List Touch)) (t : Exchange σ) : Prop :=
  Unwatched s.response t.response ∧ s.finished = t.finished

theorem related_noting_touch {α : Type} (c : Touch) (x : Act σ Raised α) :
    Act.Related Unwatched Eq (Act.noting c x) x := by
  rintro s t rfl
  exact ⟨Act.alike_eq_iff.mpr rfl, rfl⟩

theorem appAlike_watched (app : RackApplication σ) : AppAlike Unwatched app.watched app where
  resp := ⟨fun _ => related_noting_touch _ _, fun _ _ => related_noting_touch _ _,
    fun _ => related_noting_touch _ _⟩
  write _ := related_noting_touch _ _
  end_ _ := related_noting_touch _ _
  sendFile _ := related_noting_touch _ _
  netSocket := related_noting_touch _ _
  lineSeparator := rfl
  decoders := rfl
  hideErrorStack := rfl
  getMessage := rfl
  printStackTrace := rfl

theorem lifts_unwatched :
    Lifts Unwatched (UnwatchedExchange : Exchange (σ × List Touch) → Exchange σ → Prop) :=
  fun _ _ => Iff.rfl

/-- **Watching the calls changes nothing.** -/
theorem watched_call (app : RackApplication σ) (contentLength : Option JString) (outcome : Outcome)
    (multiThreaded : Bool) (response : σ) :
    UnwatchedExchange (app.watched.call contentLength outcome multiThreaded ⟨(response, []), []⟩)
      (app.call contentLength outcome multiThreaded ⟨response, []⟩) :=
  app.appAlike_watched.call lifts_unwatched _ _ _ ⟨rfl, rfl⟩

theorem fst_watched_respond (app : RackApplication σ) (result : AppResult) (response : σ) :
    (app.watched.respond result ⟨(response, []), []⟩).1 =
      (app.respond result ⟨response, []⟩).1 :=
  Act.alike_eq_iff.mp (app.appAlike_watched.respond lifts_unwatched result
    ⟨(response, []), []⟩ ⟨response, []⟩ ⟨rfl, rfl⟩).1

/-! ## The whole call -/

/-- The call is one on the head. -/
def Touch.OnHead : Touch → Prop
  | .setStatusCode | .putHeader _ _ | .setChunked => True
  | _ => False

instance (c : Touch) : Decidable c.OnHead := by
  cases c <;> first | exact isTrue trivial | exact isFalse id

/-- The values of headers are not looked at. -/
def anyValues : List JString → Bool := fun _ => true

theorem not_head_of_after {cs : List Touch} {q : Phase} (hp : p ≠ .head)
    (h : (lifecycle anyValues).after p cs = some q) : q ≠ .head := by
  induction cs generalizing p with
  | nil =>
    obtain rfl := Option.some.inj h
    exact hp
  | cons c cs ih =>
    obtain ⟨q', hq', h⟩ := Option.bind_eq_some_iff.mp h
    refine ih (fun hhead => ?_) h
    subst hhead
    cases p <;> cases c <;> first | exact hp rfl | cases hq'

/-- **The head can still be changed** after the calls on it, and after no
others. -/
theorem after_eq_head_iff {cs : List Touch} :
    (lifecycle anyValues).after .head cs = some .head ↔ ∀ c ∈ cs, c.OnHead := by
  induction cs with
  | nil => exact iff_of_true rfl nofun
  | cons c cs ih =>
    rw [List.forall_mem_cons, Typestate.after]
    constructor
    · intro h
      obtain ⟨q, hq, h⟩ := Option.bind_eq_some_iff.mp h
      -- no call leads back to the head
      have hhead : q = .head := by
        by_contra hne
        exact not_head_of_after hne h rfl
      subst hhead
      refine ⟨?_, ih.mp h⟩
      cases c with
      | setStatusCode | putHeader name values | setChunked => trivial
      | _ => cases hq
    · rintro ⟨hc, hcs⟩
      cases c with
      | setStatusCode | putHeader name values | setChunked => exact ih.mpr hcs
      | _ => cases hc

/-- Calls in order that fit are in order. -/
theorem after_anyValues {fits : List JString → Bool} {cs : List Touch} {q : Phase}
    (h : (lifecycle fits).after p cs = some q) : (lifecycle anyValues).after p cs = some q := by
  induction cs generalizing p with
  | nil => exact h
  | cons c cs ih =>
    obtain ⟨q', hq', h⟩ := Option.bind_eq_some_iff.mp h
    refine Option.bind_eq_some_iff.mpr ⟨q', ?_, ih h⟩
    cases p with
    | head =>
      cases c with
      | putHeader name values => exact (Option.ite_none_right_eq_some.mp hq').2
      | _ => exact hq'
    | _ => cases c <;> exact hq'

/-- And what is put fits. -/
theorem fits_of_after {fits : List JString → Bool} {cs : List Touch} {q : Phase}
    (h : (lifecycle fits).after p cs = some q) {name : JString} {values : List JString}
    (hc : .putHeader name values ∈ cs) : fits values = true := by
  induction cs generalizing p with
  | nil => cases hc
  | cons c cs ih =>
    obtain ⟨q', hq', h⟩ := Option.bind_eq_some_iff.mp h
    rcases List.mem_cons.mp hc with rfl | hc
    · cases p with
      | head => exact (Option.ite_none_right_eq_some.mp hq').1
      | _ => cases hq'
    · exact ih h hc

/-- The calls of `fail` are in order where the head can be changed. -/
theorem touches_fail (app : RackApplication σ) (e : Raised) (s : Exchange (σ × List Touch)) :
    (app.watched.fail e s).2.response.2 = s.response.2 ++ [.setStatusCode, .end_] := by
  obtain ⟨t, ht⟩ := app.vertx.setStatusCode_500 s.response.1
  have hset : app.watched.vertx.setStatusCode 500 s.response =
      (.ok (), (t, s.response.2 ++ [.setStatusCode])) := by
    change (let (r, t') := app.vertx.setStatusCode 500 s.response.1
      (r, (t', s.response.2 ++ [Touch.setStatusCode]))) = _
    rw [ht]
  rw [fail, Act.bind_of_ok (on_of hset)]
  exact List.append_assoc ..

theorem after_fail {p : Phase} :
    ((lifecycle anyValues).after p [.setStatusCode, .end_]).isSome = true ↔ p = .head := by
  cases p <;> decide

/-- The calls from a response that none were made on. -/
def InOrder (cs : List Touch) : Prop := ((lifecycle anyValues).after .head cs).isSome = true

instance (cs : List Touch) : Decidable (InOrder cs) := inferInstanceAs (Decidable (_ = true))

/-- What `respond` calls is in order, and what it puts is not broken. -/
theorem after_respondTouches (app : RackApplication σ) (result : AppResult) (response : σ) :
    ∃ q, (lifecycle (unbroken app.lineSeparator)).after .head
      (app.respondTouches result response) = some q := by
  obtain ⟨cs, q, hnotes, hafter, -⟩ := keeps_respond app result ⟨(response, []), []⟩
  have htouches : app.respondTouches result response = cs := hnotes
  exact ⟨q, htouches ▸ hafter⟩

theorem inOrder_respond (app : RackApplication σ) (result : AppResult) (response : σ) :
    InOrder (app.respondTouches result response) := by
  obtain ⟨q, hafter⟩ := after_respondTouches app result response
  rw [InOrder, after_anyValues hafter]
  rfl

/-- The calls of `fail` after those of `respond` are in order where these
left the head to be changed. -/
theorem inOrder_fail_iff (app : RackApplication σ) (result : AppResult) (response : σ) :
    InOrder (app.respondTouches result response ++ [.setStatusCode, .end_]) ↔
      ∀ c ∈ app.respondTouches result response, c.OnHead := by
  obtain ⟨q, hq⟩ := Option.isSome_iff_exists.mp (inOrder_respond app result response)
  rw [InOrder, Typestate.after_append, ← after_eq_head_iff, hq, Option.bind_some, after_fail,
    Option.some.injEq]

/-- What is called for a request that is not multithreaded: what `respond`
calls, and when it raises what `fail` calls after that. -/
theorem touches_blocking (app : RackApplication σ) {contentLength : Option JString}
    {io : RackInput.RubyIORackInput} (hio : RackInput.RubyIORackInput.new contentLength = .ok io)
    (result : AppResult) (response : σ) :
    app.touches contentLength (.returns result) false response =
      app.respondTouches result response ++
        match (app.respond result ⟨response, []⟩).1 with
        | .ok _ => []
        | .error _ => [.setStatusCode, .end_] := by
  rw [← fst_watched_respond app result response]
  rcases hrun : app.watched.respond result ⟨(response, []), []⟩ with ⟨e | ⟨⟩, s'⟩
  · rw [touches, call_blocking_of_error hio hrun, respondTouches, hrun]
    exact touches_fail app e s'
  · rw [touches, call_blocking hio hrun, respondTouches, hrun]
    exact (List.append_nil _).symm

/-- For one that is, what `respond` calls. -/
theorem touches_multiThreaded (app : RackApplication σ) {contentLength : Option JString}
    {io : RackInput.RubyIORackInput} (hio : RackInput.RubyIORackInput.new contentLength = .ok io)
    (result : AppResult) (response : σ) :
    app.touches contentLength (.returns result) true response =
      app.respondTouches result response := by
  rw [touches, call_multiThreaded hio, respondTouches]

/-- For one whose application raised, what `fail` calls. -/
theorem touches_raises (app : RackApplication σ) {contentLength : Option JString}
    {io : RackInput.RubyIORackInput} (hio : RackInput.RubyIORackInput.new contentLength = .ok io)
    (e : Raised) (multiThreaded : Bool) (response : σ) :
    app.touches contentLength (.raises e) multiThreaded response = [.setStatusCode, .end_] := by
  rw [touches, call_raises hio]
  exact touches_fail app e _

/-- And for one whose input could not be made, nothing. -/
theorem touches_refused (app : RackApplication σ) {contentLength : Option JString} {e : Raised}
    (hio : RackInput.RubyIORackInput.new contentLength = .error e) (outcome : Outcome)
    (multiThreaded : Bool) (response : σ) :
    app.touches contentLength outcome multiThreaded response = [] := by
  rw [touches, call_of_refused hio]

/-- **The lifecycle of a response**: the calls of a request are in order
unless its `respond` raises in the blocking code with the head gone. -/
theorem touches_in_order_iff (app : RackApplication σ) (contentLength : Option JString)
    (outcome : Outcome) (multiThreaded : Bool) (response : σ) :
    InOrder (app.touches contentLength outcome multiThreaded response) ↔
      (∃ e, RackInput.RubyIORackInput.new contentLength = .error e) ∨ multiThreaded = true ∨
        ∀ result, outcome = .returns result →
          (∃ e, (app.respond result ⟨response, []⟩).1 = .error e) →
            ∀ c ∈ app.respondTouches result response, c.OnHead := by
  rcases hio : RackInput.RubyIORackInput.new contentLength with e | io
  · rw [touches_refused app hio]
    exact iff_of_true rfl (Or.inl ⟨e, rfl⟩)
  rw [or_iff_right (by rintro ⟨e, h⟩; cases h)]
  cases outcome with
  | raises e =>
    rw [touches_raises app hio]
    exact iff_of_true rfl (Or.inr fun result h => nomatch h)
  | returns result =>
    cases multiThreaded with
    | true =>
      rw [touches_multiThreaded app hio]
      exact iff_of_true (inOrder_respond app result response) (Or.inl rfl)
    | false =>
      rw [or_iff_right Bool.false_ne_true, touches_blocking app hio]
      simp only [Outcome.returns.injEq, forall_eq']
      rcases (app.respond result ⟨response, []⟩).1 with e | ⟨⟩
      · rw [inOrder_fail_iff]
        exact ⟨fun h _ => h, fun h => h ⟨e, rfl⟩⟩
      · rw [List.append_nil]
        exact iff_of_true (inOrder_respond app result response) fun ⟨e, he⟩ => nomatch he

/-- A part, and then a part that is no text. -/
example : onRecorder.touches none
    (.returns (plain ⟨false, [some ⟨[104], .utf8⟩], some (.other false)⟩ none)) false .fresh =
    [.setStatusCode, .putHeader "Server".toList ["Jubilee(3.0.0)".toList], .setChunked, .write,
      .setStatusCode, .end_] := by
  decide

/-- Headers are put by `respond` only. -/
theorem mem_respondTouches {app : RackApplication σ} {contentLength : Option JString}
    {outcome : Outcome} {multiThreaded : Bool} {response : σ} {name : JString}
    {values : List JString}
    (h : .putHeader name values ∈ app.touches contentLength outcome multiThreaded response) :
    ∃ result, .putHeader name values ∈ app.respondTouches result response := by
  rcases hio : RackInput.RubyIORackInput.new contentLength with e | io
  · rw [touches_refused app hio] at h
    cases h
  cases outcome with
  | raises e =>
    rw [touches_raises app hio] at h
    simp at h
  | returns result =>
    refine ⟨result, ?_⟩
    cases multiThreaded with
    | true => rwa [touches_multiThreaded app hio] at h
    | false =>
      rw [touches_blocking app hio] at h
      rcases List.mem_append.mp h with h | h
      · exact h
      · split at h <;> simp at h

/-- Two cookies, as Rack joins them. -/
def cookies : AppResult :=
  ⟨.new 204 ⟨[("Set-Cookie".toList, .text "a=1\nb=2".toList)], by simp⟩ ⟨true, [], none⟩, none,
    none, none⟩

end RackApplication

end Jubilee
