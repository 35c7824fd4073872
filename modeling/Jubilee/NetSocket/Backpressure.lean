import Jubilee.NetSocket.Write
/-!
# Net socket — backpressure

Only `write` fills the queue, and it waits where it finds the queue full.
So nothing is ever handed over to a full queue, which therefore holds no
more than its maximum and one string (`backpressure`). A `write` that
waits is let go when the queue drains, if that was full when the handler
was set: between the test and the handler another thread may drain it,
and of a handler that is set then nothing is documented.
-/

namespace Jubilee

namespace NetSocket

open Response (asJavaString)

variable {Q E : Type*} {p : Platform Q E} {s s' : WriteSession Q} {sock sock' : Writer Q}
  {str : WriteArg} {k : Write} {maxSize n : ℕ}

/-! ## What is documented of a stream -/

namespace WriteStream

variable (stream : WriteStream Q E)

/-- Something happens, and the drain handler is not called. -/
def quietly (q : Q) (e : E) : Option Q :=
  match stream.happen e q with
  | some (q', false) => some q'
  | _ => none

/-- The drain handler can be called in the end. -/
def Calls (q : Q) : Prop :=
  ∃ es e q' q'', Run.play stream.quietly es q = some q' ∧ stream.happen e q' = some (q'', true)

/-- **What Vert.x documents** of a stream whose queue is full when it has
more than `maxSize` bytes, and that is written to by one socket only. -/
structure Documented (maxSize : ℕ) : Prop where
  size_new : stream.size stream.new = 0
  /-- `writeQueueFull` is true where there are more bytes than that. -/
  size_le : ∀ q, stream.writeQueueFull q = false → stream.size q ≤ maxSize
  size_write : ∀ text q,
    stream.size (stream.write text q) ≤ stream.size q + (encodeUtf8 text).length
  size_drainHandler : ∀ q, stream.size (stream.drainHandler q) = stream.size q
  /-- Nothing but `write` puts bytes into the queue. -/
  size_happen : ∀ e q q' called, stream.happen e q = some (q', called) →
    stream.size q' ≤ stream.size q
  full_happen : ∀ e q q' called, stream.happen e q = some (q', called) →
    stream.writeQueueFull q = false → stream.writeQueueFull q' = false
  /-- The drain handler is called when buffers are accepted again. -/
  full_called : ∀ e q q', stream.happen e q = some (q', true) → stream.writeQueueFull q' = false
  /-- It can be called then, if the queue was full when it was set. -/
  calls : ∀ q es q', stream.writeQueueFull q = true →
    Run.play stream.quietly es (stream.drainHandler q) = some q' → stream.Calls q'

variable {stream}

theorem quietly_eq_some {q q' : Q} {e : E} :
    stream.quietly q e = some q' ↔ stream.happen e q = some (q', false) := by
  unfold quietly
  constructor
  · intro h
    split at h
    · obtain rfl := Option.some.inj h
      assumption
    · cases h
  · intro h
    rw [h]

end WriteStream

/-! ## What holds in every run -/

/-- What a `write` knows of the queue where it is. -/
def Write.Knows (p : Platform Q E) (sock : Writer Q) : Write → Prop
  | .waitWritable _ => sock.writable = true → p.stream.writeQueueFull sock.stream = false
  | .write _ => p.stream.writeQueueFull sock.stream = false
  | _ => True

/-- **Where a step of `write` leads**: it goes on and adds nothing to the
queue, or it is done, having handed over its string or failed. -/
theorem write_step_cases (hp : p.stream.Documented maxSize) (k : Write) (sock : Writer Q)
    (hk : k.Knows p sock) :
    (∃ k' sock', (write p).step k sock = (.goto k', sock') ∧
      p.stream.size sock'.stream = p.stream.size sock.stream ∧ k'.Knows p sock') ∨
    (∃ r, (write p).step k sock = (.done r, sock)) ∨
    ∃ data, k = .write data ∧ (write p).step k sock =
      (.done (.ok (p.length data)), sock.send p (asJavaString p.decoders data)) := by
  cases k with
  | entry str =>
    cases hclosed : sock.writeClosed with
    | true => exact Or.inr (Or.inl ⟨_, step_entry_of_writeClosed hclosed⟩)
    | false =>
      cases hdata : str.data with
      | error e => exact Or.inr (Or.inl ⟨_, step_entry_of_error hclosed hdata⟩)
      | ok data => exact Or.inl ⟨_, _, step_entry_of_data hclosed hdata, rfl, trivial⟩
  | writeQueueFull data =>
    cases hfull : p.stream.writeQueueFull sock.stream with
    | true => exact Or.inl ⟨_, _, step_writeQueueFull_of_full hfull, rfl, trivial⟩
    | false => exact Or.inl ⟨_, _, step_writeQueueFull hfull, rfl, hfull⟩
  | drainHandler data =>
    exact Or.inl ⟨.waitWritable data, _, rfl, hp.size_drainHandler _, nofun⟩
  | waitWritable data =>
    cases hwritable : sock.writable with
    | true => exact Or.inl ⟨_, _, step_waitWritable_of_writable hwritable, rfl, hk hwritable⟩
    | false => exact Or.inl ⟨_, _, step_waitWritable hwritable, rfl, hk⟩
  | write data => exact Or.inr (Or.inr ⟨data, rfl, rfl⟩)

/-- **The invariant**: a flag that is set was set when the queue was ready,
and it has been since. -/
def Flow (p : Platform Q E) (s : WriteSession Q) : Prop :=
  ∀ str k, s.running = some (str, k) → k.Knows p s.sock

theorem flow_start (p : Platform Q E) : Flow p (.start p) := nofun

theorem flow_act (hp : p.stream.Documented maxSize) (h : Flow p s) {a : WriteAct E}
    (ha : s.act p a = some s') : Flow p s' := by
  obtain ⟨e, sock, -, hsock, rfl⟩ | ⟨str, -, -, rfl⟩ | ⟨-, hidle, rfl⟩ | ⟨-, hidle, rfl⟩ |
    ⟨str, k, -, hrunning, rfl⟩ := WriteSession.act_cases ha
  · obtain ⟨stream, called, hnext, rfl⟩ := Writer.happen_cases hsock
    intro str k hk
    have hknows := h str k hk
    cases k with
    | waitWritable data =>
      intro hwritable
      -- the handler sets the flag when the queue is ready, and else it was set before
      cases called with
      | true => exact hp.full_called e _ _ hnext
      | false => exact hp.full_happen e _ _ _ hnext (hknows (by rwa [Bool.or_false] at hwritable))
    | write data => exact hp.full_happen e _ _ _ hnext hknows
    | entry | writeQueueFull | drainHandler => trivial
  · intro str' k' hk
    obtain ⟨rfl, rfl⟩ := Prod.mk.inj (Option.some.inj hk)
    trivial
  · exact fun _ _ hk => nomatch hidle.symm.trans hk
  · exact fun _ _ hk => nomatch hidle.symm.trans hk
  · obtain ⟨k', sock', hstep, -, hknows⟩ | ⟨r, hstep⟩ | ⟨data, -, hstep⟩ :=
      write_step_cases hp k s.sock (h str k hrunning)
    · rw [advance_goto hstep]
      intro str' k'' hk
      obtain ⟨rfl, rfl⟩ := Prod.mk.inj (Option.some.inj hk)
      exact hknows
    · rw [advance_done hstep]
      exact nofun
    · rw [advance_done hstep]
      exact nofun

/-! ## How much the queue holds -/

/-- The string takes at most `n` bytes. -/
def Short (p : Platform Q E) (n : ℕ) (str : WriteArg) : Prop :=
  ∀ data, str.data = .ok data → (encodeUtf8 (asJavaString p.decoders data)).length ≤ n

/-- The queue holds its maximum and one string, at most. -/
structure Bounded (p : Platform Q E) (maxSize n : ℕ) (s : WriteSession Q) : Prop where
  sent : Sent p s
  flow : Flow p s
  size_le : p.stream.size s.sock.stream ≤ maxSize + n
  short : ∀ str k, s.running = some (str, k) → Short p n str

theorem bounded_start (hp : p.stream.Documented maxSize) (n : ℕ) : Bounded p maxSize n (.start p) :=
  ⟨sent_start p, flow_start p, hp.size_new.trans_le (Nat.zero_le _), nofun⟩

theorem bounded_act (hp : p.stream.Documented maxSize) (h : Bounded p maxSize n s) {a : WriteAct E}
    (ha : s.act p a = some s') (hshort : ∀ str, a = .call str → Short p n str) :
    Bounded p maxSize n s' := by
  refine ⟨sent_act h.sent ha, flow_act hp h.flow ha, ?_, ?_⟩
  · obtain ⟨e, sock, -, hsock, rfl⟩ | ⟨str, -, -, rfl⟩ | ⟨-, -, rfl⟩ | ⟨-, -, rfl⟩ |
      ⟨str, k, -, hrunning, rfl⟩ := WriteSession.act_cases ha
    · obtain ⟨stream, called, hnext, rfl⟩ := Writer.happen_cases hsock
      exact (hp.size_happen e _ _ _ hnext).trans h.size_le
    · exact h.size_le
    · exact h.size_le
    · exact h.size_le
    · obtain ⟨k', sock', hstep, hsize, -⟩ | ⟨r, hstep⟩ | ⟨data, rfl, hstep⟩ :=
        write_step_cases hp k s.sock (h.flow str k hrunning)
      · rw [advance_goto hstep]
        exact hsize.trans_le h.size_le
      · rw [advance_done hstep]
        exact h.size_le
      · -- the queue is not full, so the string comes on top of its maximum at most
        rw [advance_done hstep]
        have hle := hp.size_le _ (h.flow str _ hrunning)
        have hlength := h.short str _ hrunning data (h.sent.running str _ hrunning).1
        exact (hp.size_write _ _).trans (Nat.add_le_add hle hlength)
  · obtain ⟨e, sock, -, -, rfl⟩ | ⟨str, rfl, -, rfl⟩ | ⟨-, hidle, rfl⟩ | ⟨-, hidle, rfl⟩ |
      ⟨str, k, -, hrunning, rfl⟩ := WriteSession.act_cases ha
    · exact h.short
    · intro str' k' hk
      obtain ⟨rfl, -⟩ := Prod.mk.inj (Option.some.inj hk)
      exact hshort str rfl
    · exact h.short
    · exact h.short
    · intro str' k' hk
      unfold WriteSession.advance at hk
      split at hk
      · obtain ⟨rfl, -⟩ := Prod.mk.inj (Option.some.inj hk)
        exact h.short str k hrunning
      · cases hk

/-! ## A handler that is set in time -/

/-- The queue was full, and has drained before the handler is set. -/
def WriteSession.TooLate (p : Platform Q E) (s : WriteSession Q) : Prop :=
  match s.running with
  | some (_, .drainHandler _) => p.stream.writeQueueFull s.sock.stream = false
  | _ => False

instance (p : Platform Q E) (s : WriteSession Q) : Decidable (s.TooLate p) := by
  unfold WriteSession.TooLate
  split <;> infer_instance

theorem full_of_not_tooLate {data : RubyString}
    (hrunning : s.running = some (str, .drainHandler data))
    (hlate : ¬ s.TooLate p) : p.stream.writeQueueFull s.sock.stream = true := by
  rw [WriteSession.TooLate, hrunning] at hlate
  exact Bool.of_not_eq_false hlate

/-- A handler was set while the queue was full, and was not called since. -/
def WriteStream.Awaits (stream : WriteStream Q E) (q : Q) : Prop :=
  ∃ q₀ es, stream.writeQueueFull q₀ = true ∧
    Run.play stream.quietly es (stream.drainHandler q₀) = some q

/-- **The invariant**: a `write` that waits is to be called, or was. -/
def Armed (p : Platform Q E) (s : WriteSession Q) : Prop :=
  ∀ str data, s.running = some (str, .waitWritable data) →
    s.sock.writable = true ∨ p.stream.Awaits s.sock.stream

theorem armed_start (p : Platform Q E) : Armed p (.start p) := nofun

/-- A `write` comes to wait by setting the handler, and goes on waiting
where the flag is not set. -/
theorem armed_advance (h : Armed p s) (hrunning : s.running = some (str, k))
    (hlate : ¬ s.TooLate p) : Armed p (s.advance p str k) := by
  have hgoto : ∀ {k' sock'}, (write p).step k s.sock = (.goto k', sock') →
      (∀ data, k' ≠ .waitWritable data) → Armed p (s.advance p str k) := by
    intro k' sock' hstep hne
    rw [advance_goto hstep]
    intro str' data hk
    exact absurd (Prod.mk.inj (Option.some.inj hk)).2 (hne data)
  have hdone : ∀ {r sock'}, (write p).step k s.sock = (.done r, sock') →
      Armed p (s.advance p str k) := by
    intro r sock' hstep
    rw [advance_done hstep]
    exact nofun
  cases k with
  | entry str' =>
    cases hclosed : s.sock.writeClosed with
    | true => exact hdone (step_entry_of_writeClosed hclosed)
    | false =>
      cases hdata : str'.data with
      | error e => exact hdone (step_entry_of_error hclosed hdata)
      | ok data => exact hgoto (step_entry_of_data hclosed hdata) nofun
  | writeQueueFull data =>
    cases hfull : p.stream.writeQueueFull s.sock.stream with
    | true => exact hgoto (step_writeQueueFull_of_full hfull) nofun
    | false => exact hgoto (step_writeQueueFull hfull) nofun
  | drainHandler data =>
    have hfull := full_of_not_tooLate hrunning hlate
    have hstep : (write p).step (.drainHandler data) s.sock = (.goto (.waitWritable data),
        { s.sock with stream := p.stream.drainHandler s.sock.stream, writable := false }) := rfl
    rw [advance_goto hstep]
    exact fun _ _ _ => Or.inr ⟨s.sock.stream, [], hfull, rfl⟩
  | waitWritable data =>
    cases hwritable : s.sock.writable with
    | true => exact hgoto (step_waitWritable_of_writable hwritable) nofun
    | false =>
      rw [advance_goto (step_waitWritable hwritable)]
      exact fun _ _ _ => h str data hrunning
  | write data => exact hdone rfl

theorem armed_act (h : Armed p s) {a : WriteAct E} (ha : s.act p a = some s')
    (hlate : ¬ s.TooLate p) : Armed p s' := by
  obtain ⟨e, sock, -, hsock, rfl⟩ | ⟨str, -, -, rfl⟩ | ⟨-, hidle, rfl⟩ | ⟨-, hidle, rfl⟩ |
    ⟨str, k, -, hrunning, rfl⟩ := WriteSession.act_cases ha
  · obtain ⟨stream, called, hnext, rfl⟩ := Writer.happen_cases hsock
    intro str data hk
    cases called with
    | true => exact Or.inl (Bool.or_true _)
    | false =>
      rcases h str data hk with hwritable | ⟨q₀, es, hfull, hplay⟩
      · exact Or.inl (by rw [hwritable, Bool.true_or])
      · have hquiet : p.stream.quietly s.sock.stream e = some stream :=
          WriteStream.quietly_eq_some.mpr hnext
        exact Or.inr ⟨q₀, es ++ [e], hfull, (Run.play_append hplay).trans (Run.play_cons hquiet)⟩
  · intro str' data hk
    cases (Prod.mk.inj (Option.some.inj hk)).2
  · exact fun _ _ hk => nomatch hidle.symm.trans hk
  · exact fun _ _ hk => nomatch hidle.symm.trans hk
  · exact armed_advance h hrunning hlate

/-! ## A `write` that waits -/

/-- The `write` that is running comes to its end, by steps of its own and by
what happens on the other threads. -/
def LetGo (p : Platform Q E) (s : WriteSession Q) : Prop :=
  ∃ acts s', (∀ a ∈ acts, a = .step ∨ ∃ e, a = .event e) ∧ s.run p acts = some s' ∧
    s'.running = none

theorem LetGo.of_act {a : WriteAct E} (ha : s.act p a = some s')
    (hown : a = .step ∨ ∃ e, a = .event e) (h : LetGo p s') : LetGo p s := by
  obtain ⟨acts, s'', hacts, hrun, hnone⟩ := h
  exact ⟨a :: acts, s'', List.forall_mem_cons.mpr ⟨hown, hacts⟩, (Run.play_cons ha).trans hrun,
    hnone⟩

theorem letGo_of_idle (h : s.running = none) : LetGo p s := ⟨[], s, nofun, rfl, h⟩

/-- It goes on by a step of its own. -/
theorem letGo_of_goto {k' : Write} (hrunning : s.running = some (str, k))
    (hstep : (write p).step k s.sock = (.goto k', sock'))
    (hnext : LetGo p { s with sock := sock', running := some (str, k') }) : LetGo p s := by
  have ha : s.act p .step = some (s.advance p str k) := by
    rw [WriteSession.act, hrunning, Option.map_some]
  refine .of_act ha (Or.inl rfl) ?_
  rw [advance_goto hstep]
  exact hnext

/-- It is done by one. -/
theorem letGo_of_done {r : Written} (hrunning : s.running = some (str, k))
    (hstep : (write p).step k s.sock = (.done r, sock')) : LetGo p s := by
  have ha : s.act p .step = some (s.advance p str k) := by
    rw [WriteSession.act, hrunning, Option.map_some]
  refine .of_act ha (Or.inl rfl) (letGo_of_idle ?_)
  rw [advance_done hstep]

theorem letGo_write {data : RubyString} (hrunning : s.running = some (str, .write data)) :
    LetGo p s := letGo_of_done hrunning rfl

/-- The flag is set. -/
theorem letGo_of_writable {data : RubyString}
    (hrunning : s.running = some (str, .waitWritable data))
    (hwritable : s.sock.writable = true) : LetGo p s :=
  letGo_of_goto hrunning (step_waitWritable_of_writable hwritable) (letGo_write rfl)

/-- **The wait ends** where the handler can be called in the end. -/
theorem letGo_of_calls {data : RubyString} (hrunning : s.running = some (str, .waitWritable data))
    (hcalls : p.stream.Calls s.sock.stream) : LetGo p s := by
  obtain ⟨es, e, q, q', hplay, hcalled⟩ := hcalls
  -- on what happens until the call
  induction es generalizing s with
  | nil =>
    obtain rfl := Option.some.inj hplay
    have ha : s.act p (.event e) = some { s with
        sock := { s.sock with stream := q', writable := s.sock.writable || true } } := by
      rw [WriteSession.act, Writer.happen, hcalled, Option.map_some, Option.map_some]
    exact .of_act ha (Or.inr ⟨e, rfl⟩) (letGo_of_writable hrunning (Bool.or_true _))
  | cons e' es ih =>
    obtain ⟨q₁, hquiet, hrest⟩ := Run.play_cons_cases hplay
    have ha : s.act p (.event e') = some { s with
        sock := { s.sock with stream := q₁, writable := s.sock.writable || false } } := by
      rw [WriteSession.act, Writer.happen, WriteStream.quietly_eq_some.mp hquiet, Option.map_some,
        Option.map_some]
    exact .of_act ha (Or.inr ⟨e', rfl⟩) (ih hrunning hrest)

theorem letGo_waitWritable (hp : p.stream.Documented maxSize) {data : RubyString}
    (hrunning : s.running = some (str, .waitWritable data))
    (h : s.sock.writable = true ∨ p.stream.Awaits s.sock.stream) : LetGo p s := by
  rcases h with hwritable | ⟨q₀, es, hfull, hplay⟩
  · exact letGo_of_writable hrunning hwritable
  · exact letGo_of_calls hrunning (hp.calls q₀ es _ hfull hplay)

theorem letGo_drainHandler (hp : p.stream.Documented maxSize) {data : RubyString}
    (hrunning : s.running = some (str, .drainHandler data))
    (hfull : p.stream.writeQueueFull s.sock.stream = true) : LetGo p s :=
  letGo_of_goto hrunning rfl
    (letGo_waitWritable hp rfl (Or.inr ⟨s.sock.stream, [], hfull, rfl⟩))

theorem letGo_writeQueueFull (hp : p.stream.Documented maxSize) {data : RubyString}
    (hrunning : s.running = some (str, .writeQueueFull data)) : LetGo p s := by
  cases hfull : p.stream.writeQueueFull s.sock.stream with
  | false => exact letGo_of_goto hrunning (step_writeQueueFull hfull) (letGo_write rfl)
  | true =>
    exact letGo_of_goto hrunning (step_writeQueueFull_of_full hfull)
      (letGo_drainHandler hp rfl hfull)

/-- **No `write` waits for ever** that set its handler in time. -/
theorem letGo_of_armed (hp : p.stream.Documented maxSize) (h : Armed p s) (hlate : ¬ s.TooLate p) :
    LetGo p s := by
  cases hrunning : s.running with
  | none => exact letGo_of_idle hrunning
  | some running =>
    obtain ⟨str, k⟩ := running
    cases k with
    | entry str' =>
      cases hclosed : s.sock.writeClosed with
      | true => exact letGo_of_done hrunning (step_entry_of_writeClosed hclosed)
      | false =>
        cases hdata : str'.data with
        | error e => exact letGo_of_done hrunning (step_entry_of_error hclosed hdata)
        | ok data =>
          exact letGo_of_goto hrunning (step_entry_of_data hclosed hdata)
            (letGo_writeQueueFull hp rfl)
    | writeQueueFull data => exact letGo_writeQueueFull hp hrunning
    | drainHandler data =>
      exact letGo_drainHandler hp hrunning (full_of_not_tooLate hrunning hlate)
    | waitWritable data => exact letGo_waitWritable hp hrunning (h str data hrunning)
    | write data => exact letGo_write hrunning

section

variable {marks : WaterMarks}

/-- The network takes bytes, or the handler is called of a queue that is
not full. -/
theorem happen_markedStream_cases {q q' : WriteQueue marks} {e : Drain} {called : Bool}
    (h : (markedStream marks).happen e q = some (q', called)) :
    (∃ n, q' = q.take n ∧ called = false) ∨ (q' = q ∧ called = true ∧ q.full = false) := by
  cases e with
  | taken n =>
    obtain ⟨-, h⟩ := Option.ite_none_right_eq_some.mp h
    obtain ⟨rfl, rfl⟩ := Prod.mk.inj (Option.some.inj h)
    exact Or.inl ⟨n, rfl, rfl⟩
  | drained =>
    obtain ⟨⟨-, hfull⟩, h⟩ := Option.ite_none_right_eq_some.mp h
    obtain ⟨rfl, rfl⟩ := Prod.mk.inj (Option.some.inj h)
    exact Or.inr ⟨rfl, rfl, hfull⟩

/-- The handler stays set while it is not called. -/
theorem handler_of_quietly {q q' : WriteQueue marks} {e : Drain}
    (h : (markedStream marks).quietly q e = some q') : q'.handler = q.handler := by
  obtain ⟨n, rfl, -⟩ | ⟨-, hcalled, -⟩ :=
    happen_markedStream_cases (WriteStream.quietly_eq_some.mp h)
  · rfl
  · cases hcalled

/-- Where a handler is set it is called, when the queue has drained. -/
theorem calls_of_handler {q : WriteQueue marks} (h : q.handler = true) :
    (markedStream marks).Calls q := by
  have hcalled : ∀ q : WriteQueue marks, q.handler = true → q.full = false →
      (markedStream marks).happen .drained q = some (q, true) := fun q h hfull =>
    if_pos ⟨h, hfull⟩
  cases hfull : q.full with
  | false => exact ⟨[], .drained, q, q, rfl, hcalled q h hfull⟩
  | true =>
    -- the network takes all there is
    have hlow := q.low_le hfull
    have hpos := marks.low_pos
    have htaken : (markedStream marks).quietly q (.taken q.size) = some (q.take q.size) :=
      WriteStream.quietly_eq_some.mpr (if_pos ⟨by omega, le_rfl⟩)
    have hready : (q.take q.size).full = false := by
      simp only [WriteQueue.take, Nat.sub_self, hpos, decide_true, Bool.not_true, Bool.and_false]
    exact ⟨[.taken q.size], .drained, _, _, Run.play_cons htaken, hcalled _ h hready⟩

theorem documented_markedStream (marks : WaterMarks) :
    (markedStream marks).Documented marks.high where
  size_new := rfl
  size_le q hfull := q.le_high hfull
  size_write text q := le_rfl
  size_drainHandler q := rfl
  size_happen e q q' called h := by
    obtain ⟨n, rfl, -⟩ | ⟨rfl, -, -⟩ := happen_markedStream_cases h
    · exact Nat.sub_le _ _
    · exact le_rfl
  full_happen e q q' called h hfull := by
    have hfull : q.full = false := hfull
    obtain ⟨n, rfl, -⟩ | ⟨rfl, -, -⟩ := happen_markedStream_cases h
    · exact Bool.and_eq_false_iff.mpr (Or.inl hfull)
    · exact hfull
  full_called e q q' h := by
    obtain ⟨n, -, hcalled⟩ | ⟨rfl, -, hfull⟩ := happen_markedStream_cases h
    · cases hcalled
    · exact hfull
  calls q es q' _ hplay := by
    refine calls_of_handler (Run.preserves (I := fun q : WriteQueue marks => q.handler = true)
      (fun q e q' hq h => (handler_of_quietly h).trans hq) ?_ hplay)
    rfl

end

/-- `"AB"` fills the queue, and `"C"` waits. -/
def waits : List (WriteAct Drain) :=
  [.call (ascii [65, 66]), .step, .step, .step, .call (ascii [67]), .step, .step, .step]

end NetSocket

end Jubilee
