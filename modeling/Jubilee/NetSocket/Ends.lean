import Jubilee.NetSocket.Kept
/-!
# Net socket — a `read` after the end

`read` waits for a buffer with bytes in it, and for nothing else: where
the end was signalled and the buffer is empty, it waits for ever.
`returns_iff` says, of every state in which the end was signalled,
whether the `read` that is running comes to its end.
-/

namespace Jubilee

namespace NetSocket

variable {s : RubyNetSocket} {k : Read} {l : ReadLoop}

/-! ## What ends -/

/-- `read` alone comes to its end. -/
def Ends (k : Read) (s : RubyNetSocket) : Prop :=
  read.Ends (fun _ _ => True) (fun _ _ => True) (.goto k, s)

theorem ends_of_goto {k' : Read} {s' : RubyNetSocket} (h : read.step k s = (.goto k', s'))
    (hends : Ends k' s') : Ends k s := .step trivial (h ▸ hends)

theorem ends_of_done {r : Result} {s' : RubyNetSocket} (h : read.step k s = (.done r, s')) :
    Ends k s := .step trivial (h ▸ .done trivial)

/-- Bytes are read into `data`, or it is too short for them. -/
theorem ends_loopReadBytes {readedLength : ℕ} (h : s.eof = true ∨ l.length ≤ readedLength) :
    Ends (.loopReadBytes readedLength l) s := by
  cases hread : s.buf.readBytesInto l.data s.buf.readerIndex readedLength with
  | error f => exact ends_of_done (step_loopReadBytes_of_error hread)
  | ok r =>
    refine ends_of_goto (step_loopReadBytes hread) (ends_of_done (step_loopEof_of_left ?_))
    exact h.imp id fun hlength => Int.sub_nonpos_of_le hlength

theorem ends_loopReadable (h : s.eof = true ∨ l.length ≤ s.buf.readableBytes) :
    Ends (.loopReadable l) s :=
  ends_of_goto rfl (ends_loopReadBytes (h.imp id fun hlength => by omega))

/-- **The loop ends** after the end, or where it asks for no more than is
there. -/
theorem ends_loopEof (h : s.eof = true ∨ l.length ≤ s.buf.readableBytes) : Ends (.loopEof l) s := by
  by_cases hleft : s.eof = true ∨ l.length ≤ 0
  · exact ends_of_done (step_loopEof_of_left hleft)
  · obtain ⟨heof, hlength⟩ := not_or.mp hleft
    exact ends_of_goto (step_loopEof (Bool.eq_false_iff.mpr heof) (Int.not_le.mp hlength))
      (ends_loopReadable h)

/-- **The wait ends** where there are bytes. -/
theorem ends_waitReadable (hreadable : s.buf.readableBytes ≠ 0)
    (h : s.eof = true ∨ l.length ≤ s.buf.readableBytes) : Ends (.waitReadable l) s :=
  ends_of_goto (step_waitReadable hreadable) (ends_loopEof h)

theorem ends_testReadable (hreadable : s.buf.readableBytes ≠ 0)
    (h : s.eof = true ∨ l.length ≤ s.buf.readableBytes) : Ends (.testReadable l) s :=
  ends_of_goto (step_testReadable hreadable) (ends_waitReadable hreadable h)

theorem ends_testEof (hreadable : s.buf.readableBytes ≠ 0)
    (h : s.eof = true ∨ l.length ≤ s.buf.readableBytes) : Ends (.testEof l) s := by
  cases heof : s.eof with
  | true => exact ends_of_goto (step_testEof_of_eof heof) (ends_waitReadable hreadable h)
  | false => exact ends_of_goto (step_testEof heof) (ends_testReadable hreadable h)

/-! ## Exactly when -/

/-- Once the end was signalled, the `read` at this point comes to its end:
it raises at once, it is past its wait, or there are bytes in the buffer
and it is not about to clear them. -/
def Passes (s : RubyNetSocket) : Read → Prop
  | .entry length dst =>
    s.readClosed = true ∨ (∃ e, Read.start length dst = .done (.error e)) ∨
      s.buf.readableBytes ≠ 0
  | .testEof _ | .testReadable _ | .resume _ | .waitReadable _ => s.buf.readableBytes ≠ 0
  | .clear _ => False
  | .loopEof _ | .loopReadable _ | .loopReadBytes _ _ => True

/-- The arguments are refused, or the tests follow. -/
theorem start_cases (length : IntArg) (dst : Option Bytes) :
    (∃ e, Read.start length dst = .done (.error e)) ∨
      ∃ l, Read.start length dst = .goto (.testEof l) := by
  unfold Read.start
  cases num2int length >>= allocate dst with
  | error e => exact Or.inl ⟨e, rfl⟩
  | ok l => exact Or.inr ⟨l, rfl⟩

theorem ends_of_passes (heof : s.eof = true) (h : Passes s k) : Ends k s := by
  cases k with
  | entry length dst =>
    cases hclosed : s.readClosed with
    | true => exact ends_of_done (step_entry_of_closed hclosed)
    | false =>
      have hstep : read.step (.entry length dst) s = _ := step_entry hclosed
      obtain ⟨e, hstart⟩ | ⟨l, hstart⟩ := start_cases length dst
      · exact ends_of_done (hstart ▸ hstep)
      · have hreadable : s.buf.readableBytes ≠ 0 := by
          rcases h with h | ⟨e, h⟩ | h
          · rw [hclosed] at h
            cases h
          · rw [hstart] at h
            cases h
          · exact h
        exact ends_of_goto (hstart ▸ hstep) (ends_testEof hreadable (Or.inl heof))
  | testEof l => exact ends_testEof h (Or.inl heof)
  | testReadable l => exact ends_testReadable h (Or.inl heof)
  | clear l => exact h.elim
  | resume l => exact ends_of_goto rfl (ends_waitReadable h (Or.inl heof))
  | waitReadable l => exact ends_waitReadable h (Or.inl heof)
  | loopEof l => exact ends_loopEof (Or.inl heof)
  | loopReadable l => exact ends_loopReadable (Or.inl heof)
  | loopReadBytes readedLength l => exact ends_loopReadBytes (Or.inl heof)

/-- **Elsewhere each step leads to such a point again.** -/
theorem step_of_not_passes (heof : s.eof = true) (h : ¬ Passes s k) :
    ∃ k' s', read.step k s = (.goto k', s') ∧ s'.eof = true ∧ s'.handling = s.handling ∧
      ¬ Passes s' k' := by
  cases k with
  | entry length dst =>
    obtain ⟨hclosed, hargs, hempty⟩ : _ ∧ _ ∧ _ := by simpa only [Passes, not_or] using h
    obtain hraises | ⟨l, hstart⟩ := start_cases length dst
    · exact absurd hraises hargs
    · exact ⟨.testEof l, s, hstart ▸ step_entry (Bool.eq_false_iff.mpr hclosed), heof, rfl, hempty⟩
  | testEof l => exact ⟨.waitReadable l, s, step_testEof_of_eof heof, heof, rfl, h⟩
  | testReadable l =>
    exact ⟨.clear l, s, step_testReadable_of_empty (not_not.mp h), heof, rfl, id⟩
  | clear l => exact ⟨.resume l, { s with buf := .clear }, rfl, heof, rfl, not_not.mpr rfl⟩
  | resume l => exact ⟨.waitReadable l, { s with paused := false }, rfl, heof, rfl, h⟩
  | waitReadable l =>
    exact ⟨.waitReadable l, s, step_waitReadable_of_empty (not_not.mp h), heof, rfl, h⟩
  | loopEof | loopReadable | loopReadBytes => exact absurd trivial h

/-! ## Every run -/

/-- The `read` that is running comes to its end, by steps of its own. -/
def Returns (s : Session) : Prop :=
  ∃ m s', s.run (List.replicate m .step) = some s' ∧ s'.running = none

theorem returns_of_ends {s : Session} (hrunning : s.running = some k) (h : Ends k s.sock) :
    Returns s := by
  have key : ∀ c : Next Read Result × RubyNetSocket,
      read.Ends (fun _ _ => True) (fun _ _ => True) c → ∀ s : Session, s.sock = c.2 →
        (∀ k, c.1 = .goto k → s.running = some k) → ((∃ r, c.1 = .done r) → s.running = none) →
        Returns s := by
    intro c hc
    induction hc with
    | @done r u _ => exact fun s _ _ hdone => ⟨0, s, rfl, hdone ⟨r, rfl⟩⟩
    | @step k u _ _ ih =>
      rintro s rfl hgoto -
      have hadvance : s.act .step = some (s.advance k) := by
        rw [Session.act, hgoto k rfl, Option.map_some]
      have hnext : ∀ k', (read.step k s.sock).1 = .goto k' → (s.advance k).running = some k' := by
        intro k' hk'
        simp only [Session.advance, hk']
      have hdone : (∃ r, (read.step k s.sock).1 = .done r) → (s.advance k).running = none := by
        rintro ⟨r, hr⟩
        simp only [Session.advance, hr]
      obtain ⟨m, s', hrun, hnone⟩ := ih (s.advance k) rfl hnext hdone
      refine ⟨m + 1, s', ?_, hnone⟩
      rw [List.replicate_succ]
      exact (Run.play_cons hadvance).trans hrun
  refine key _ h s rfl (fun k' hk' => ?_) fun hdone => ?_
  · cases hk'
    exact hrunning
  · obtain ⟨r, hr⟩ := hdone
    cases hr

/-- After the end the handler is at work on nothing. -/
theorem handling_eq_none {acts : List Act} {s : Session} (h : Session.start.run acts = some s)
    (heof : s.sock.eof = true) : s.sock.handling = none := by
  refine Run.preserves (I := fun s : Session => s.sock.eof = true → s.sock.handling = none)
    (fun s a s' hs ha => ?_) (fun _ => rfl) h heof
  obtain ⟨e, sock, -, hsock, rfl⟩ | ⟨length, dst, -, -, rfl⟩ | ⟨-, -, rfl⟩ | ⟨k, -, -, rfl⟩ :=
    Session.act_cases ha
  · obtain ⟨buffer, -, -, heof, -, rfl⟩ | ⟨buffer, -, -, rfl⟩ | ⟨buffer, -, -, rfl⟩ |
      ⟨-, -, hhandling, rfl⟩ := happen_cases hsock
    · intro h
      rw [show s.sock.eof = true from h] at heof
      cases heof
    · exact fun _ => rfl
    · exact fun _ => rfl
    · exact fun _ => hhandling
  · exact hs
  · exact hs
  · obtain ⟨l, -, hclear⟩ | ⟨-, hreads⟩ := read_step_cases k s.sock
    · simp only [Session.advance, hclear]
      exact hs
    · simp only [Session.advance, hreads.eof, hreads.handling]
      exact hs

/-- **Nothing that can happen brings it to its end**, where it waits. -/
theorem running_of_not_passes {s s' : Session} (heof : s.sock.eof = true)
    (hhandling : s.sock.handling = none) (hrunning : s.running = some k)
    (h : ¬ Passes s.sock k) {acts : List Act} (hrun : s.run acts = some s') :
    s'.running ≠ none := by
  suffices hwaits : s'.sock.eof = true ∧ s'.sock.handling = none ∧
      ∃ k', s'.running = some k' ∧ ¬ Passes s'.sock k' by
    obtain ⟨-, -, k', hrunning', -⟩ := hwaits
    rw [hrunning']
    exact Option.some_ne_none k'
  refine Run.preserves (I := fun s : Session => s.sock.eof = true ∧ s.sock.handling = none ∧
    ∃ k, s.running = some k ∧ ¬ Passes s.sock k) ?_ ⟨heof, hhandling, k, hrunning, h⟩ hrun
  rintro s a s' ⟨heof, hhandling, k, hrunning, h⟩ ha
  obtain ⟨e, sock, -, hsock, -⟩ | ⟨length, dst, -, hidle, -⟩ | ⟨-, hidle, -⟩ |
    ⟨k₁, -, hk₁, rfl⟩ := Session.act_cases ha
  · obtain ⟨buffer, -, -, hfalse, -⟩ | ⟨buffer, -, hsome, -⟩ | ⟨buffer, -, hsome, -⟩ |
      ⟨-, hfalse, -⟩ := happen_cases hsock
    · rw [heof] at hfalse
      cases hfalse
    · rw [hhandling] at hsome
      cases hsome
    · rw [hhandling] at hsome
      cases hsome
    · rw [heof] at hfalse
      cases hfalse
  · rw [hrunning] at hidle
    cases hidle
  · rw [hrunning] at hidle
    cases hidle
  · obtain rfl : k = k₁ := Option.some.inj (hrunning.symm.trans hk₁)
    obtain ⟨k', sock, hstep, heof', hhandling', hpasses⟩ := step_of_not_passes heof h
    simp only [Session.advance, hstep]
    exact ⟨heof', hhandling'.trans hhandling, k', rfl, hpasses⟩

/-- **Exactly when `read` returns**, in every state that a run reaches and
in which the end was signalled. -/
theorem returns_iff {acts : List Act} {s : Session} (h : Session.start.run acts = some s)
    (heof : s.sock.eof = true) (hrunning : s.running = some k) : Returns s ↔ Passes s.sock k := by
  constructor
  · rintro ⟨m, s', hrun, hnone⟩
    by_contra hpasses
    exact running_of_not_passes heof (handling_eq_none h heof) hrunning hpasses hrun hnone
  · exact fun hpasses => returns_of_ends hrunning (ends_of_passes heof hpasses)

/-- A byte, the end, and a `read`. -/
def byteThenEnd : List Act :=
  [.event (.data [65]), .event .handle, .event .finish, .call (.int 1) none]

theorem returns_byteThenEnd :
    Returns ⟨⟨⟨[65], 0, by decide⟩, true, false, false, none⟩, some (.entry (.int 1) none), [65],
      []⟩ :=
  (returns_iff (show Session.start.run byteThenEnd = _ from rfl) rfl rfl).mpr
    (Or.inr (Or.inr (by decide)))

/-- The end, and a `read`. -/
def endThenRead : List Act := [.event .finish, .call (.int 1) none]

/-- A byte and the end arrive after `read` has seen that there is nothing,
and before it clears the buffer. -/
def endBeforeClear : List Act :=
  [.call (.int 1) none, .step, .step, .step, .event (.data [65]), .event .handle, .event .finish]

/-- **`read` waits for ever** in both. -/
theorem not_returns :
    (∃ s, Session.start.run endThenRead = some s ∧ s.sock.eof = true ∧ s.running ≠ none ∧
      ¬ Returns s) ∧
    ∃ s, Session.start.run endBeforeClear = some s ∧ s.sock.eof = true ∧ s.running ≠ none ∧
      s.sock.buf.unread = [65] ∧ ¬ Returns s := by
  refine ⟨⟨_, rfl, rfl, by decide, ?_⟩, ⟨_, rfl, rfl, by decide, rfl, ?_⟩⟩
  · rintro ⟨m, s', hrun, hnone⟩
    refine running_of_not_passes (k := .entry (.int 1) none) rfl rfl rfl ?_ hrun hnone
    rintro (h | ⟨e, h⟩ | h)
    · cases h
    · cases h
    · exact h rfl
  · rintro ⟨m, s', hrun, hnone⟩
    exact running_of_not_passes (k := .clear ⟨1, [0]⟩) rfl rfl rfl id hrun hnone

end NetSocket

end Jubilee
