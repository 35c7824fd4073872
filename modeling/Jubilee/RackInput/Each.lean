import Jubilee.RackInput.Session
/-!
# Rack input — `each`

Once the whole body has arrived `gets` always has a scan that describes
the buffer, and returns the line at its position. So `each` cuts what is
left of the body into its lines, and leaves the reader at the end, where
every later `gets` is `nil` until a `rewind` (`each_lines`).
-/

namespace Jubilee

namespace RackInput

variable {io : RubyIORackInput} {body : Bytes} {p : ℕ} {u u' : Upload}

/-! ## `gets` after the end of the body was signalled -/

/-- What the scan found is what is in the buffer. -/
theorem scan_meets (io : RubyIORackInput) (k : Gets) (he : u.eof = true) :
    Meets (fun k u => k = .eofGet → EOL ∉ u.bodyBuf.unread) (fun _ _ => True)
      ((gets io).step k u) := by
  cases k with
  | isEOF e =>
    simp only [gets, Thread.call]
    rcases isEOF.step e u with ⟨e' | eof, u'⟩
    · rintro ⟨⟩
    · cases eof with
      | true => trivial
      | false => rintro ⟨⟩
  | indexOf =>
    cases hscan : u.bodyBuf.unread.findIdx? (· = EOL) with
    | none =>
      simp only [gets, ByteBuf.indexOf_readable, hscan, if_true]
      intro _ hmem
      have hnone := List.findIdx?_eq_none_iff.mp hscan EOL hmem
      simp at hnone
    | some i =>
      have hne : ¬ ((u.bodyBuf.readerIndex + i : ℕ) : ℤ) = -1 := by omega
      simp only [gets, ByteBuf.indexOf_readable, hscan, if_neg hne]
      rintro ⟨⟩
  | eofGet =>
    simp only [gets, if_pos he]
    rintro ⟨⟩
  | readAll a =>
    simp only [gets, Thread.call]
    rcases (readAll io []).step a u with ⟨a' | r, u'⟩
    · rintro ⟨⟩
    · trivial
  | readLine lineEnd =>
    simp only [gets]
    cases u.bodyBuf.readBytes (lineEnd - u.bodyBuf.readerIndex + 1) <;> trivial

/-- What `gets` asserts at its control points, once the end was signalled. -/
def settledHolds (hd : Declares io body) (p : ℕ) (k : Gets) (u : Upload) : Prop :=
  u.eof = true ∧ getsHolds hd p (· = lineEnd body p) k u ∧ (k = .eofGet → EOL ∉ u.bodyBuf.unread)

/-- What it leaves: the line at the position. -/
def SettledPost (body : Bytes) (p : ℕ) (r : Result) (u : Upload) : Prop :=
  u.eof = true ∧ GetsPost body p (· = lineEnd body p) r u

theorem settled_meets {hd : Declares io body} {k : Gets} (h : settledHolds hd p k u) :
    Meets (settledHolds hd p) (SettledPost body p) ((gets io).step k u) := by
  obtain ⟨he, hk, hscan⟩ := h
  have hrest : k = .eofGet → At body p u → u.eof = true → p < body.length →
      body.length = lineEnd body p := by
    intro hkey hat _ hp
    refine ((lineEnd_eq_length_iff hp.le).mpr fun hmem => ?_).symm
    rw [← hat.unread_of_eof he] at hmem
    exact hscan hkey ((List.dropLast_sublist _).subset hmem)
  have hmet : Meets (getsHolds hd p (· = lineEnd body p)) (GetsPost body p (· = lineEnd body p))
      ((gets io).step k u) := gets_meets (fun _ => rfl) hrest hk
  have hkept := (sameBody_gets io k u).eof
  have hagain := scan_meets io k he
  generalize (gets io).step k u = next at hmet hkept hagain
  obtain ⟨k' | r, u'⟩ := next
  · exact ⟨hkept.trans he, hmet, hagain⟩
  · exact ⟨hkept.trans he, hmet⟩

/-- **After the end of the body was signalled, `gets` returns the line**
at its position. -/
def settledOutline (hd : Declares io body) (p : ℕ) :
    Outline (gets io) arrive fun _ _ => True where
  holds := settledHolds hd p
  post := SettledPost body p
  holds_env h ha := by rw [arrive_of_eof h.1] at ha; cases ha
  post_env h ha := by rw [arrive_of_eof h.1] at ha; cases ha
  step h _ := settled_meets h

/-! ## `each` -/

/-- The results of `each` that yields some strings, from position `p` on:
newest first, and after them the `nil` it ends with. -/
def eachLog (older : List Event) : ℕ → List Bytes → List Event
  | p, [] => ⟨.each, p, .ok none, p⟩ :: older
  | p, l :: lines => eachLog (⟨.each, p, .ok (some l), p + l.length⟩ :: older) (p + l.length) lines

variable {hd : Declares io body} {s s' : Session}

/-- **`each` yields the lines of what is left**, and comes to its end at
the end of the body. -/
theorem exists_run_each (h : Inv hd s) (he : s.upload.eof = true)
    (hs : s.running = .each Gets.entry) :
    ∃ n s' lines, s.run io (List.replicate n .step) = some s' ∧ s'.running = .idle ∧
      s'.upload.eof = true ∧ s'.log = eachLog s.log (position s.log) lines ∧
      Lines EOL (body.drop (position s.log)) lines ∧ At body body.length s'.upload := by
  induction hm : body.length - position s.log using Nat.strong_induction_on generalizing s with
  | _ t ih =>
    subst hm
    obtain ⟨u, running, mark, log⟩ := s
    obtain rfl : running = .each Gets.entry := hs
    obtain rfl : mark = position log := h.mark
    have hat : At body (position log) u := h.running
    have hmet : (settledOutline hd (position log)).Met (.goto Gets.entry, u) :=
      ⟨he, hat, nofun⟩
    obtain ⟨m, r, u', hplay, -, he', hpost⟩ := run_of_ends io .each .each Session.afterGets
      (fun _ _ => advance_of_each) ((gets_ends he Gets.entry).and_post _ hmet)
      ⟨u, .each Gets.entry, position log, log⟩
    rcases hpost with ⟨rfl, hp, hat'⟩ | ⟨q, hq, rfl, rfl, hat'⟩
    · refine ⟨m, _, [], hplay, rfl, he', ?_, ?_, ?_⟩
      · rw [Session.record, hat'.position]
        rfl
      · rw [hp, List.drop_length]
        exact Lines.nil EOL
      · rw [← hp]
        exact hat'
    · -- a line was yielded, and the lines of the rest follow
      have hle := hat'.le_length
      rw [slice_lineEnd] at hplay
      have hinv := inv_run h hplay
      have hpos : u'.bodyBuf.readerIndex =
          position log + (line EOL (body.drop (position log))).length := hat'.position
      have hlt : body.length - u'.bodyBuf.readerIndex < body.length - position log := by
        rw [hat'.position]; omega
      obtain ⟨m', s', lines, hplay', hidle, he'', hlog, hlines, hend⟩ := ih _ hlt hinv he' rfl rfl
      refine ⟨m + m', s', line EOL (body.drop (position log)) :: lines, ?_, hidle, he'', ?_, ?_,
        hend⟩
      · rw [List.replicate_add]
        exact (run_append hplay).trans hplay'
      · rw [hlog, Session.record]
        simp only [position, eachLog, hpos]
      · refine Lines.cons ?_ ?_
        · rw [Ne, List.drop_eq_nil_iff]
          exact fun hend => absurd hend (by simp only; omega)
        · rw [List.drop_drop, ← hpos]
          exact hlines

/-! ## At the end of the body -/

/-- What holds of the running thread, once the end was signalled. -/
def RunningSettled (hd : Declares io body) (p : ℕ) : Running → Upload → Prop
  | .gets k, u | .each k, u => settledHolds hd p k u
  | .idle, u | .read _ _ _, u => u.eof = true

/-- A session that has reached the end of the body. -/
structure AtEnd (hd : Declares io body) (s : Session) : Prop where
  inv : Inv hd s
  running : RunningSettled hd (position s.log) s.running s.upload
  position : position s.log = body.length

theorem RunningSettled.eof {running : Running} (h : RunningSettled hd p running u) :
    u.eof = true := by
  cases running with
  | gets k | each k => exact h.1
  | idle | read c args k => exact h

/-- Only `rewind` leaves the end. -/
theorem GoodLog.after_eq {log : List Event} {e : Event} (h : GoodLog body (e :: log))
    (hend : position log = body.length) (hne : e.call ≠ .rewind) : e.after = body.length := by
  obtain ⟨hle, hle', -⟩ := (h.faithful e List.mem_cons_self).handed hne
  rw [h.chained.1, hend] at hle
  omega

/-- What `gets` leaves at the end. -/
theorem SettledPost.of_end {r : Result} (h : SettledPost body body.length r u) :
    u.eof = true ∧ r = .ok none := by
  obtain ⟨he, ⟨rfl, -, -⟩ | ⟨q, hq, -, -, hat⟩⟩ := h
  · exact ⟨he, rfl⟩
  · have := hat.le_length
    omega

/-- The results a session adds at the end: those of `gets` are `nil`. -/
def AddsNil (s s' : Session) : Prop :=
  ∃ new, s'.log = new ++ s.log ∧ ∀ e ∈ new, e.call = .gets → e.result = .ok none

theorem atEnd_begin (h : AtEnd hd s) (hidle : s.running = .idle) {c : Call} (hne : c ≠ .rewind) :
    AtEnd hd (s.begin c) ∧ AddsNil s (s.begin c) := by
  obtain ⟨hinv, hrun, hend⟩ := h
  have hat : At body (position s.log) s.upload := by
    have hr := hinv.running
    rwa [hidle] at hr
  have hgets : settledHolds hd (position s.log) Gets.entry s.upload := ⟨hrun.eof, hat, nofun⟩
  have hbegin := inv_begin hinv hidle c
  cases c with
  | gets => exact ⟨⟨hbegin, hgets, hend⟩, [], rfl, nofun⟩
  | each => exact ⟨⟨hbegin, hgets, hend⟩, [], rfl, nofun⟩
  | read n => exact ⟨⟨hbegin, hrun.eof, hend⟩, [], rfl, nofun⟩
  | readAll => exact ⟨⟨hbegin, hrun.eof, hend⟩, [], rfl, nofun⟩
  | rewind => exact absurd rfl hne

/-- A step of the running method: it goes on, or adds its result. -/
theorem atEnd_resume {κ : Type} {holds : κ → Upload → Prop} {post : Result → Upload → Prop}
    {c : Call} {into : κ → Running} {next : Result → Running} {n : Next κ Result × Upload}
    (h : AtEnd hd s) (hinv : Inv hd (s.resume c into next n)) (hmet : Meets holds post n)
    (hne : c ≠ .rewind)
    (hgoto : ∀ k u, holds k u → RunningSettled hd body.length (into k) u)
    (hdone : ∀ r u, post r u → RunningSettled hd body.length (next r) u ∧
      (c = .gets → r = .ok none)) :
    AtEnd hd (s.resume c into next n) ∧ AddsNil s (s.resume c into next n) := by
  obtain ⟨k | r, u⟩ := n
  · refine ⟨⟨hinv, ?_, h.position⟩, [], rfl, nofun⟩
    rw [← h.position] at hgoto
    exact hgoto k u hmet
  · obtain ⟨hnext, hnil⟩ := hdone r u hmet
    have hafter : u.bodyBuf.readerIndex = body.length := hinv.log.after_eq h.position hne
    refine ⟨⟨hinv, ?_, hafter⟩, [_], rfl, List.forall_mem_singleton.mpr hnil⟩
    rw [← hafter] at hnext
    exact hnext

theorem atEnd_advance (h : AtEnd hd s) (hs : s.advance io = some s') :
    AtEnd hd s' ∧ AddsNil s s' := by
  have hinv := inv_advance h.inv hs
  have hrun := h.running
  rw [h.position] at hrun
  obtain ⟨k, hrunning, rfl⟩ | ⟨k, hrunning, rfl⟩ | ⟨c, args, k, hrunning, rfl⟩ := advance_cases hs
  · rw [hrunning] at hrun
    refine atEnd_resume h hinv ((settledOutline hd body.length).step hrun trivial) (by rintro ⟨⟩)
      (fun _ _ hk => hk) fun r u' hpost => ?_
    obtain ⟨he, rfl⟩ := SettledPost.of_end hpost
    exact ⟨he, fun _ => rfl⟩
  · rw [hrunning] at hrun
    refine atEnd_resume h hinv ((settledOutline hd body.length).step hrun trivial) (by rintro ⟨⟩)
      (fun _ _ hk => hk) fun r u' hpost => ?_
    obtain ⟨he, rfl⟩ := SettledPost.of_end hpost
    exact ⟨he, by rintro ⟨⟩⟩
  · have he := hrun.eof
    have hargs := h.inv.running
    rw [hrunning] at hargs
    have hc : c ≠ .rewind ∧ c ≠ .gets := by
      rcases hargs.2 with ⟨n, rfl, -⟩ | ⟨rfl, -⟩ <;>
        exact ⟨by rintro ⟨⟩, by rintro ⟨⟩⟩
    have hkept := (sameBody_read io args k s.upload).eof.trans he
    have hmet : Meets (fun _ u => u.eof = true) (fun _ u => u.eof = true)
        ((read io args).step k s.upload) := by
      generalize (read io args).step k s.upload = next at hkept
      obtain ⟨k' | r, u'⟩ := next <;> exact hkept
    exact atEnd_resume h hinv hmet hc.1 (fun _ _ he => he) fun r u' he =>
      ⟨he, fun hgets => absurd hgets hc.2⟩

theorem atEnd_act (h : AtEnd hd s) {a : Act} (hne : a ≠ .call .rewind)
    (hs : s.act io a = some s') : AtEnd hd s' ∧ AddsNil s s' := by
  obtain ⟨b, u, -, hb, -⟩ | ⟨c, rfl, hidle, rfl⟩ | ⟨-, hs⟩ := act_cases hs
  · rw [arrive_of_eof h.running.eof] at hb
    cases hb
  · exact atEnd_begin h hidle fun hc => hne (by rw [hc])
  · exact atEnd_advance h hs

theorem AddsNil.trans {s₁ : Session} (h : AddsNil s s₁) (h' : AddsNil s₁ s') : AddsNil s s' := by
  obtain ⟨new₁, hlog₁, hnil₁⟩ := h
  obtain ⟨new, hlog, hnil⟩ := h'
  refine ⟨new ++ new₁, by rw [hlog, hlog₁, List.append_assoc], fun e he => ?_⟩
  exact (List.mem_append.mp he).elim (hnil e) (hnil₁ e)

/-- **Until a `rewind`** every `gets` at the end of the body is `nil`. -/
theorem atEnd_run (h : AtEnd hd s) {acts : List Act} (hne : .call .rewind ∉ acts)
    (hs : s.run io acts = some s') : AtEnd hd s' ∧ AddsNil s s' := by
  have hstart : AtEnd hd s ∧ AddsNil s s := ⟨h, [], rfl, List.forall_mem_nil _⟩
  refine run_preserves (P := fun s₁ => AtEnd hd s₁ ∧ AddsNil s s₁)
    (fun a ha s₁ s₂ h₁ hact => ?_) hstart hs
  obtain ⟨hend, hadds⟩ := h₁
  obtain ⟨hend', hadds'⟩ := atEnd_act hend (fun hrewind => hne (hrewind ▸ ha)) hact
  exact ⟨hend', hadds.trans hadds'⟩

/-- **`each` splits the body into lines**: called where the whole body has
arrived, it comes to its end, the strings it yields are the lines of what
was left, and the reader is at the end, where `gets` comes to its end
with `nil` until a `rewind`. -/
theorem each_lines {hdr : Option JString} (chunks : List Bytes)
    (hio : Serves hdr chunks.flatten io) {acts : List Act}
    (hrun : (Session.start chunks).run io acts = some s) (hidle : s.running = .idle)
    (he : s.upload.eof = true) :
    ∃ n s' lines, (s.begin .each).run io (List.replicate n .step) = some s' ∧
      s'.running = .idle ∧ s'.log = eachLog s.log s.upload.bodyBuf.readerIndex lines ∧
      Lines EOL (chunks.flatten.drop s.upload.bodyBuf.readerIndex) lines ∧
      s'.upload.bodyBuf.readerIndex = chunks.flatten.length ∧
      ∀ acts' s'', s'.run io acts' = some s'' → .call .rewind ∉ acts' →
        AddsNil s' s'' ∧
          ∃ m s₃, s''.run io (List.replicate m .step) = some s₃ ∧ s₃.running = .idle := by
  have hinv := inv_run (inv_start chunks hio.declares) hrun
  have hat : At chunks.flatten (position s.log) s.upload := by
    have hr := hinv.running
    rwa [hidle] at hr
  obtain ⟨n, s', lines, hplay, hidle', he', hlog, hlines, hend⟩ :=
    exists_run_each (inv_begin hinv hidle .each) he rfl
  have hinv' := inv_run (inv_begin hinv hidle .each) hplay
  have hposition : position s'.log = chunks.flatten.length := by
    have hr := hinv'.running
    rw [hidle'] at hr
    exact hr.position.symm.trans hend.position
  have hatEnd : AtEnd hio.declares s' := ⟨hinv', by rw [hidle']; exact he', hposition⟩
  rw [hat.position]
  refine ⟨n, s', lines, hplay, hidle', hlog, hlines, hend.position, fun acts' s'' hrun' hne => ?_⟩
  obtain ⟨hatEnd', hadds⟩ := atEnd_run hatEnd hne hrun'
  exact ⟨hadds, exists_run_idle hatEnd'.inv hatEnd'.running.eof⟩

/-- One byte of `"A\n\nB"` is read. -/
def readOne : List Act :=
  [.arrive .data, .arrive .data, .arrive .finish, .call (.read 1), .step, .step, .step, .step,
    .step, .step]

/-- The session after it. -/
def oneRead : Session :=
  ⟨⟨⟨[65, 10, 10, 66], 1, by decide⟩, true, []⟩, .idle, 1, [⟨.read 1, 0, .ok (some [65]), 1⟩]⟩

/-- From the middle of a line on. -/
theorem each_lines_small :
    ∃ n s' lines, (oneRead.begin .each).run ⟨0, true⟩ (List.replicate n .step) = some s' ∧
      s'.log = eachLog oneRead.log 1 lines ∧ Lines EOL [10, 10, 66] lines := by
  have hrun : (Session.start [[65, 10], [10, 66]]).run ⟨0, true⟩ readOne = some oneRead := by
    decide
  obtain ⟨n, s', lines, hplay, -, hlog, hlines, -, -⟩ :=
    each_lines [[65, 10], [10, 66]] (Serves.absent _) hrun rfl rfl
  exact ⟨n, s', lines, hplay, hlog, hlines⟩

end RackInput

end Jubilee
