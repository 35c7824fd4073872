import Jubilee.RackInput.Session
/-!
# Rack input — the results the body determines

Read from a body that is all there, the input would answer each call from
the body and the position alone (`answer`). A session that takes no
stale exit gives these answers, however the body arrives: each step hands
out nothing, or the answer to the call in progress (`precise_advance`).
-/

namespace Jubilee

namespace RackInput

variable {io : RubyIORackInput} {body : Bytes} {p : ℕ} {r : Result} {u u' : Upload}

/-! ## The answers -/

/-- The result of a call at position `p`, with the position after it. -/
def answer (body : Bytes) (p : ℕ) (c : Call) : Event :=
  match c with
  | .gets | .each => ⟨c, p, .ok (lineAt body p), p + ((lineAt body p).getD []).length⟩
  | .read n => ⟨c, p, (readAt body p (.length (.int n))).1, (readAt body p (.length (.int n))).2⟩
  | .readAll => ⟨c, p, (readAt body p .none).1, (readAt body p .none).2⟩
  | .rewind => ⟨c, p, .ok none, 0⟩

@[simp] theorem call_answer (body : Bytes) (p : ℕ) (c : Call) : (answer body p c).call = c := by
  cases c <;> rfl

/-- `gets` that stops at the line end, or finds the body at its end. -/
theorem answer_of_getsPost {c : Call} (hc : c = .gets ∨ c = .each)
    (h : GetsPost body p (· = lineEnd body p) r u) :
    answer body p c = ⟨c, p, r, u.bodyBuf.readerIndex⟩ ∧ At body u.bodyBuf.readerIndex u := by
  have hanswer : answer body p c =
      ⟨c, p, .ok (lineAt body p), p + ((lineAt body p).getD []).length⟩ := by
    rcases hc with rfl | rfl <;> rfl
  rw [hanswer]
  rcases h with ⟨rfl, hp, hat⟩ | ⟨q, hq, rfl, rfl, hat⟩
  · have hnone : lineAt body p = none := if_neg (by omega)
    rw [hnone, hat.position]
    exact ⟨rfl, hat⟩
  · have hle := hat.le_length
    have hline : lineAt body p = some (line EOL (body.drop p)) := if_pos (by omega)
    rw [hline, hat.position, slice_lineEnd]
    exact ⟨rfl, hat⟩

theorem answer_of_readPost {n : ℕ} (h : ReadPost body p (.length (.int n)) r u) :
    answer body p (.read n) = ⟨.read n, p, r, u.bodyBuf.readerIndex⟩ ∧
      At body u.bodyBuf.readerIndex u := by
  obtain ⟨q, hread, hat⟩ := h
  rw [hat.position]
  exact ⟨by rw [answer, hread], hat⟩

theorem answer_of_readAllPost (h : ReadPost body p .none r u) :
    answer body p .readAll = ⟨.readAll, p, r, u.bodyBuf.readerIndex⟩ ∧
      At body u.bodyBuf.readerIndex u := by
  obtain ⟨q, hread, hat⟩ := h
  rw [hat.position]
  exact ⟨by rw [answer, hread], hat⟩

/-! ## A session without a stale exit -/

/-- `gets` stops at the line end, where it takes no stale exit. -/
def getsLineOutline (hd : Declares io body) (p : ℕ) :
    Outline (gets io) arrive fun k u => ¬ StaleExit k u :=
  getsOutline hd p _ (· = lineEnd body p) (fun _ => rfl) fun u hat he hp hstale =>
    ((lineEnd_eq_length_iff hp.le).mpr fun hmem => hstale ⟨he, by rwa [hat.unread_of_eof he]⟩).symm

/-- The call that a running thread is in. -/
def Running.call : Running → Option Call
  | .idle => none
  | .gets _ => some .gets
  | .read c _ _ => some c
  | .each _ => some .each

theorem Running.call_eq_none_iff {k : Running} : k.call = none ↔ k = .idle := by
  cases k <;> simp [Running.call]

/-- An act is a stale exit of the `gets` that is running. -/
def Session.StaleAct (s : Session) : Act → Prop
  | .step =>
    match s.running with
    | .gets k | .each k => StaleExit k s.upload
    | _ => False
  | _ => False

/-- What holds of the running thread. -/
def PreciseRunning (hd : Declares io body) (p : ℕ) : Running → Upload → Prop
  | .idle, u => At body p u
  | .gets k, u => (getsLineOutline hd p).holds k u
  | .read c args k, u => (readOutline hd p args).holds k u ∧
      ((∃ n : ℕ, c = .read n ∧ args = .length (.int n)) ∨ (c = .readAll ∧ args = .none))
  | .each k, u => (getsLineOutline hd p).holds k u

/-- **The invariant**: the running thread is on its way from the position
the log has reached to the answer the body has for it. -/
structure Precise (hd : Declares io body) (s : Session) : Prop where
  mark : s.mark = position s.log
  running : PreciseRunning hd (position s.log) s.running s.upload

variable {hd : Declares io body} {s s' : Session}

theorem precise_start (chunks : List Bytes) (hd : Declares io chunks.flatten) :
    Precise hd (Session.start chunks) :=
  ⟨rfl, At.start chunks⟩

/-- What an act leaves: nothing was handed out, or the answer to the call
`c` was, and `each` goes on after a string. -/
inductive Hands (body : Bytes) (s s' : Session) : Prop
  | nothing : s'.log = s.log → s'.running.call = s.running.call → Hands body s s'
  | answer (c : Call) : s'.log = answer body (position s.log) c :: s.log →
      s.running.call = some c →
      s'.running = (if c = .each then Session.afterGets (answer body (position s.log) c).result
        else .idle) → Hands body s s'

/-- A step of the running method, whichever it is. -/
theorem precise_resume {κ : Type} {holds : κ → Upload → Prop} {post : Result → Upload → Prop}
    {c : Call} {into : κ → Running} {next : Result → Running} {n : Next κ Result × Upload}
    (h : Precise hd s) (hmet : Meets holds post n) (hcall : s.running.call = some c)
    (hinto : ∀ k, (into k).call = some c)
    (hnext : ∀ r, next r = if c = .each then Session.afterGets r else .idle)
    (hgoto : ∀ k u, holds k u → PreciseRunning hd (position s.log) (into k) u)
    (hdone : ∀ r u, post r u →
      answer body (position s.log) c = ⟨c, position s.log, r, u.bodyBuf.readerIndex⟩ ∧
        At body u.bodyBuf.readerIndex u) :
    Precise hd (s.resume c into next n) ∧ Hands body s (s.resume c into next n) := by
  obtain ⟨k | r, u⟩ := n
  · exact ⟨⟨h.mark, hgoto k u hmet⟩, .nothing rfl ((hinto k).trans hcall.symm)⟩
  · obtain ⟨hanswer, hat⟩ := hdone r u hmet
    refine ⟨⟨rfl, ?_⟩, .answer c ?_ hcall ?_⟩
    · -- the next call, or the next turn of `each`, begins where the reader is
      change PreciseRunning hd u.bodyBuf.readerIndex (next r) u
      rw [hnext]
      split
      · unfold Session.afterGets
        split
        · exact hat
        · exact hat
      · exact hat
    · change (⟨c, s.mark, r, u.bodyBuf.readerIndex⟩ : Event) :: s.log = _
      rw [hanswer, h.mark]
    · rw [hanswer]
      exact hnext r

/-- A call is begun, or with `rewind` done. -/
theorem precise_begin (h : Precise hd s) (hidle : s.running = .idle) (c : Call) :
    Precise hd (s.begin c) ∧
      ((s.begin c).log = s.log ∧ (s.begin c).running.call = some c ∨
        (s.begin c).log = answer body (position s.log) c :: s.log ∧ (s.begin c).running = .idle ∧
          c ≠ .each) := by
  have hat : At body (position s.log) s.upload := by
    have hr := h.running
    rwa [hidle] at hr
  cases c with
  | gets => exact ⟨⟨h.mark, hat⟩, Or.inl ⟨rfl, rfl⟩⟩
  | read n => exact ⟨⟨h.mark, hat, Or.inl ⟨n, rfl, rfl⟩⟩, Or.inl ⟨rfl, rfl⟩⟩
  | readAll => exact ⟨⟨h.mark, hat, Or.inr ⟨rfl, rfl⟩⟩, Or.inl ⟨rfl, rfl⟩⟩
  | each => exact ⟨⟨h.mark, hat⟩, Or.inl ⟨rfl, rfl⟩⟩
  | rewind =>
    refine ⟨⟨rfl, hat.rewind⟩, Or.inr ⟨?_, rfl, nofun⟩⟩
    change (⟨.rewind, s.mark, .ok none, 0⟩ : Event) :: s.log = _
    rw [h.mark, answer]

/-- An arrival disturbs no running thread. -/
theorem precise_arrive (h : Precise hd s) {a : Arrival} (ha : arrive a s.upload = some u) :
    Precise hd { s with upload := u } := by
  obtain ⟨u₀, running, mark, log⟩ := s
  obtain ⟨hmark, hrun⟩ := h
  refine ⟨hmark, ?_⟩
  cases running with
  | idle => exact At.arrive hrun ha
  | gets k => exact (getsLineOutline hd _).holds_env hrun ha
  | read c args k => exact ⟨(readOutline hd _ _).holds_env hrun.1 ha, hrun.2⟩
  | each k => exact (getsLineOutline hd _).holds_env hrun ha

/-- A step of the running thread, which is no stale exit. -/
theorem precise_advance (h : Precise hd s) (hs : s.advance io = some s')
    (hstale : ¬ s.StaleAct .step) : Precise hd s' ∧ Hands body s s' := by
  have hrun := h.running
  obtain ⟨k, hrunning, rfl⟩ | ⟨k, hrunning, rfl⟩ | ⟨c, args, k, hrunning, rfl⟩ := advance_cases hs
  · rw [hrunning] at hrun
    have hg : ¬ StaleExit k s.upload := by simpa only [Session.StaleAct, hrunning] using hstale
    exact precise_resume h ((getsLineOutline hd (position s.log)).step hrun hg)
      (by rw [hrunning]; rfl) (fun _ => rfl) (fun _ => rfl) (fun _ _ hk => hk)
      fun _ _ hpost => answer_of_getsPost (Or.inl rfl) hpost
  · rw [hrunning] at hrun
    have hg : ¬ StaleExit k s.upload := by simpa only [Session.StaleAct, hrunning] using hstale
    exact precise_resume h ((getsLineOutline hd (position s.log)).step hrun hg)
      (by rw [hrunning]; rfl) (fun _ => rfl) (fun _ => rfl) (fun _ _ hk => hk)
      fun _ _ hpost => answer_of_getsPost (Or.inr rfl) hpost
  · rw [hrunning] at hrun
    obtain ⟨hk, hargs⟩ := hrun
    have hmet := (readOutline hd (position s.log) args).step hk trivial
    rcases hargs with ⟨n, rfl, rfl⟩ | ⟨rfl, rfl⟩
    · exact precise_resume h hmet (by rw [hrunning]; rfl) (fun _ => rfl) (fun _ => rfl)
        (fun _ _ hk' => ⟨hk', Or.inl ⟨n, rfl, rfl⟩⟩) fun _ _ hpost => answer_of_readPost hpost
    · exact precise_resume h hmet (by rw [hrunning]; rfl) (fun _ => rfl) (fun _ => rfl)
        (fun _ _ hk' => ⟨hk', Or.inr ⟨rfl, rfl⟩⟩) fun _ _ hpost => answer_of_readAllPost hpost

end RackInput

end Jubilee
