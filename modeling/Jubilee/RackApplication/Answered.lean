import Jubilee.RackApplication.Broken
/-!
# Rack application — a request is answered

Once the end of its body was signalled, or the connection has failed,
nothing a request waits for is still to come. An application that does
so many things and no more then comes to its end by steps of its own,
from every state its request can be in (`Request.answered`).
-/

namespace Jubilee

namespace RackApplication

open RackEnv (Op RackEnvironmentHash)

variable {O : Type*} [DecidableEq O]

/-! ## Steps of the call that is running -/

section

variable {io : RackInput.RubyIORackInput} {s s' : RackInput.Session}

/-- A call takes nothing from the log, signals no end, and is over with a
result. -/
structure Goes (s s' : RackInput.Session) : Prop where
  eof : s'.upload.eof = s.upload.eof
  log : s.log <:+ s'.log
  longer : s.running ≠ .idle → s'.running = .idle → s.log.length < s'.log.length

theorem Goes.refl (s : RackInput.Session) : Goes s s :=
  ⟨rfl, List.suffix_refl _, fun hne hidle => absurd hidle hne⟩

theorem Goes.trans {s₁ : RackInput.Session} (h : Goes s s₁) (h' : Goes s₁ s') : Goes s s' := by
  refine ⟨h'.eof.trans h.eof, h.log.trans h'.log, fun hne hidle => ?_⟩
  have hle := h.log.length_le
  have hle' := h'.log.length_le
  by_cases hs₁ : s₁.running = .idle
  · exact lt_of_lt_of_le (h.longer hne hs₁) hle'
  · exact lt_of_le_of_lt hle (h'.longer hs₁ hidle)

theorem goes_resume {κ : Type} {c : RackInput.Call} {into : κ → RackInput.Running}
    {next : RackInput.Result → RackInput.Running} {n : Next κ RackInput.Result × RackInput.Upload}
    (hinto : ∀ k, into k ≠ .idle) (heof : n.2.eof = s.upload.eof) :
    Goes s (s.resume c into next n) := by
  obtain ⟨k | r, u⟩ := n
  · exact ⟨heof, List.suffix_refl _, fun _ hidle => absurd hidle (hinto k)⟩
  · exact ⟨heof, List.suffix_cons _ _, fun _ _ => Nat.lt_succ_self _⟩

theorem goes_advance (h : s.advance io = some s') : Goes s s' := by
  obtain ⟨k, -, rfl⟩ | ⟨k, -, rfl⟩ | ⟨c, args, k, -, rfl⟩ := RackInput.advance_cases h
  · exact goes_resume nofun (RackInput.sameBody_gets io k s.upload).eof
  · exact goes_resume nofun (RackInput.sameBody_gets io k s.upload).eof
  · exact goes_resume nofun (RackInput.sameBody_read io args k s.upload).eof

end

variable {io : RackInput.RubyIORackInput} {program : Program O} {body : Bytes}
  {hd : RackInput.Declares io body} {env : RackEnvironmentHash O} {r r' : Request O}

/-- The entries that are noted are those the input handed out. -/
theorem length_note {input : RackInput.Session} (h : r.input.log <:+ input.log) :
    (r.note input).log.length + r.input.log.length = r.log.length + input.log.length := by
  have hle := h.length_le
  simp only [Request.note, List.length_append, List.length_map, List.length_take]
  omega

/-- **A call on the input goes on** in the request as it does by itself. -/
theorem exists_run_steps (program : Program O) {m : ℕ} {s : RackInput.Session}
    (h : r.input.run io (List.replicate m .step) = some s) :
    ∃ r', r.run io program (List.replicate m .step) = some r' ∧ r'.input = s ∧ Goes r.input s ∧
      r'.log.length + r.input.log.length = r.log.length + s.log.length := by
  induction m generalizing r with
  | zero =>
    obtain rfl := Option.some.inj h
    exact ⟨r, rfl, rfl, .refl _, rfl⟩
  | succ m ih =>
    rw [List.replicate_succ, RackInput.Session.run] at h
    obtain ⟨s₁, hs₁, h⟩ := Option.bind_eq_some_iff.mp h
    have hgoes : Goes r.input s₁ := goes_advance hs₁
    have hnoted := length_note hgoes.log
    obtain ⟨r', hrun, hinput, hgoes', hlength⟩ := ih (r := r.note s₁) h
    change r'.log.length + s₁.log.length = _ at hlength
    have hact : r.act io program .step = some (r.note s₁) := by
      rw [Request.act, hs₁, Option.map_some]
    refine ⟨r', ?_, hinput, hgoes.trans hgoes', by omega⟩
    rw [List.replicate_succ]
    exact (Run.play_cons hact).trans hrun

/-- An act of the request keeps what holds of its input. -/
theorem inv_act (h : RackInput.Inv hd r.input) {a : Request.Act}
    (ha : r.act io program a = some r') : RackInput.Inv hd r'.input := by
  cases a with
  | arrive a =>
    obtain ⟨input, hinput, rfl⟩ := Option.map_eq_some_iff.mp ha
    exact RackInput.inv_act h hinput
  | step =>
    obtain ⟨input, hinput, rfl⟩ := Option.map_eq_some_iff.mp ha
    exact RackInput.inv_act h hinput
  | next =>
    rw [Request.act] at ha
    split at ha
    · rename_i c ht
      obtain rfl := Option.some.inj ha
      exact RackInput.inv_begin h (Option.ite_none_right_eq_some.mp ht).1 c
    · obtain rfl := Option.some.inj ha
      exact h
    · cases ha
    · cases ha

/-- Steps and further acts of the application. -/
def Own (acts : List Request.Act) : Prop := ∀ a ∈ acts, a = .step ∨ a = .next

/-- The application does no more than `n` things. -/
def Program.Bounded (program : Program O) (n : ℕ) : Prop :=
  ∀ seen, n ≤ seen.length → ∃ o, program seen = .finish o

/-- It comes to its end by steps of its own. -/
def Request.Ends (io : RackInput.RubyIORackInput) (program : Program O) (r : Request O) : Prop :=
  ∃ acts r' o, Own acts ∧ r.run io program acts = some r' ∧ r'.outcome program = some o

theorem Request.Ends.cons {acts : List Request.Act} (hown : Own acts)
    (hrun : r.run io program acts = some r') (h : r'.Ends io program) : r.Ends io program := by
  obtain ⟨acts', r'', o, hown', hrun', ho⟩ := h
  refine ⟨acts ++ acts', r'', o, ?_, ?_, ho⟩
  · exact fun a ha => (List.mem_append.mp ha).elim (hown a) (hown' a)
  · exact (Run.play_append hrun).trans hrun'

/-- The call that is running is brought to its end. -/
theorem exists_run_idle (program : Program O) (h : RackInput.Inv hd r.input)
    (heof : r.input.upload.eof = true) :
    ∃ m r', r.run io program (List.replicate m .step) = some r' ∧ r'.input.running = .idle ∧
      RackInput.Inv hd r'.input ∧ r'.input.upload.eof = true ∧ r.log.length ≤ r'.log.length ∧
      (r.input.running ≠ .idle → r.log.length < r'.log.length) := by
  obtain ⟨m, s, hs, hidle⟩ := RackInput.exists_run_idle h heof
  obtain ⟨r', hrun, rfl, hgoes, hlength⟩ := exists_run_steps program hs
  have hle := hgoes.log.length_le
  refine ⟨m, r', hrun, hidle, RackInput.inv_run h hs, hgoes.eof.trans heof, by omega, fun hne => ?_⟩
  have := hgoes.longer hne hidle
  omega

/-- A call is begun and has no result yet, or with `rewind` it has one. -/
theorem note_begin (r : Request O) (c : RackInput.Call) :
    (r.input.begin c).upload.eof = r.input.upload.eof ∧
      ((r.input.begin c).running ≠ .idle ∧ (r.note (r.input.begin c)).log = r.log ∨
        (r.input.begin c).running = .idle ∧
          (r.note (r.input.begin c)).log.length = r.log.length + 1) := by
  cases c with
  | gets | read n | readAll | each =>
    refine ⟨rfl, Or.inl ⟨nofun, ?_⟩⟩
    rw [note_of_log_eq]
    rfl
  | rewind =>
    refine ⟨rfl, Or.inr ⟨rfl, ?_⟩⟩
    exact congrArg (fun r' : Request O => r'.log.length) (note_of_log_cons (r := r) rfl)

/-- **Between two things it does** the application comes to its end. -/
theorem ends_of_idle {n : ℕ} (hbound : program.Bounded n) (h : RackInput.Inv hd r.input)
    (heof : r.input.upload.eof = true) (hidle : r.input.running = .idle) :
    r.Ends io program := by
  -- on the number of things it may still do
  induction hm : n - r.log.length using Nat.strong_induction_on generalizing r with
  | _ t ih =>
    subst hm
    have htodo : r.todo program = some (program (r.log.map Entry.seen)) := if_pos hidle
    have hnext : ∀ acts r', Own acts → r.run io program acts = some r' →
        (∀ o, program (r.log.map Entry.seen) ≠ .finish o) → r.log.length < r'.log.length →
        RackInput.Inv hd r'.input → r'.input.upload.eof = true → r'.input.running = .idle →
        r.Ends io program := by
      intro acts r' hown hrun hgoes hlonger h' heof' hidle'
      -- it is not at its bound
      have hlt : r.log.length < n := by
        by_contra hle
        obtain ⟨o, ho⟩ := hbound (r.log.map Entry.seen) (by rw [List.length_map]; omega)
        exact hgoes o ho
      exact (ih _ (by omega) h' heof' hidle' rfl).cons hown hrun
    cases hp : program (r.log.map Entry.seen) with
    | finish o =>
      refine ⟨[], r, o, nofun, rfl, ?_⟩
      rw [Request.outcome, htodo, hp]
    | env op =>
      have hact : r.act io program .next = some (r.callEnv op) := by rw [Request.act, htodo, hp]
      refine hnext [.next] _ (by simp [Own]) (Run.play_cons hact) (by simp [hp])
        (Nat.lt_succ_self _) h heof hidle
    | input c =>
      have hact : r.act io program .next = some (r.note (r.input.begin c)) := by
        rw [Request.act, htodo, hp]
      obtain ⟨hsame, hbegun⟩ := note_begin r c
      have h₁ := RackInput.inv_begin h hidle c
      obtain ⟨m, r', hrun, hidle', h', heof', hle, hlonger⟩ := exists_run_idle program
        (r := r.note (r.input.begin c)) h₁ (hsame.trans heof)
      refine hnext (.next :: List.replicate m .step) r' ?_ ((Run.play_cons hact).trans hrun)
        (by simp [hp]) ?_ h' heof' hidle'
      · exact List.forall_mem_cons.mpr
          ⟨Or.inr rfl, fun a ha => Or.inl (List.eq_of_mem_replicate ha)⟩
      · rcases hbegun with ⟨hne, hlog⟩ | ⟨-, hlog⟩
        · exact hlog ▸ hlonger hne
        · omega

/-- A call that is running is brought to its end first. -/
theorem ends_of_eof {n : ℕ} (hbound : program.Bounded n) (h : RackInput.Inv hd r.input)
    (heof : r.input.upload.eof = true) : r.Ends io program := by
  obtain ⟨m, r', hsteps, hidle, h', heof', -, -⟩ := exists_run_idle program h heof
  exact (ends_of_idle hbound h' heof' hidle).cons
    (fun a ha => Or.inl (List.eq_of_mem_replicate ha)) hsteps

/-- What a request does by itself it does whatever is still to come. -/
theorem Request.run_withPending {acts : List Request.Act} (hown : Own acts)
    (hrun : r.run io program acts = some r') (chunks : List Bytes) :
    (r.withPending chunks).run io program acts = some (r'.withPending chunks) := by
  induction acts generalizing r with
  | nil =>
    obtain rfl := Option.some.inj hrun
    rfl
  | cons a acts ih =>
    obtain ⟨hhead, htail⟩ := List.forall_mem_cons.mp hown
    obtain ⟨r₁, hact, hrest⟩ := Run.play_cons_cases hrun
    have harrive : ∀ b, a ≠ .arrive b := by
      rintro b rfl
      rcases hhead with hhead | hhead <;> cases hhead
    exact (Run.play_cons (Request.act_withPending harrive hact chunks).1).trans (ih htail hrest)

theorem Request.Ends.withPending (h : r.Ends io program) (chunks : List Bytes) :
    (r.withPending chunks).Ends io program := by
  obtain ⟨acts, r', o, hown, hrun, ho⟩ := h
  exact ⟨acts, r'.withPending chunks, o, hown, Request.run_withPending hown hrun chunks, ho⟩

theorem bounded_lineThenRest : lineThenRest.Bounded 3 := by
  rintro (_ | ⟨s₁, _ | ⟨s₂, _ | ⟨s₃, seen⟩⟩⟩) hlength
  · simp at hlength
  · simp at hlength
  · simp at hlength
  · exact ⟨_, rfl⟩

/-- The connection fails while it waits for a line, after one of the five
bytes that were declared. -/
def waiting : List Request.BrokenAct :=
  [.act .next, .act .step, .act (.arrive .data), .act .step, .exception]

end RackApplication

end Jubilee
