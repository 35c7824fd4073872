import Jubilee.RackApplication.Program
import Jubilee.RackInput.Ends
/-!
# Rack application — a request that breaks off

When the connection fails while the body arrives, the `exceptionHandler`
of the request sets `eof`, as the end handler does. Nothing arrives after
that. `broken_off_unnoticed`: whatever the application does, what it sees
of such a request it sees of one whose body was complete and ended where
this one broke off.
-/

namespace Jubilee

namespace RackInput

/-- `request.exceptionHandler`. -/
def exceptionHandler (u : Upload) : Upload := { u with eof := true }

/-! ## What is still to come -/

/-- The same, with other chunks to come. -/
def Upload.withPending (u : Upload) (chunks : List Bytes) : Upload := { u with pending := chunks }

/-- A thread that does not look at what is still to come. -/
def Blind {κ α : Type} (T : Thread Upload κ α) : Prop :=
  ∀ k u chunks, T.step k (u.withPending chunks) =
    ((T.step k u).1, (T.step k u).2.withPending chunks)

/-- The rule of a call. -/
theorem Blind.call {κ κ' α β : Type} {T : Thread Upload κ α} (h : Blind T) (into : κ → κ')
    (ret : α → Next κ' β) (k : κ) (u : Upload) (chunks : List Bytes) :
    T.call into ret k (u.withPending chunks) =
      ((T.call into ret k u).1, (T.call into ret k u).2.withPending chunks) := by
  unfold Thread.call
  rw [h k u chunks]
  rcases T.step k u with ⟨k' | a, u'⟩
  · rfl
  · rfl

variable (io : RubyIORackInput)

theorem blind_isEOF : Blind isEOF := by
  intro k u chunks
  cases k <;> rfl

theorem blind_readAll (dst : Bytes) : Blind (readAll io dst) := by
  intro k u chunks
  cases k with
  | waitEof | readable => rfl
  | readBytes length =>
    simp only [readAll, Upload.withPending]
    cases u.bodyBuf.readBytes length <;> rfl

theorem blind_gets : Blind (gets io) := by
  intro k u chunks
  cases k with
  | isEOF e => exact blind_isEOF.call _ _ e u chunks
  | indexOf | eofGet => rfl
  | readAll a => exact (blind_readAll io []).call _ _ a u chunks
  | readLine lineEnd =>
    simp only [gets, Upload.withPending]
    cases u.bodyBuf.readBytes (lineEnd - u.bodyBuf.readerIndex + 1) <;> rfl

theorem blind_read (args : ReadArgs) : Blind (read io args) := by
  intro k u chunks
  cases k with
  | isEOF e | loopEOF e l => exact blind_isEOF.call _ _ e u chunks
  | loopReadable l => rfl
  | readAll a => exact (blind_readAll io []).call _ _ a u chunks
  | loopReadBytes len l =>
    simp only [read, Upload.withPending]
    cases u.bodyBuf.readBytes len <;> rfl

namespace Session

variable {io} {s s' : Session} {chunks : List Bytes}

/-- The same, with other chunks to come. -/
def withPending (s : Session) (chunks : List Bytes) : Session :=
  { s with upload := s.upload.withPending chunks }

theorem begin_withPending (c : Call) :
    (s.withPending chunks).begin c = (s.begin c).withPending chunks := by
  cases c <;> rfl

/-- **A step of a call** is the same whatever is still to come. -/
theorem resume_withPending {κ : Type} {T : Thread Upload κ Result} (h : Blind T) (c : Call)
    (into : κ → Running) (next : Result → Running) (k : κ) :
    (s.withPending chunks).resume c into next (T.step k (s.withPending chunks).upload) =
      (s.resume c into next (T.step k s.upload)).withPending chunks := by
  rw [withPending, h k s.upload chunks]
  rcases T.step k s.upload with ⟨k' | r, u⟩
  · rfl
  · rfl

theorem upload_resume {κ : Type} (c : Call) (into : κ → Running) (next : Result → Running)
    (n : Next κ Result × Upload) : (s.resume c into next n).upload = n.2 := by
  obtain ⟨k | r, u⟩ := n
  · rfl
  · rfl

/-- A step changes neither `eof` nor what is still to come. -/
theorem sameBody_advance (h : s.advance io = some s') : SameBody s.upload s'.upload := by
  rcases advance_cases h with ⟨k, -, rfl⟩ | ⟨k, -, rfl⟩ | ⟨c, args, k, -, rfl⟩
  · rw [upload_resume]
    exact sameBody_gets io k s.upload
  · rw [upload_resume]
    exact sameBody_gets io k s.upload
  · rw [upload_resume]
    exact sameBody_read io args k s.upload

theorem advance_withPending (h : s.advance io = some s') (chunks : List Bytes) :
    (s.withPending chunks).advance io = some (s'.withPending chunks) := by
  rcases advance_cases h with ⟨k, hk, rfl⟩ | ⟨k, hk, rfl⟩ | ⟨c, args, k, hk, rfl⟩
  · rw [advance_of_gets (s := s.withPending chunks) hk, resume_withPending (blind_gets io)]
  · rw [advance_of_each (s := s.withPending chunks) hk, resume_withPending (blind_gets io)]
  · rw [advance_of_read (s := s.withPending chunks) hk, resume_withPending (blind_read io args)]

end Session

end RackInput

namespace RackApplication

open RackEnv (RackEnvironmentHash)
open RackInput (exceptionHandler)

variable {O : Type*} [DecidableEq O]

namespace Request

/-! ## Requests that may break off -/

/-- What happens next, when the connection may fail. -/
inductive BrokenAct
  | act (a : Act)
  | exception
  deriving DecidableEq

variable (io : RackInput.RubyIORackInput) (program : Program O)

/-- The connection fails. -/
def breakOff (r : Request O) : Request O :=
  { r with input := { r.input with upload := exceptionHandler r.input.upload } }

/-- One act, if it is possible. -/
def brokenAct (r : Request O) : BrokenAct → Option (Request O)
  | .act a => r.act io program a
  | .exception => some r.breakOff

/-- The same, with other chunks to come. -/
def withPending (r : Request O) (chunks : List Bytes) : Request O :=
  { r with input := r.input.withPending chunks }

variable {io program} {r r' : Request O}

/-- After the end nothing breaks off. -/
theorem breakOff_of_eof (h : r.input.upload.eof = true) : r.breakOff = r := by
  rw [breakOff, exceptionHandler, ← h]

/-- Before it, the end of a body that has no more to come does the same. -/
theorem act_finish (h : r.input.upload.eof = false) :
    (r.withPending []).act io program (.arrive .finish) = some (r.breakOff.withPending []) := by
  have hfinish : RackInput.arrive .finish (r.input.upload.withPending []) =
      some (RackInput.endHandler (r.input.upload.withPending [])) := if_pos ⟨rfl, h⟩
  have hinput : (r.withPending []).input.act io (.arrive .finish) =
      some (r.breakOff.withPending []).input := Option.map_eq_some_iff.mpr ⟨_, hfinish, rfl⟩
  exact Option.map_eq_some_iff.mpr ⟨_, hinput, note_of_log_eq rfl⟩

/-- What the application does is the same whatever is still to come. -/
theorem act_withPending {a : Act} (ha : ∀ b, a ≠ .arrive b) (h : r.act io program a = some r')
    (chunks : List Bytes) :
    (r.withPending chunks).act io program a = some (r'.withPending chunks) ∧
      r'.input.upload.eof = r.input.upload.eof ∧
        r'.input.upload.pending = r.input.upload.pending := by
  cases a with
  | arrive b => exact absurd rfl (ha b)
  | step =>
    obtain ⟨input, hinput, rfl⟩ := Option.map_eq_some_iff.mp h
    have hadvance := RackInput.Session.advance_withPending hinput chunks
    have hsame := RackInput.Session.sameBody_advance hinput
    exact ⟨Option.map_eq_some_iff.mpr ⟨_, hadvance, rfl⟩, hsame.eof, hsame.pending⟩
  | next =>
    have hsame : (r.withPending chunks).todo program = r.todo program := rfl
    rcases htodo : r.todo program with _ | c | op | o
    · simp only [act, htodo] at h
      cases h
    · simp only [act, htodo, Option.some.injEq] at h
      simp only [act, hsame, htodo]
      subst h
      have hbegin : (r.withPending chunks).input.begin c = (r.input.begin c).withPending chunks :=
        RackInput.Session.begin_withPending c
      rw [hbegin]
      refine ⟨rfl, ?_⟩
      cases c <;> exact ⟨rfl, rfl⟩
    · simp only [act, htodo, Option.some.injEq] at h
      simp only [act, hsame, htodo]
      subst h
      exact ⟨rfl, rfl, rfl⟩
    · simp only [act, htodo] at h
      cases h

/-- What an arrival does: the next chunk is there, or `eof` is set. -/
theorem act_arrive_cases {b : RackInput.Arrival} (h : r.act io program (.arrive b) = some r') :
    r.input.upload.eof = false ∧
      ((b = .data ∧ ∃ chunk, r.input.upload.pending = chunk :: r'.input.upload.pending ∧
          ∀ chunks, (r.withPending (chunk :: chunks)).act io program (.arrive .data) =
            some (r'.withPending chunks)) ∨
        (b = .finish ∧ r.input.upload.pending = [] ∧ r' = r.breakOff)) := by
  obtain ⟨input, hinput, rfl⟩ := Option.map_eq_some_iff.mp h
  obtain ⟨u, hu, rfl⟩ := Option.map_eq_some_iff.mp hinput
  cases b with
  | data =>
    cases hpending : r.input.upload.pending with
    | nil => simp [RackInput.arrive, hpending] at hu
    | cons chunk rest =>
      simp only [RackInput.arrive, hpending] at hu
      obtain ⟨heof, hu⟩ := Option.ite_none_left_eq_some.mp hu
      obtain rfl := Option.some.inj hu
      refine ⟨Bool.eq_false_iff.mpr heof, Or.inl ⟨rfl, chunk, rfl, fun chunks => ?_⟩⟩
      have hdata : RackInput.arrive .data (r.input.upload.withPending (chunk :: chunks)) =
          some { RackInput.handler chunk r.input.upload with pending := chunks } := if_neg heof
      exact Option.map_eq_some_iff.mpr ⟨_, Option.map_eq_some_iff.mpr ⟨_, hdata, rfl⟩, rfl⟩
  | finish =>
    obtain ⟨⟨hpending, heof⟩, hu⟩ := Option.ite_none_right_eq_some.mp hu
    obtain rfl := Option.some.inj hu
    exact ⟨heof, Or.inr ⟨rfl, hpending, note_of_log_eq rfl⟩⟩

/-- **After the end** nothing arrives, so what is still to come plays no part. -/
theorem exists_run_of_eof {acts : List BrokenAct} (heof : r.input.upload.eof = true)
    (hrun : Run.play (brokenAct io program) acts r = some r') :
    ∃ acts', (r.withPending []).run io program acts' = some (r'.withPending []) := by
  induction acts generalizing r with
  | nil =>
    obtain rfl := Option.some.inj hrun
    exact ⟨[], rfl⟩
  | cons a acts ih =>
    obtain ⟨r₁, hact, hrest⟩ := Run.play_cons_cases hrun
    cases a with
    | exception =>
      obtain rfl := Option.some.inj hact
      rw [breakOff_of_eof heof] at hrest
      exact ih heof hrest
    | act a =>
      have hact : r.act io program a = some r₁ := hact
      by_cases harrive : ∃ b, a = .arrive b
      · -- an arrival comes before the end
        obtain ⟨b, rfl⟩ := harrive
        obtain ⟨hnot, -⟩ := act_arrive_cases hact
        rw [heof] at hnot
        cases hnot
      · obtain ⟨hact', heof', -⟩ := act_withPending (not_exists.mp harrive) hact []
        obtain ⟨acts', hrun'⟩ := ih (heof'.trans heof) hrest
        exact ⟨a :: acts', (Run.play_cons hact').trans hrun'⟩

/-- **A run that may break off** is one of a body that ended where it broke
off. -/
theorem exists_kept {acts : List BrokenAct}
    (hrun : Run.play (brokenAct io program) acts r = some r') :
    ∃ kept acts' rest, kept <+: r.input.upload.pending ∧
      (r.withPending kept).run io program acts' = some (r'.withPending rest) := by
  induction acts generalizing r with
  | nil =>
    obtain rfl := Option.some.inj hrun
    exact ⟨_, [], _, List.prefix_refl _, rfl⟩
  | cons a acts ih =>
    obtain ⟨r₁, hact, hrest⟩ := Run.play_cons_cases hrun
    cases a with
    | exception =>
      obtain rfl := Option.some.inj hact
      cases heof : r.input.upload.eof with
      | true =>
        rw [breakOff_of_eof heof] at hrest
        exact ih hrest
      | false =>
        -- nothing more is kept, and the end comes in place of the failure
        obtain ⟨acts', hrun'⟩ := exists_run_of_eof rfl hrest
        exact ⟨[], .arrive .finish :: acts', [], List.nil_prefix,
          (Run.play_cons (act_finish heof)).trans hrun'⟩
    | act a =>
      have hact : r.act io program a = some r₁ := hact
      obtain ⟨kept, acts', rest, hkept, hrun'⟩ := ih hrest
      by_cases harrive : ∃ b, a = .arrive b
      · obtain ⟨b, rfl⟩ := harrive
        obtain ⟨heof, ⟨rfl, chunk, hpending, hact'⟩ | ⟨rfl, hpending, rfl⟩⟩ := act_arrive_cases hact
        · -- a chunk that arrived is kept
          refine ⟨chunk :: kept, .arrive .data :: acts', rest, ?_, ?_⟩
          · rw [hpending]
            exact (List.prefix_cons_inj chunk).mpr hkept
          · exact (Run.play_cons (hact' kept)).trans hrun'
        · -- nothing was left to arrive
          have hnil : kept <+: r.input.upload.pending := hkept
          rw [hpending, List.prefix_nil] at hnil
          subst hnil
          exact ⟨[], .arrive .finish :: acts', rest, List.nil_prefix,
            (Run.play_cons (act_finish heof)).trans hrun'⟩
      · obtain ⟨hact', -, hpending⟩ := act_withPending (not_exists.mp harrive) hact kept
        rw [hpending] at hkept
        exact ⟨kept, a :: acts', rest, hkept, (Run.play_cons hact').trans hrun'⟩

/-- **A request that breaks off goes unnoticed.** What an application sees
of it, and how it ends, is what it sees of a request whose body was
complete and ended where this one broke off, in some interleaving. -/
theorem broken_off_unnoticed {chunks : List Bytes} {env : RackEnvironmentHash O}
    {acts : List BrokenAct}
    (hrun : Run.play (brokenAct io program) acts (start chunks env) = some r) :
    ∃ kept acts' r', kept <+: chunks ∧ (start kept env).run io program acts' = some r' ∧
      r'.log = r.log ∧ r'.env = r.env ∧ r'.outcome program = r.outcome program ∧
        r'.input.upload.bodyBuf = r.input.upload.bodyBuf ∧
          r'.input.upload.eof = r.input.upload.eof := by
  obtain ⟨kept, acts', rest, hkept, hrun'⟩ := exists_kept hrun
  exact ⟨kept, acts', r.withPending rest, hkept, hrun', rfl, rfl, rfl, rfl, rfl⟩

end Request

/-- The connection fails between the two chunks of `"A\nB"`. -/
def brokenOff : List Request.BrokenAct :=
  [.act (.arrive .data), .exception, .act .next] ++ List.replicate 7 (.act .step) ++
    [.act .next, .act .next] ++ List.replicate 4 (.act .step)

theorem broken_off_unnoticed_line :
    ∃ r kept acts' r', (requestOf kept).run ⟨0, true⟩ lineThenRest acts' = some r' ∧
      Run.play (Request.brokenAct ⟨0, true⟩ lineThenRest) brokenOff
        (requestOf [[65], [10, 66]]) = some r ∧
      r'.log = r.log ∧ (r'.outcome lineThenRest).isSome = true := by
  have hends : ((Run.play (Request.brokenAct ⟨0, true⟩ lineThenRest) brokenOff
      (requestOf [[65], [10, 66]])).bind (Request.outcome lineThenRest)).isSome = true := rfl
  obtain ⟨o, ho⟩ := Option.isSome_iff_exists.mp hends
  obtain ⟨r, hrun, ho⟩ := Option.bind_eq_some_iff.mp ho
  obtain ⟨kept, acts', r', -, hrun', hlog, -, houtcome, -⟩ := Request.broken_off_unnoticed hrun
  refine ⟨r, kept, acts', r', hrun', hrun, hlog, ?_⟩
  rw [houtcome, ho]
  rfl

end RackApplication

end Jubilee
