import Jubilee.RackInput.Session
/-!
# Rack input — what is handed out past a declared length

Where more of a body has arrived than `Content-Length` declares, the
methods of the input stop at different places: `read n` at the declared
length, `read` and a `gets` that finds no line end after as many bytes as
were declared, wherever they began, and a `gets` that finds one there.
`handed_out_prefix_iff` says for which calls what is handed out stays
within the declared length.
-/

namespace Jubilee

namespace RackInput

variable {n : ℕ} {body : Bytes} {p q : ℕ} {u u' : Upload}

/-! ## Where the methods stop -/

/-- Where `readAll` stops that begins at `p`. -/
def readAllTo (n : ℕ) (body : Bytes) (p : ℕ) : ℕ := p + min n (body.length - p)

/-- Where `gets` stops. -/
def getsTo (n : ℕ) (body : Bytes) (p : ℕ) : ℕ :=
  if EOL ∈ body.drop p then lineEnd body p else readAllTo n body p

/-- What is handed out from `p` up to `q`, where the reader is left. -/
structure Taken (body : Bytes) (p q : ℕ) (r : Result) (u : Upload) : Prop where
  le : p ≤ q
  bytes : bytesOf r = slice body p q
  hat : At body q u

theorem Taken.nothing {r : Result} (hat : At body p u) (hr : bytesOf r = []) : Taken body p p r u :=
  ⟨le_rfl, by rw [hr, slice_self], hat⟩

theorem bytesOf_orNil (s : Bytes) : bytesOf (.ok (orNil s)) = s := by
  unfold orNil
  by_cases hs : s = []
  · rw [if_pos hs, hs]
    rfl
  · rw [if_neg hs]
    rfl

/-- What `readAll` asserts at its control points. -/
def cappedReadAllHolds (n : ℕ) (body : Bytes) (p : ℕ) : ReadAll → Upload → Prop
  | .waitEof, u | .readable, u => At body p u
  | .readBytes length, u => At body p u ∧ length = (min n (body.length - p) : ℕ)

theorem cappedReadAll_meets (he : u.eof = true) {k : ReadAll}
    (h : cappedReadAllHolds n body p k u) :
    Meets (cappedReadAllHolds n body p) (Taken body p (readAllTo n body p))
      ((readAll ⟨n, false⟩ []).step k u) := by
  cases k with
  | waitEof =>
    simp only [readAll, if_pos he]
    exact h
  | readable =>
    -- the cap is the declared length, wherever the reader stands
    have hat : At body p u := h
    have hlen : min (n : ℤ) u.bodyBuf.readableBytes = (min n (body.length - p) : ℕ) := by
      rw [hat.readable_of_eof he]; omega
    simp only [readAll, Bool.false_eq_true, if_false]
    rw [hlen, if_neg (by omega)]
    exact ⟨hat, rfl⟩
  | readBytes length =>
    obtain ⟨hat, rfl⟩ := h
    have hle : min n (body.length - p) ≤ u.bodyBuf.readableBytes := by
      rw [hat.readable_of_eof he]
      exact min_le_right _ _
    obtain ⟨buf, hread, hat'⟩ := hat.readBytes hle
    simp only [readAll, hread]
    exact ⟨Nat.le_add_right _ _, bytesOf_orNil _, hat'⟩

/-- What `gets` asserts at its control points. -/
def cappedGetsHolds (n : ℕ) (body : Bytes) (p : ℕ) : Gets → Upload → Prop
  | .isEOF e, u => isEOFHolds body p e u
  | .indexOf, u => At body p u
  | .eofGet, u => At body p u ∧ EOL ∉ body.drop p
  | .readAll a, u => cappedReadAllHolds n body p a u ∧ EOL ∉ body.drop p
  | .readLine l, u => At body p u ∧ EOL ∈ body.drop p ∧
      ∃ i : ℕ, l = (p + i : ℕ) ∧ i < u.bodyBuf.readableBytes ∧ lineEnd body p = p + (i + 1)

theorem getsTo_of_notMem (h : EOL ∉ body.drop p) : getsTo n body p = readAllTo n body p := if_neg h

/-- Nothing is taken at the end of the body. -/
theorem getsTo_length : getsTo n body body.length = body.length := by
  rw [getsTo_of_notMem (by rw [List.drop_length]; exact List.not_mem_nil), readAllTo]
  omega

theorem cappedGets_meets (he : u.eof = true) {k : Gets} (h : cappedGetsHolds n body p k u) :
    Meets (cappedGetsHolds n body p) (Taken body p (getsTo n body p))
      ((gets ⟨n, false⟩).step k u) := by
  cases k with
  | isEOF e =>
    refine (isEOF_meets h).call (fun _ _ h' => h') ?_
    rintro eof u' ⟨hat, htrue, -⟩
    cases eof with
    | true =>
      obtain ⟨-, rfl⟩ := htrue rfl
      change Taken body body.length (getsTo n body body.length) (.ok none) u'
      rw [getsTo_length]
      exact .nothing hat rfl
    | false => exact hat
  | indexOf =>
    have hat : At body p u := h
    cases hscan : u.bodyBuf.unread.findIdx? (· = EOL) with
    | none =>
      simp only [gets, ByteBuf.indexOf_readable, hscan, if_true]
      refine ⟨hat, fun hmem => ?_⟩
      rw [← hat.unread_of_eof he] at hmem
      have hnone := List.findIdx?_eq_none_iff.mp hscan EOL hmem
      simp at hnone
    | some i =>
      have hne : ¬ ((u.bodyBuf.readerIndex + i : ℕ) : ℤ) = -1 := by omega
      obtain ⟨hi, hend⟩ := lineEnd_of_findIdx hat hscan
      simp only [gets, ByteBuf.indexOf_readable, hscan, if_neg hne]
      refine ⟨hat, ?_, i, by rw [hat.position], hi, hend⟩
      obtain ⟨hlt, hi', -⟩ := List.findIdx?_eq_some_iff_getElem.mp hscan
      rw [← hat.unread_of_eof he]
      exact (of_decide_eq_true hi') ▸ List.getElem_mem hlt
  | eofGet =>
    simp only [gets, if_pos he]
    exact h
  | readAll a =>
    obtain ⟨h, hno⟩ := h
    refine (cappedReadAll_meets he h).call (fun _ _ h' => ⟨h', hno⟩) fun r u' htaken => ?_
    rwa [← getsTo_of_notMem hno] at htaken
  | readLine l =>
    obtain ⟨hat, hmem, i, rfl, hi, hend⟩ := h
    obtain ⟨buf, hread, hat'⟩ := hat.readBytes (n := i + 1) (by omega)
    have hlen : ((p + i : ℕ) : ℤ) - u.bodyBuf.readerIndex + 1 = (i + 1 : ℕ) := by
      rw [hat.position]; omega
    have hto : getsTo n body p = p + (i + 1) := by rw [getsTo, if_pos hmem, hend]
    simp only [gets, hlen, hread]
    exact ⟨by omega, by rw [hto]; rfl, by rw [hto]; exact hat'⟩

/-- The loop of `read`, entered at `p` and with the reader now at `q`. -/
structure Filling (n : ℕ) (body : Bytes) (p q : ℕ) (l : ReadLoop) : Prop where
  le : p ≤ q
  le_declared : q ≤ n
  buffer : l.buffer = slice body p q
  dst : l.dst = []

/-- What `read` asserts at its control points, where it began within the
declared length. -/
def cappedReadHolds (n : ℕ) (body : Bytes) (p : ℕ) (args : ReadArgs) : Read → Upload → Prop
  | .isEOF e, u => isEOFHolds body p e u
  | .readAll a, u => args = .none ∧ cappedReadAllHolds n body p a u
  | .loopEOF e l, u => args ≠ .none ∧ ∃ q, Filling n body p q l ∧ isEOFHolds body q e u
  | .loopReadable l, u => args ≠ .none ∧ ∃ q, Filling n body p q l ∧ At body q u
  | .loopReadBytes len l, u => args ≠ .none ∧ ∃ q, Filling n body p q l ∧ At body q u ∧
      ∃ j : ℕ, len = j ∧ j ≤ u.bodyBuf.readableBytes ∧ q + j ≤ n

/-- What it leaves: without a length it stops where `readAll` does, and
with one within the declared length. -/
def CappedReadPost (n : ℕ) (body : Bytes) (p : ℕ) (args : ReadArgs) (r : Result) (u : Upload) :
    Prop :=
  ∃ q, Taken body p q r u ∧ (args = .none → q = readAllTo n body p) ∧ (args ≠ .none → q ≤ n)

theorem Filling.taken {l : ReadLoop} (h : Filling n body p q l) (hat : At body q u)
    {args : ReadArgs} (hargs : args ≠ .none) : CappedReadPost n body p args l.result u := by
  refine ⟨q, ⟨h.le, ?_, hat⟩, fun hnone => absurd hnone hargs, fun _ => h.le_declared⟩
  rw [ReadLoop.result, h.dst, h.buffer]
  rfl

theorem cappedTest_meets {l : ReadLoop} (h : Filling n body p q l) (hat : At body q u)
    {args : ReadArgs} (hargs : args ≠ .none) :
    Meets (cappedReadHolds n body p args) (CappedReadPost n body p args) (l.test, u) := by
  by_cases h0 : 0 < l.toRead
  · rw [ReadLoop.test, if_pos h0]
    exact ⟨hargs, q, h, hat⟩
  · rw [ReadLoop.test, if_neg h0]
    exact h.taken hat hargs

theorem cappedStart_meets (hp : p ≤ n) (hat : At body p u) {args : ReadArgs}
    (hargs : args = .none ∨ ∃ k, args = .length k) :
    Meets (cappedReadHolds n body p args) (CappedReadPost n body p args) (Read.start args, u) := by
  rcases hargs with rfl | ⟨k, rfl⟩
  · exact ⟨rfl, hat⟩
  · have hraises : ∀ e, CappedReadPost n body p (.length k) (.error e) u := fun e =>
      ⟨p, .nothing hat rfl, nofun, fun _ => hp⟩
    rw [Read.start]
    cases num2int k with
    | error e => exact hraises e
    | ok len =>
      by_cases hneg : len < 0
      · rw [Read.allocate, if_pos hneg]
        exact hraises _
      · rw [Read.allocate, if_neg hneg]
        exact cappedTest_meets ⟨le_rfl, hp, (slice_self _ _).symm, rfl⟩ hat nofun

theorem cappedRead_meets (he : u.eof = true) (hp : p ≤ n) {args : ReadArgs}
    (hargs : args = .none ∨ ∃ k, args = .length k) {k : Read}
    (h : cappedReadHolds n body p args k u) :
    Meets (cappedReadHolds n body p args) (CappedReadPost n body p args)
      ((read ⟨n, false⟩ args).step k u) := by
  cases k with
  | isEOF e =>
    refine (isEOF_meets h).call (fun _ _ h' => h') ?_
    rintro eof u' ⟨hat, htrue, -⟩
    cases eof with
    | true =>
      obtain ⟨-, rfl⟩ := htrue rfl
      refine ⟨_, .nothing hat rfl, fun _ => ?_, fun _ => hp⟩
      rw [readAllTo]
      omega
    | false => exact cappedStart_meets hp hat hargs
  | readAll a =>
    obtain ⟨rfl, h⟩ := h
    exact (cappedReadAll_meets he h).call (fun _ _ h' => ⟨rfl, h'⟩) fun r u' htaken =>
      ⟨_, htaken, fun _ => rfl, fun hne => absurd rfl hne⟩
  | loopEOF e l =>
    obtain ⟨hne, q, hl, h⟩ := h
    refine (isEOF_meets h).call (fun _ _ h' => ⟨hne, q, hl, h'⟩) ?_
    rintro eof u' ⟨hat, -, -⟩
    cases eof with
    | true => exact hl.taken hat hne
    | false => exact ⟨hne, q, hl, hat⟩
  | loopReadable l =>
    -- the cap is what is left of the declared length
    obtain ⟨hne, q, hl, hat⟩ := h
    have hle := hl.le_declared
    have hcap : min (l.toRead : ℤ) (readableBytes ⟨n, false⟩ u) =
        (min l.toRead (min u.bodyBuf.readableBytes (n - q)) : ℕ) := by
      simp only [readableBytes, Bool.false_eq_true, if_false, hat.position]
      omega
    exact ⟨hne, q, hl, hat, _, hcap, by omega, by omega⟩
  | loopReadBytes len l =>
    obtain ⟨hne, q, hl, hat, j, rfl, hj, hjn⟩ := h
    obtain ⟨buf, hread, hat'⟩ := hat.readBytes hj
    have hbuffer : l.buffer ++ slice body q (q + j) = slice body p (q + j) := by
      rw [hl.buffer, slice_append_slice body hl.le (Nat.le_add_right q j)]
    have hturn : Filling n body p (q + j)
        ⟨l.toRead - (slice body q (q + j)).length, l.buffer ++ slice body q (q + j), l.dst⟩ :=
      ⟨hl.le.trans (Nat.le_add_right q j), hjn, hbuffer, hl.dst⟩
    simp only [read, hread]
    exact cappedTest_meets hturn hat' hne

/-! ## What a log says -/

/-- The call stays within the declared length. One of `gets` or `each`
does where the line ends there, and without a line end, like `read`,
where the body ends there or nothing was read before. -/
def Fits (n : ℕ) (body : Bytes) (e : Event) : Prop :=
  match e.call with
  | .gets | .each =>
    if EOL ∈ body.drop e.before then lineEnd body e.before ≤ n
    else body.length ≤ n ∨ e.before = 0
  | .readAll => body.length ≤ n ∨ e.before = 0
  | .read _ | .rewind => True

/-- What an event says that begins at `p`, within the declared length. -/
structure Capped (n : ℕ) (body : Bytes) (p : ℕ) (e : Event) : Prop where
  before : e.before = p
  rewound : e.call = .rewind → e.after = 0
  handed : e.call ≠ .rewind → Handed body e
  fits : e.after ≤ n ↔ Fits n body e

/-- Every event says so that begins within the declared length. -/
def CappedLog (n : ℕ) (body : Bytes) : List Event → Prop
  | [] => True
  | e :: older => CappedLog n body older ∧ (position older ≤ n → Capped n body (position older) e)

/-- **What was handed out is within the declared length** just where every
call was. -/
theorem CappedLog.prefix_iff {log : List Event} (h : CappedLog n body log) :
    ((∀ older, older <:+ log → gathered older <+: body.take n) ↔ ∀ e ∈ log, Fits n body e) ∧
      ((∀ e ∈ log, Fits n body e) →
        position log ≤ n ∧ gathered log = body.take (position log)) := by
  induction log with
  | nil =>
    refine ⟨iff_of_true ?_ nofun, fun _ => ⟨Nat.zero_le n, rfl⟩⟩
    rintro older hsuffix
    rw [List.suffix_nil.mp hsuffix]
    exact List.nil_prefix
  | cons e older ih =>
    obtain ⟨ih, ihfits⟩ := ih h.1
    have hsuffixes : (∀ log, log <:+ e :: older → gathered log <+: body.take n) ↔
        gathered (e :: older) <+: body.take n ∧ ∀ e ∈ older, Fits n body e := by
      rw [← ih]
      refine ⟨fun hall => ⟨hall _ List.suffix_rfl, fun log hlog => hall log (hlog.trans
        (List.suffix_cons e older))⟩, fun hall log hlog => ?_⟩
      rcases List.suffix_cons_iff.mp hlog with rfl | hlog
      · exact hall.1
      · exact hall.2 log hlog
    rw [hsuffixes, List.forall_mem_cons]
    by_cases hfits : ∀ e ∈ older, Fits n body e
    · obtain ⟨hp, hgathered⟩ := ihfits hfits
      obtain ⟨hbefore, hrewound, hhanded, hiff⟩ := h.2 hp
      have hone : gathered (e :: older) = body.take e.after ∧ e.after ≤ body.length := by
        by_cases hc : e.call = .rewind
        · rw [gathered, if_pos hc, hrewound hc]
          exact ⟨rfl, Nat.zero_le _⟩
        · obtain ⟨hle, hlength, hbytes⟩ := hhanded hc
          refine ⟨?_, hlength⟩
          rw [gathered, if_neg hc, hgathered, hbytes, hbefore, ← slice_zero, ← slice_zero,
            slice_append_slice body (Nat.zero_le _) (hbefore ▸ hle)]
      have hprefix : gathered (e :: older) <+: body.take n ↔ Fits n body e := by
        rw [hone.1, ← hiff, List.prefix_take_iff]
        have := List.length_take_of_le hone.2
        exact ⟨fun hpre => this ▸ hpre.2, fun hle => ⟨List.take_prefix _ _, this.symm ▸ hle⟩⟩
      exact ⟨and_congr_left fun _ => hprefix, fun hall => ⟨hiff.mpr hall.1, hone.1⟩⟩
    · exact ⟨iff_of_false (fun hall => hfits hall.2) fun hall => hfits hall.2,
        fun hall => absurd hall.2 hfits⟩

/-! ## The invariant of a session -/

/-- A session on a body that has arrived. -/
def Session.received (body : Bytes) : Session :=
  ⟨⟨⟨body, 0, Nat.zero_le _⟩, true, []⟩, .idle, 0, []⟩

/-- The body has arrived. -/
structure Received (body : Bytes) (u : Upload) : Prop where
  bytes : u.bodyBuf.bytes = body
  eof : u.eof = true
  pending : u.pending = []

theorem Received.at (h : Received body u) : At body u.bodyBuf.readerIndex u :=
  ⟨by rw [h.bytes, h.pending]; exact List.append_nil body, fun _ => h.pending, rfl⟩

theorem Received.same (h : Received body u) (hsame : SameBody u u') : Received body u' :=
  ⟨hsame.bytes.trans h.bytes, hsame.eof.trans h.eof, hsame.pending.trans h.pending⟩

/-- The arguments that a call of `read` gives it. -/
def Asks (c : Call) (args : ReadArgs) : Prop :=
  (∃ k : ℕ, c = .read k ∧ args = .length (.int k)) ∨ (c = .readAll ∧ args = .none)

theorem Asks.args {c : Call} {args : ReadArgs} (h : Asks c args) :
    args = .none ∨ ∃ k, args = .length k := by
  rcases h with ⟨k, -, rfl⟩ | ⟨-, rfl⟩
  · exact Or.inr ⟨_, rfl⟩
  · exact Or.inl rfl

/-- What holds of the running thread that began within the declared
length. -/
def RunningCapped (n : ℕ) (body : Bytes) (p : ℕ) : Running → Upload → Prop
  | .idle, u => At body p u
  | .gets k, u | .each k, u => cappedGetsHolds n body p k u
  | .read c args k, u => cappedReadHolds n body p args k u ∧ Asks c args

/-- **The invariant**: the log says how far each call reached that began
within the declared length, and the running one is on its way if it did. -/
structure CappedInv (n : ℕ) (body : Bytes) (s : Session) : Prop where
  received : Received body s.upload
  log : CappedLog n body s.log
  mark : s.mark = position s.log
  running : position s.log ≤ n → RunningCapped n body (position s.log) s.running s.upload

variable {s s' : Session} {r : Result}

theorem cappedInv_received (n : ℕ) (body : Bytes) : CappedInv n body (.received body) := by
  have hreceived : Received body (Session.received body).upload := ⟨rfl, rfl, rfl⟩
  exact ⟨hreceived, trivial, rfl, fun _ => hreceived.at⟩

theorem handed_of_taken {c : Call} (h : Taken body p q r u) :
    Handed body ⟨c, p, r, u.bodyBuf.readerIndex⟩ := by
  rw [h.hat.position]
  exact ⟨h.le, h.hat.le_length, h.bytes⟩

/-- Where `readAll` stops. -/
theorem readAllTo_le_iff (hp : p ≤ n) : readAllTo n body p ≤ n ↔ body.length ≤ n ∨ p = 0 := by
  unfold readAllTo
  omega

/-- The results of `gets`, in a call of its own or of `each`. -/
theorem capped_gets {c : Call} (hc : c = .gets ∨ c = .each) (hp : p ≤ n)
    (h : Taken body p (getsTo n body p) r u) :
    Capped n body p ⟨c, p, r, u.bodyBuf.readerIndex⟩ := by
  refine ⟨rfl, fun hrewind => ?_, fun _ => handed_of_taken h, ?_⟩
  · rcases hc with rfl | rfl <;> cases hrewind
  · have hfits : Fits n body ⟨c, p, r, u.bodyBuf.readerIndex⟩ ↔
        if EOL ∈ body.drop p then lineEnd body p ≤ n else body.length ≤ n ∨ p = 0 := by
      rcases hc with rfl | rfl <;> rfl
    rw [hfits, h.hat.position, getsTo]
    split
    · rfl
    · exact readAllTo_le_iff hp

/-- The results of `read`. -/
theorem capped_read {c : Call} {args : ReadArgs} (hc : Asks c args) (hp : p ≤ n)
    (h : CappedReadPost n body p args r u) :
    Capped n body p ⟨c, p, r, u.bodyBuf.readerIndex⟩ := by
  obtain ⟨q, htaken, hall, hlength⟩ := h
  rcases hc with ⟨k, rfl, rfl⟩ | ⟨rfl, rfl⟩
  · refine ⟨rfl, nofun, fun _ => handed_of_taken htaken, iff_of_true ?_ trivial⟩
    rw [htaken.hat.position]
    exact hlength nofun
  · refine ⟨rfl, nofun, fun _ => handed_of_taken htaken, ?_⟩
    rw [htaken.hat.position, hall rfl]
    exact readAllTo_le_iff hp

theorem cappedInv_begin (h : CappedInv n body s) (hidle : s.running = .idle) (c : Call) :
    CappedInv n body (s.begin c) := by
  obtain ⟨hreceived, hlog, hmark, hrun⟩ := h
  rw [hidle] at hrun
  cases c with
  | gets => exact ⟨hreceived, hlog, hmark, hrun⟩
  | each => exact ⟨hreceived, hlog, hmark, hrun⟩
  | read k => exact ⟨hreceived, hlog, hmark, fun hp => ⟨hrun hp, Or.inl ⟨k, rfl, rfl⟩⟩⟩
  | readAll => exact ⟨hreceived, hlog, hmark, fun hp => ⟨hrun hp, Or.inr ⟨rfl, rfl⟩⟩⟩
  | rewind =>
    have hreceived' : Received body (rewind s.upload) := ⟨hreceived.1, hreceived.2, hreceived.3⟩
    refine ⟨hreceived', ⟨hlog, fun _ => ⟨hmark, fun _ => rfl, fun hne => absurd rfl hne, ?_⟩⟩, rfl,
      fun _ => hreceived'.at⟩
    exact iff_of_true (Nat.zero_le n) trivial

/-- **A step of the running method**: it goes on, or its result is
recorded. -/
theorem cappedInv_resume {κ : Type} {holds : κ → Upload → Prop} {post : Result → Upload → Prop}
    {c : Call} {into : κ → Running} {next : Result → Running} {step : Next κ Result × Upload}
    (h : CappedInv n body s) (hsame : SameBody s.upload step.2)
    (hmet : position s.log ≤ n → Meets holds post step)
    (hgoto : ∀ k u, holds k u → RunningCapped n body (position s.log) (into k) u)
    (hdone : ∀ r u, position s.log ≤ n → post r u →
      Capped n body (position s.log) ⟨c, position s.log, r, u.bodyBuf.readerIndex⟩)
    (hnext : ∀ r u, At body u.bodyBuf.readerIndex u →
      RunningCapped n body u.bodyBuf.readerIndex (next r) u) :
    CappedInv n body (s.resume c into next step) := by
  obtain ⟨k | r, u⟩ := step
  · exact ⟨h.received.same hsame, h.log, h.mark, fun hp => hgoto k u (hmet hp)⟩
  · have hreceived := h.received.same hsame
    refine ⟨hreceived, ⟨h.log, fun hp => ?_⟩, rfl, fun _ => hnext r u hreceived.at⟩
    rw [h.mark]
    exact hdone r u hp (hmet hp)

theorem cappedInv_advance (h : CappedInv n body s) (hs : s.advance ⟨n, false⟩ = some s') :
    CappedInv n body s' := by
  have he := h.received.eof
  have hrun := h.running
  obtain ⟨k, hrunning, rfl⟩ | ⟨k, hrunning, rfl⟩ | ⟨c, args, k, hrunning, rfl⟩ := advance_cases hs
  · rw [hrunning] at hrun
    exact cappedInv_resume h (sameBody_gets _ k s.upload)
      (fun hp => cappedGets_meets he (hrun hp)) (fun _ _ hk => hk)
      (fun r u hp htaken => capped_gets (Or.inl rfl) hp htaken) fun _ _ hat => hat
  · rw [hrunning] at hrun
    refine cappedInv_resume h (sameBody_gets _ k s.upload)
      (fun hp => cappedGets_meets he (hrun hp)) (fun _ _ hk => hk)
      (fun r u hp htaken => capped_gets (Or.inr rfl) hp htaken) fun r u hat => ?_
    unfold Session.afterGets
    split
    · exact hat
    · exact hat
  · rw [hrunning] at hrun
    have hmet : position s.log ≤ n →
        Meets (fun k u => cappedReadHolds n body (position s.log) args k u ∧ Asks c args)
          (fun r u => CappedReadPost n body (position s.log) args r u ∧ Asks c args)
          ((read ⟨n, false⟩ args).step k s.upload) := by
      intro hp
      obtain ⟨hk, hasks⟩ := hrun hp
      exact (cappedRead_meets he hp hasks.args hk).mono (fun _ _ hk => ⟨hk, hasks⟩)
        fun _ _ hpost => ⟨hpost, hasks⟩
    exact cappedInv_resume h (sameBody_read _ args k s.upload) hmet (fun _ _ hk => hk)
      (fun r u hp hpost => capped_read hpost.2 hp hpost.1) fun _ _ hat => hat

theorem cappedInv_act (h : CappedInv n body s) {a : Act} (hs : s.act ⟨n, false⟩ a = some s') :
    CappedInv n body s' := by
  obtain ⟨b, u, -, hb, -⟩ | ⟨c, -, hidle, rfl⟩ | ⟨-, hs⟩ := act_cases hs
  · rw [arrive_of_eof h.received.eof] at hb
    cases hb
  · exact cappedInv_begin h hidle c
  · exact cappedInv_advance h hs

theorem cappedInv_run (h : CappedInv n body s) {acts : List Act}
    (hs : s.run ⟨n, false⟩ acts = some s') : CappedInv n body s' :=
  run_preserves (fun _ _ _ _ h ha => cappedInv_act h ha) h hs

/-- **Exactly when nothing past the declared length is handed out**, in
any sequence of calls on a body that has arrived: every line that is
read ends within it, and where the body is longer what reads everything
begins at the start. -/
theorem handed_out_prefix_iff (n : ℕ) (body : Bytes) {acts : List Act} {s : Session}
    (hrun : (Session.received body).run ⟨n, false⟩ acts = some s) :
    (∀ older, older <:+ s.log → gathered older <+: body.take n) ↔ ∀ e ∈ s.log, Fits n body e :=
  (cappedInv_run (cappedInv_received n body) hrun).log.prefix_iff.1

/-- A line that ends within the declared length, and then one byte. -/
def lineAndByte : List Act :=
  [.call .gets, .step, .step, .step, .step, .call (.read 1), .step, .step, .step, .step, .step,
    .step]

/-- Of `"A\nBC"` three bytes are declared, and no more handed out. -/
theorem handed_out_prefix_three :
    gathered [⟨.read 1, 2, .ok (some [66]), 3⟩, ⟨.gets, 0, .ok (some [65, 10]), 2⟩] <+:
      [65, 10, 66] := by
  have hrun : (Session.received [65, 10, 66, 67]).run ⟨3, false⟩ lineAndByte =
      some ⟨⟨⟨[65, 10, 66, 67], 3, by decide⟩, true, []⟩, .idle, 3,
        [⟨.read 1, 2, .ok (some [66]), 3⟩, ⟨.gets, 0, .ok (some [65, 10]), 2⟩]⟩ := by decide
  refine (handed_out_prefix_iff 3 [65, 10, 66, 67] hrun).mpr ?_ _ List.suffix_rfl
  simp [Fits, lineEnd, line, EOL]

/-- Of `"A\nB"` one byte is declared, and `gets` hands out two. -/
theorem gets_past_declared :
    ((Session.received [65, 10, 66]).run ⟨1, false⟩ [.call .gets, .step, .step, .step, .step]).map
        Session.log = some [⟨.gets, 0, .ok (some [65, 10]), 2⟩] ∧
      ¬ gathered [⟨.gets, 0, .ok (some [65, 10]), 2⟩] <+: [65, 10, 66].take 1 :=
  ⟨by decide, by decide⟩

end RackInput

end Jubilee
