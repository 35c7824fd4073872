import Jubilee.RackInput.Ends
/-!
# Rack input — `gets`, and the scan that is too old

`gets` looks for a line end and, in a later step, at `eof`. Where the
rest of the body arrives between the two, it leaves its loop with a scan
that no longer describes the buffer and returns everything as one line.
`gets_eq_lineAt_iff` says that this is the only way it can go wrong: the
call comes to an end, and its result is the line at the position exactly
when no such step was taken.
-/

namespace Jubilee

namespace RackInput

variable {io : RubyIORackInput} {body : Bytes} {p : ℕ} {u u' : Upload}

/-! ## The outline -/

/-- What `gets` leaves: `nil` at the end of the body, and elsewhere the
slice up to one of the positions where it may stop. -/
def GetsPost (body : Bytes) (p : ℕ) (ends : ℕ → Prop) (r : Result) (u : Upload) : Prop :=
  (r = .ok none ∧ p = body.length ∧ At body p u) ∨
    ∃ q, p < q ∧ ends q ∧ r = .ok (some (slice body p q)) ∧ At body q u

/-- The position after the line that starts at `p`. -/
def lineEnd (body : Bytes) (p : ℕ) : ℕ := p + (line EOL (body.drop p)).length

/-- A line end among the unread bytes is the body's. -/
theorem lineEnd_of_findIdx (hat : At body p u) {i : ℕ}
    (h : u.bodyBuf.unread.findIdx? (· = EOL) = some i) :
    i < u.bodyBuf.readableBytes ∧ lineEnd body p = p + (i + 1) := by
  have hi : i < u.bodyBuf.unread.length := (List.findIdx?_eq_some_iff_getElem.mp h).1
  have hline : line EOL (body.drop p) = (body.drop p).take (i + 1) := by
    refine line_of_findIdx ?_
    rw [hat.unread, List.findIdx?_append, h]
    rfl
  refine ⟨by rwa [ByteBuf.length_unread] at hi, ?_⟩
  rw [lineEnd, hline, hat.unread, List.length_take, List.length_append]
  omega

/-- What `gets` asserts at its control points, when it may stop at `ends`. -/
def getsHolds (hd : Declares io body) (p : ℕ) (ends : ℕ → Prop) : Gets → Upload → Prop
  | .isEOF e, u => (isEOFOutline body p).holds e u
  | .indexOf, u => At body p u ∧ p < body.length
  | .eofGet, u => At body p u ∧ p < body.length
  | .readAll a, u => (readAllOutline hd [] p).holds a u ∧ p < body.length ∧ ends body.length
  | .readLine l, u => At body p u ∧ p < body.length ∧
      ∃ i : ℕ, l = (p + i : ℕ) ∧ i < u.bodyBuf.readableBytes ∧ lineEnd body p = p + (i + 1)

theorem getsHolds_arrive {hd : Declares io body} {ends : ℕ → Prop} {k : Gets} {a : Arrival}
    (h : getsHolds hd p ends k u) (ha : arrive a u = some u') : getsHolds hd p ends k u' := by
  cases k with
  | isEOF e => exact (isEOFOutline body p).holds_env h ha
  | indexOf => exact ⟨h.1.arrive ha, h.2⟩
  | eofGet => exact ⟨h.1.arrive ha, h.2⟩
  | readAll a => exact ⟨(readAllOutline hd [] p).holds_env h.1 ha, h.2⟩
  | readLine l =>
    obtain ⟨hat, hp, i, hl, hi, hend⟩ := h
    exact ⟨hat.arrive ha, hp, i, hl, lt_of_lt_of_le hi (readableBytes_le_of_arrive ha), hend⟩

theorem GetsPost.arrive {ends : ℕ → Prop} {r : Result} {a : Arrival} (h : GetsPost body p ends r u)
    (ha : arrive a u = some u') : GetsPost body p ends r u' := by
  rcases h with ⟨hr, hp, hat⟩ | ⟨q, hq, hends, hr, hat⟩
  · exact Or.inl ⟨hr, hp, hat.arrive ha⟩
  · exact Or.inr ⟨q, hq, hends, hr, hat.arrive ha⟩

/-- One step of `gets`. -/
theorem gets_meets {hd : Declares io body} {ends : ℕ → Prop} {k : Gets}
    (hline : p < body.length → ends (lineEnd body p))
    (hrest : k = .eofGet → At body p u → u.eof = true → p < body.length → ends body.length)
    (h : getsHolds hd p ends k u) :
    Meets (getsHolds hd p ends) (GetsPost body p ends) ((gets io).step k u) := by
  cases k with
  | isEOF e =>
    refine (isEOFOutline body p).call h trivial (fun e' u' h' => h') ?_
    rintro eof u' ⟨hat, htrue, hfalse⟩
    cases eof with
    | true => exact Or.inl ⟨rfl, (htrue rfl).2, hat⟩
    | false =>
      have := hat.readable_le
      have := hfalse rfl
      exact ⟨hat, by omega⟩
  | indexOf =>
    obtain ⟨hat, hp⟩ := h
    cases hscan : u.bodyBuf.unread.findIdx? (· = EOL) with
    | none =>
      simp only [gets, ByteBuf.indexOf_readable, hscan, if_true]
      exact ⟨hat, hp⟩
    | some i =>
      have hne : ¬ ((u.bodyBuf.readerIndex + i : ℕ) : ℤ) = -1 := by omega
      obtain ⟨hi, hend⟩ := lineEnd_of_findIdx hat hscan
      simp only [gets, ByteBuf.indexOf_readable, hscan, if_neg hne]
      exact ⟨hat, hp, i, by rw [hat.position], hi, hend⟩
  | eofGet =>
    -- the scan found no line end, but it may be older than the `eof` seen here
    obtain ⟨hat, hp⟩ := h
    by_cases he : u.eof = true
    · simp only [gets, if_pos he]
      exact ⟨hat, hp, hrest rfl hat he hp⟩
    · simp only [gets, if_neg he]
      exact ⟨hat, hp⟩
  | readAll a =>
    obtain ⟨h, hp, hends⟩ := h
    refine (readAllOutline hd [] p).call h trivial (fun a' u' h' => ⟨h', hp, hends⟩) ?_
    rintro r u' ⟨hat, rfl⟩
    have hne : body.drop p ≠ [] := by
      rw [ne_eq, List.drop_eq_nil_iff]; omega
    refine Or.inr ⟨body.length, hp, hends, ?_, hat⟩
    rw [List.nil_append, orNil_of_ne_nil hne, slice_of_length_le le_rfl]
  | readLine l =>
    obtain ⟨hat, hp, i, rfl, hi, hend⟩ := h
    obtain ⟨buf, hread, hat'⟩ := hat.readBytes (n := i + 1) (by omega)
    have hlen : ((p + i : ℕ) : ℤ) - u.bodyBuf.readerIndex + 1 = (i + 1 : ℕ) := by
      rw [hat.position]; omega
    simp only [gets, hlen, hread]
    exact Or.inr ⟨p + (i + 1), by omega, hend ▸ hline hp, rfl, hat'⟩

/-- **`gets` stops at a line end, or at the end of the body.** Which of
the two ends it may stop at is the caller's to say, `ends`; that the end
of the body is one is asked for the guarded steps that leave the loop. -/
def getsOutline (hd : Declares io body) (p : ℕ) (guard : Gets → Upload → Prop) (ends : ℕ → Prop)
    (hline : p < body.length → ends (lineEnd body p))
    (hrest : ∀ u, At body p u → u.eof = true → p < body.length → guard .eofGet u →
      ends body.length) :
    Outline (gets io) arrive guard where
  holds := getsHolds hd p ends
  post := GetsPost body p ends
  holds_env := getsHolds_arrive
  post_env := GetsPost.arrive
  step h hg := gets_meets hline (fun hk hat he hp => hrest _ hat he hp (hk ▸ hg)) h

/-- The outline with nothing asked of where `gets` stops. -/
def getsAnyOutline (hd : Declares io body) (p : ℕ) : Outline (gets io) arrive fun _ _ => True :=
  getsOutline hd p _ (fun _ => True) (fun _ => trivial) fun _ _ _ _ _ => trivial

/-! ## The line at a position -/

/-- What `gets` is to return at position `p`: the bytes up to and
including the next line end, the rest of the body where there is none,
and `nil` at the end. -/
def lineAt (body : Bytes) (p : ℕ) : Option Bytes :=
  if p < body.length then some (line EOL (body.drop p)) else none

/-- `gets` is about to leave its loop on `eof`, on the strength of a scan
that found no line end, though one stands before the last unread byte. -/
def StaleExit : Gets → Upload → Prop
  | .eofGet, u => u.eof = true ∧ EOL ∈ u.bodyBuf.unread.dropLast
  | _, _ => False

instance : ∀ k u, Decidable (StaleExit k u)
  | .eofGet, _ => inferInstanceAs (Decidable (_ ∧ _))
  | .isEOF _, _ => inferInstanceAs (Decidable False)
  | .indexOf, _ => inferInstanceAs (Decidable False)
  | .readAll _, _ => inferInstanceAs (Decidable False)
  | .readLine _, _ => inferInstanceAs (Decidable False)

/-- The line at a position is the slice up to its end. -/
theorem slice_lineEnd (body : Bytes) (p : ℕ) :
    slice body p (lineEnd body p) = line EOL (body.drop p) := by
  rw [slice_eq_take_drop, lineEnd, Nat.add_sub_cancel_left, take_length_line]

/-- The rest of the body is one line unless a line end stands before its
last byte. -/
theorem lineEnd_eq_length_iff (hp : p ≤ body.length) :
    lineEnd body p = body.length ↔ EOL ∉ (body.drop p).dropLast := by
  rw [← line_eq_self_iff]
  constructor
  · intro h
    have hs := slice_lineEnd body p
    rw [h, slice_of_length_le le_rfl] at hs
    exact hs.symm
  · intro h
    rw [lineEnd, h, List.length_drop]
    omega

/-- **Without a stale exit, the line.** -/
theorem gets_of_not_staleExit (hd : Declares io body) (hat : At body p u) {ms r u'}
    (hrun : (gets io).play arrive ms (.goto Gets.entry, u) = some (.done r, u'))
    (hg : ∀ v ∈ (gets io).taken arrive ms (.goto Gets.entry, u), ¬ StaleExit v.1 v.2) :
    r = .ok (lineAt body p) := by
  have hpost : GetsPost body p (· = lineEnd body p) r u' := by
    refine (getsOutline hd p (fun k u => ¬ StaleExit k u) (fun q => q = lineEnd body p)
      (fun _ => rfl) ?_).play
      (c := (.goto Gets.entry, u)) hat hrun hg
    intro v hv he hp hstale
    refine ((lineEnd_eq_length_iff hp.le).mpr fun hmem => hstale ⟨he, ?_⟩).symm
    rwa [hv.unread_of_eof he]
  rcases hpost with ⟨rfl, hp, -⟩ | ⟨q, hq, rfl, rfl, hat'⟩
  · rw [lineAt, if_neg (by omega)]
  · have := hat'.le_length
    rw [lineAt, if_pos (by omega), slice_lineEnd]

/-- The steps of `gets` after it left its loop on `eof`. -/
def afterExitOutline (hd : Declares io body) (p : ℕ) :
    Outline (gets io) arrive fun _ _ => True where
  holds
    | .readAll a, u => (readAllOutline hd [] p).holds a u
    | _, _ => False
  post r _ := r = .ok (orNil (body.drop p))
  holds_env {k u a u'} h ha := by
    cases k with
    | readAll a => exact (readAllOutline hd [] p).holds_env h ha
    | _ => exact h.elim
  post_env h _ := h
  step {k u} h _ := by
    cases k with
    | readAll a =>
      exact (readAllOutline hd [] p).call h trivial (fun _ _ h' => h') fun _ _ h' => h'.2
    | _ => exact h.elim

/-- **With one, everything that is left.** -/
theorem gets_of_staleExit (hd : Declares io body) {ms r u'} {c : Next Gets Result × Upload}
    (hat : At body p u) (hmem : (.eofGet, u) ∈ (gets io).taken arrive ms c)
    (he : u.eof = true) (hrun : (gets io).play arrive ms c = some (.done r, u')) :
    r = .ok (orNil (body.drop p)) := by
  obtain ⟨ms', hrun'⟩ := Thread.exists_play_of_mem_taken hrun hmem
  have hstep : (gets io).step .eofGet u = (.goto (.readAll .waitEof), u) := by
    simp only [gets, if_pos he]
  rw [hstep] at hrun'
  exact (afterExitOutline hd p).play (c := (.goto (.readAll .waitEof), u)) hat hrun'
    fun _ _ => trivial

/-- **With one, not the line**: a line end stands before the last of the
bytes that are handed out. -/
theorem not_staleExit_of_lineAt (hd : Declares io body) (hat : At body p u) {ms u'}
    (hrun : (gets io).play arrive ms (.goto Gets.entry, u) =
      some (.done (.ok (lineAt body p)), u')) :
    ∀ v ∈ (gets io).taken arrive ms (.goto Gets.entry, u), ¬ StaleExit v.1 v.2 := by
  rintro ⟨k, v⟩ hmem hstale
  cases k with
  | eofGet =>
    obtain ⟨he, hmem'⟩ := hstale
    have hv : At body p v :=
      ((getsAnyOutline hd p).holds_of_mem_taken (c := (.goto Gets.entry, u)) hat
        (fun _ _ => trivial) hmem).1
    have hrest := gets_of_staleExit hd hv hmem he hrun
    rw [hv.unread_of_eof he] at hmem'
    have hp : p < body.length := by
      by_contra hc
      simp [List.drop_of_length_le (not_lt.mp hc)] at hmem'
    have hne : body.drop p ≠ [] := by
      rw [ne_eq, List.drop_eq_nil_iff]; omega
    rw [lineAt, if_pos hp, orNil_of_ne_nil hne, Except.ok.injEq, Option.some.injEq,
      line_eq_self_iff] at hrest
    exact hrest hmem'
  | _ => exact hstale

/-- **What `gets` returns does not depend on the arrivals exactly when it
takes no stale exit.** Once the end was signalled its own steps bring it
to a result, and a result is the line at the position unless such an exit
handed out the rest of the body, which is more. -/
theorem gets_eq_lineAt_iff {hdr : Option JString} (hio : Serves hdr body io) (hat : At body p u) :
    (∀ ms c, (gets io).play arrive ms (.goto Gets.entry, u) = some c → c.2.eof = true →
      ∃ n r u', (gets io).play arrive (ms ++ List.replicate n .own) (.goto Gets.entry, u) =
        some (.done r, u')) ∧
    ∀ ms r u', (gets io).play arrive ms (.goto Gets.entry, u) = some (.done r, u') →
      (r = .ok (lineAt body p) ↔
        ∀ v ∈ (gets io).taken arrive ms (.goto Gets.entry, u), ¬ StaleExit v.1 v.2) := by
  refine ⟨fun ms c hrun he => ?_, fun ms r u' hrun => ⟨?_, ?_⟩⟩
  · obtain ⟨n, r, u', hplay⟩ := gets_plays_to_end he
    exact ⟨n, r, u', by rw [Thread.play_append, hrun]; exact hplay⟩
  · rintro rfl
    exact not_staleExit_of_lineAt hio.declares hat hrun
  · exact gets_of_not_staleExit hio.declares hat hrun

/-- Three of the chunks' bytes arrive, and the end, between the scan for a
line end and the look at `eof`. -/
def lateArrival : List (Move Arrival) :=
  [.env .data, .own, .own, .own, .env .data, .env .finish, .own, .own, .own, .own]

/-- `"A\nB"`, in the chunks `"A"` and `"\nB"`: `gets` returns both lines. -/
theorem gets_returns_two_lines :
    Serves none [65, 10, 66] ⟨0, true⟩ ∧ At [65, 10, 66] 0 (.start [[65], [10, 66]]) ∧
      ((gets ⟨0, true⟩).play arrive lateArrival
        (.goto Gets.entry, .start [[65], [10, 66]])).map Prod.fst =
          some (.done (.ok (some [65, 10, 66]))) ∧
      lineAt [65, 10, 66] 0 = some [65, 10] := by
  exact ⟨.absent _, .start [[65], [10, 66]], by decide, by decide⟩

/-- The arrivals of `lateArrival`, all made before the call. -/
def earlyArrival : List (Move Arrival) :=
  [.env .data, .env .data, .env .finish, .own, .own, .own, .own]

/-- On these `gets` returns the first line, and takes no stale exit. -/
theorem gets_eq_lineAt_iff_early :
    (Except.ok (some [65, 10]) : Result) = .ok (lineAt [65, 10, 66] 0) ↔
      ∀ v ∈ (gets ⟨0, true⟩).taken arrive earlyArrival
        (.goto Gets.entry, .start [[65], [10, 66]]), ¬ StaleExit v.1 v.2 := by
  have hrun : (gets ⟨0, true⟩).play arrive earlyArrival
      (.goto Gets.entry, .start [[65], [10, 66]]) =
        some (.done (.ok (some [65, 10])), ⟨⟨[65, 10, 66], 2, by decide⟩, true, []⟩) := by decide
  exact (gets_eq_lineAt_iff (Serves.absent _) (At.start [[65], [10, 66]])).2 _ _ _ hrun

end RackInput

end Jubilee
