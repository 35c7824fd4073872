import Jubilee.RackInput.Outline
/-!
# Rack input — `read`

The outline of `read` on a body whose declared length, if there is one,
is its own: at the end of the body it returns the empty string, and
elsewhere what its arguments ask for, as far as the body goes.
-/

namespace Jubilee

namespace RackInput

variable {io : RubyIORackInput} {body : Bytes} {p : ℕ} {u u' : Upload}

/-- The result of `read` at position `p` and the position after it, as
the body determines them. -/
def readAt (body : Bytes) (p : ℕ) (args : ReadArgs) : Result × ℕ :=
  if p = body.length then (.ok (some []), p)
  else
    match args with
    | .none => (.ok (some (body.drop p)), body.length)
    | .length n => upTo [] (num2int n)
    | .buffer n dst => upTo dst (num2int n)
where
  /-- At most `n` bytes, appended to `dst`. -/
  upTo (dst : Bytes) : Except Raised ℤ → Result × ℕ
    | .error e => (.error e, p)
    | .ok n =>
      if n < 0 then (.error .negativeArraySize, p)
      else
        (.ok (some (dst ++ slice body p (min (p + n.toNat) body.length))),
          min (p + n.toNat) body.length)

/-- At the end of the body there is nothing to look at the arguments
for. -/
theorem readAt_of_end {args : ReadArgs} (h : p = body.length) :
    readAt body p args = (.ok (some []), p) := if_pos h

/-- The loop of `read`, entered at `p` and with the reader now at `q`: the
array holds what lies between, and what is still to be read completes
what the arguments ask for. -/
structure Looping (body : Bytes) (p : ℕ) (args : ReadArgs) (q : ℕ) (l : ReadLoop) : Prop where
  le : p ≤ q
  buffer : l.buffer = slice body p q
  asks : readAt body p args =
    (.ok (some (l.dst ++ slice body p (min (q + l.toRead) body.length))),
      min (q + l.toRead) body.length)

namespace Looping

variable {args : ReadArgs} {q : ℕ} {l : ReadLoop}

/-- The loop is left with all that was asked for, or at the end of the
body. -/
theorem readAt_eq (h : Looping body p args q l) (hq : q ≤ body.length)
    (hend : l.toRead = 0 ∨ q = body.length) : readAt body p args = (l.result, q) := by
  have hmin : min (q + l.toRead) body.length = q := by omega
  rw [h.asks, hmin, ReadLoop.result, h.buffer]

/-- Another `m` bytes. -/
theorem advance (h : Looping body p args q l) {m : ℕ} (hm : m ≤ l.toRead) :
    Looping body p args (q + m)
      { l with toRead := l.toRead - m, buffer := l.buffer ++ slice body q (q + m) } := by
  have hto : q + m + (l.toRead - m) = q + l.toRead := by omega
  have := h.le
  refine ⟨by omega, ?_, ?_⟩
  · rw [h.buffer, slice_append_slice body h.le (by omega)]
  · simp only [hto]
    exact h.asks

end Looping

/-- What `read` asserts at its control points. -/
def readHolds (hd : Declares io body) (p : ℕ) (args : ReadArgs) : Read → Upload → Prop
  | .isEOF e, u => (isEOFOutline body p).holds e u
  | .readAll a, u => args = .none ∧ p < body.length ∧ (readAllOutline hd [] p).holds a u
  | .loopEOF e l, u => ∃ q, Looping body p args q l ∧ (isEOFOutline body q).holds e u
  | .loopReadable l, u => ∃ q, Looping body p args q l ∧ At body q u
  | .loopReadBytes len l, u => ∃ q, Looping body p args q l ∧ At body q u ∧
      ∃ m : ℕ, len = m ∧ m ≤ l.toRead ∧ m ≤ u.bodyBuf.readableBytes

/-- What `read` leaves: the result and the position that the body
determines. -/
def ReadPost (body : Bytes) (p : ℕ) (args : ReadArgs) (r : Result) (u : Upload) : Prop :=
  ∃ q, readAt body p args = (r, q) ∧ At body q u

/-- The loop's test: another turn, or what `read` leaves. -/
theorem meets_test {hd : Declares io body} {args : ReadArgs} {q : ℕ} {l : ReadLoop}
    (hl : Looping body p args q l) (hat : At body q u) :
    Meets (readHolds hd p args) (ReadPost body p args) (l.test, u) := by
  by_cases h0 : 0 < l.toRead
  · rw [ReadLoop.test, if_pos h0]
    exact ⟨q, hl, hat⟩
  · rw [ReadLoop.test, if_neg h0]
    exact ⟨q, hl.readAt_eq hat.le_length (Or.inl (by omega)), hat⟩

/-- The arguments, at a position before the end. -/
theorem meets_start {hd : Declares io body} {args : ReadArgs} (hat : At body p u)
    (hp : p < body.length) :
    Meets (readHolds hd p args) (ReadPost body p args) (Read.start args, u) := by
  have hupTo : ∀ dst n, (readAt body p args = readAt.upTo body p dst n) →
      Meets (readHolds hd p args) (ReadPost body p args) (Read.allocate dst n, u) := by
    intro dst n hread
    cases n with
    | error e => exact ⟨p, hread, hat⟩
    | ok n =>
      by_cases hn : n < 0
      · rw [Read.allocate, if_pos hn]
        rw [readAt.upTo, if_pos hn] at hread
        exact ⟨p, hread, hat⟩
      · rw [Read.allocate, if_neg hn]
        rw [readAt.upTo, if_neg hn] at hread
        exact meets_test ⟨le_rfl, (slice_self _ _).symm, hread⟩ hat
  cases args with
  | none => exact ⟨rfl, hp, hat⟩
  | length n => exact hupTo [] (num2int n) (by rw [readAt, if_neg hp.ne])
  | buffer n dst => exact hupTo dst (num2int n) (by rw [readAt, if_neg hp.ne])

/-- Wherever `read` is, the upload delivers the body. -/
theorem readHolds.exists_at {hd : Declares io body} {args : ReadArgs} {k : Read}
    (h : readHolds hd p args k u) : ∃ q, At body q u := by
  cases k with
  | isEOF e => exact ⟨p, isEOFHolds.at h⟩
  | readAll a => exact ⟨p, readAllHolds.at h.2.2⟩
  | loopEOF e l =>
    obtain ⟨q, -, h⟩ := h
    exact ⟨q, isEOFHolds.at h⟩
  | loopReadable l =>
    obtain ⟨q, -, hat⟩ := h
    exact ⟨q, hat⟩
  | loopReadBytes len l =>
    obtain ⟨q, -, hat, -⟩ := h
    exact ⟨q, hat⟩

theorem readHolds_arrive {hd : Declares io body} {args : ReadArgs} {k : Read} {a : Arrival}
    (h : readHolds hd p args k u) (ha : arrive a u = some u') : readHolds hd p args k u' := by
  cases k with
  | isEOF e => exact (isEOFOutline body p).holds_env h ha
  | readAll a => exact ⟨h.1, h.2.1, (readAllOutline hd [] p).holds_env h.2.2 ha⟩
  | loopEOF e l =>
    obtain ⟨q, hl, h⟩ := h
    exact ⟨q, hl, (isEOFOutline body q).holds_env h ha⟩
  | loopReadable l =>
    obtain ⟨q, hl, hat⟩ := h
    exact ⟨q, hl, hat.arrive ha⟩
  | loopReadBytes len l =>
    obtain ⟨q, hl, hat, m, hlen, hm, hmr⟩ := h
    exact ⟨q, hl, hat.arrive ha, m, hlen, hm, hmr.trans (readableBytes_le_of_arrive ha)⟩

theorem ReadPost.arrive {args : ReadArgs} {r : Result} {a : Arrival}
    (h : ReadPost body p args r u) (ha : arrive a u = some u') : ReadPost body p args r u' := by
  obtain ⟨q, hr, hat⟩ := h
  exact ⟨q, hr, hat.arrive ha⟩

/-- One step of `read`. -/
theorem read_meets {hd : Declares io body} {args : ReadArgs} {k : Read}
    (h : readHolds hd p args k u) :
    Meets (readHolds hd p args) (ReadPost body p args) ((read io args).step k u) := by
  cases k with
  | isEOF e =>
    refine (isEOFOutline body p).call h trivial (fun _ _ h' => h') ?_
    rintro eof u' ⟨hat, htrue, hfalse⟩
    cases eof with
    | true => exact ⟨p, readAt_of_end (htrue rfl).2, hat⟩
    | false =>
      have := hat.readable_le
      have := hfalse rfl
      exact meets_start hat (by omega)
  | readAll a =>
    obtain ⟨rfl, hp, h⟩ := h
    refine (readAllOutline hd [] p).call h trivial (fun _ _ h' => ⟨rfl, hp, h'⟩) ?_
    rintro r u' ⟨hat, rfl⟩
    have hne : body.drop p ≠ [] := by
      rw [ne_eq, List.drop_eq_nil_iff]; omega
    refine ⟨body.length, ?_, hat⟩
    rw [readAt, if_neg hp.ne, List.nil_append, orNil_of_ne_nil hne]
  | loopEOF e l =>
    obtain ⟨q, hl, h⟩ := h
    refine (isEOFOutline body q).call h trivial (fun _ _ h' => ⟨q, hl, h'⟩) ?_
    rintro eof u' ⟨hat, htrue, -⟩
    cases eof with
    | true => exact ⟨q, hl.readAt_eq hat.le_length (Or.inr (htrue rfl).2), hat⟩
    | false => exact ⟨q, hl, hat⟩
  | loopReadable l =>
    obtain ⟨q, hl, hat⟩ := h
    have hmin : min (l.toRead : ℤ) (readableBytes io u) =
        (min l.toRead u.bodyBuf.readableBytes : ℕ) := by
      rw [hat.readableBytes_eq hd]; omega
    exact ⟨q, hl, hat, _, hmin, min_le_left _ _, min_le_right _ _⟩
  | loopReadBytes len l =>
    -- as many bytes as were counted: what arrived meanwhile takes none away
    obtain ⟨q, hl, hat, m, rfl, hm, hmr⟩ := h
    obtain ⟨buf, hread, hat'⟩ := hat.readBytes hmr
    have hlen : (slice body q (q + m)).length = m := by
      rw [length_slice hat'.le_length, Nat.add_sub_cancel_left]
    simp only [read, hread, hlen]
    exact meets_test (hl.advance hm) hat'

/-- **`read` returns what the body determines**, and leaves the reader
where the body determines. -/
def readOutline (hd : Declares io body) (p : ℕ) (args : ReadArgs) :
    Outline (read io args) arrive fun _ _ => True where
  holds := readHolds hd p args
  post := ReadPost body p args
  holds_env := readHolds_arrive
  post_env := ReadPost.arrive
  step h _ := read_meets h

end RackInput

end Jubilee
