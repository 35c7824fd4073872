import Jubilee.RackInput.Ends
/-!
# Rack input — a declared length that is not the body's

A request that carries both `Transfer-Encoding: chunked` and
`Content-Length` is delivered with its chunked body, while the input
takes its length from the header. `isEOF` looks at the buffer, and
`readableBytes` is capped by the declared length: where bytes are left
past that length, `read` asks for none of them for ever, or for a
negative number. `read_returns_iff` says exactly where.
-/

namespace Jubilee

namespace RackInput

/-- `read` comes to an end, and asks on the way for no negative number of
bytes. -/
def ReadReturns (io : RubyIORackInput) (args : ReadArgs) (u : Upload) : Prop :=
  ∃ ms r u', (read io args).play arrive ms (.goto Read.entry, u) = some (.done r, u') ∧
    ∀ v ∈ (read io args).taken arrive ms (.goto Read.entry, u), ¬ NegativeRead v.1

variable {n t : ℕ} {u : Upload}

/-! ## Where the declared length is in the way -/

/-- Bytes are left, past the declared length too, and more is asked for
than lies before it. -/
structure Short (n t : ℕ) (u : Upload) : Prop where
  eof : u.eof = true
  asked : 0 < t
  left : u.bodyBuf.readerIndex < u.bodyBuf.bytes.length
  declared : n < u.bodyBuf.bytes.length
  past : n < u.bodyBuf.readerIndex + t

theorem Short.readable (h : Short n t u) : u.bodyBuf.readableBytes ≠ 0 := by
  have := h.left
  rw [Ne, ByteBuf.readableBytes_eq_zero_iff]
  omega

/-- The points of `isEOF` that are reached where something is readable. -/
def IsEOF.Readable (e : IsEOF) : Prop := e = .loopReadable ∨ e = .returnReadable

/-- What holds of a `read` that cannot end. -/
def shortHolds (n k : ℕ) : Read → Upload → Prop
  | .isEOF e, u => Short n k u ∧ e.Readable
  | .readAll _, _ => False
  | .loopEOF e l, u => Short n l.toRead u ∧ e.Readable
  | .loopReadable l, u => Short n l.toRead u
  | .loopReadBytes len l, u =>
    Short n l.toRead u ∧ len = min (l.toRead : ℤ) (readableBytes ⟨n, false⟩ u)

/-- A turn that asks for no negative number of bytes moves the reader to
the declared length, and what is left stays out of reach. -/
theorem Short.turn (h : Short n t u) (hg : ¬ min (t : ℤ) (readableBytes ⟨n, false⟩ u) < 0) :
    ∃ data buf, u.bodyBuf.readBytes (min (t : ℤ) (readableBytes ⟨n, false⟩ u)) = .ok (data, buf) ∧
      Short n (t - data.length) { u with bodyBuf := buf } := by
  obtain ⟨he, ht, hleft, hdecl, hpast⟩ := h
  have hadd := u.bodyBuf.readerIndex_add_readableBytes
  have hmin : min (t : ℤ) (readableBytes ⟨n, false⟩ u) = (n : ℤ) - u.bodyBuf.readerIndex := by
    simp only [readableBytes, Bool.false_eq_true, if_false]
    omega
  have hcast : (n : ℤ) - u.bodyBuf.readerIndex = (n - u.bodyBuf.readerIndex : ℕ) := by omega
  obtain ⟨data, buf, hread, hlen, hbytes, hindex⟩ :=
    ByteBuf.exists_readBytes_length (b := u.bodyBuf) (n := n - u.bodyBuf.readerIndex) (by omega)
  refine ⟨data, buf, by rw [hmin, hcast]; exact hread, ⟨he, ?_, ?_, ?_, ?_⟩⟩
  · rw [hlen]; omega
  · simp only [hbytes, hindex]; omega
  · simp only [hbytes]; exact hdecl
  · simp only [hlen, hindex]; omega

/-- The end was signalled, so nothing arrives. -/
theorem eof_of_shortHolds {k : ℕ} {p : Read} (h : shortHolds n k p u) : u.eof = true := by
  cases p with
  | isEOF e | loopEOF e l | loopReadBytes len l => exact h.1.eof
  | loopReadable l => exact h.eof
  | readAll a => exact h.elim

/-- One step of such a `read` leads to another. -/
theorem short_meets {k : ℕ} (hk : (k : ℤ) ≤ maxInt) {p : Read} (h : shortHolds n k p u)
    (hg : ¬ NegativeRead p) :
    Meets (shortHolds n k) (fun _ _ => False) ((read ⟨n, false⟩ (.length (.int k))).step p u) := by
  cases p with
  | isEOF e =>
    obtain ⟨hs, rfl | rfl⟩ := h
    · simp only [read, Thread.call, isEOF, if_neg hs.readable]
      exact ⟨hs, Or.inr rfl⟩
    · have hk0 := hs.asked
      simp only [read, Thread.call, isEOF, if_neg hs.readable, Bool.false_eq_true, if_false,
        Read.start, num2int_int hk, Read.allocate]
      rw [if_neg (by omega), ReadLoop.test, Int.toNat_natCast, if_pos hk0]
      exact ⟨hs, Or.inl rfl⟩
  | readAll a => exact h.elim
  | loopEOF e l =>
    -- the buffer has bytes, so this is not the end, however few may be read
    obtain ⟨hs, rfl | rfl⟩ := h
    · simp only [read, Thread.call, isEOF, if_neg hs.readable]
      exact ⟨hs, Or.inr rfl⟩
    · simp only [read, Thread.call, isEOF, if_neg hs.readable, Bool.false_eq_true, if_false]
      exact hs
  | loopReadable l => exact ⟨h, rfl⟩
  | loopReadBytes len l =>
    obtain ⟨hs, rfl⟩ := h
    obtain ⟨data, buf, hread, hturn⟩ := hs.turn hg
    rw [loopReadBytes_of_ok hread, ReadLoop.test, if_pos hturn.asked]
    exact ⟨hturn, Or.inl rfl⟩

/-- **`read` cannot end** where bytes are left past the declared length
and more is asked for than lies before it, unless it asks for a negative
number of bytes. -/
def shortOutline (n k : ℕ) (hk : (k : ℤ) ≤ maxInt) :
    Outline (read ⟨n, false⟩ (.length (.int k))) arrive fun k _ => ¬ NegativeRead k where
  holds := shortHolds n k
  post _ _ := False
  holds_env h ha := by
    rw [arrive_of_eof (eof_of_shortHolds h)] at ha
    cases ha
  post_env h _ := h
  step h hg := short_meets hk h hg

/-! ## The whole call -/

/-- **Exactly when `read` returns**, once the end was signalled: the
length is no `int`, nothing is asked for, nothing is left, or what is
asked for does not reach past the declared length into the body. -/
theorem read_returns_iff (n k : ℕ) (he : u.eof = true) :
    ReadReturns ⟨n, false⟩ (.length (.int k)) u ↔
      maxInt < (k : ℤ) ∨ k = 0 ∨ u.bodyBuf.readerIndex = u.bodyBuf.bytes.length ∨
        u.bodyBuf.bytes.length ≤ n ∨ u.bodyBuf.readerIndex + k ≤ n := by
  constructor
  · rintro ⟨ms, r, u', hplay, hguard⟩
    by_contra hcon
    simp only [not_or, not_le] at hcon
    obtain ⟨hk, hk0, hleft, hdecl, hpast⟩ := hcon
    have hs : Short n k u :=
      ⟨he, Nat.pos_of_ne_zero hk0, lt_of_le_of_ne u.bodyBuf.readerIndex_le hleft, hdecl, hpast⟩
    exact (shortOutline n k (by omega)).play (c := (.goto Read.entry, u)) ⟨hs, Or.inl rfl⟩
      hplay hguard
  · intro h
    suffices hends : (read ⟨n, false⟩ (.length (.int k))).Ends (fun k _ => ¬ NegativeRead k) AtEof
        (.goto Read.entry, u) by
      obtain ⟨m, r, u', hplay, -, hguard⟩ := hends.exists_play arrive
      exact ⟨List.replicate m .own, r, u', hplay, hguard⟩
    refine Thread.Ends.call Read.isEOF (fun _ _ => rfl) (fun _ _ _ => id) ?_
      (isEOF_ends he .loopReadable)
    rintro eof u' ⟨hfalse, rfl⟩
    cases eof with
    | true => exact .done he
    | false =>
      have hpos := hfalse rfl
      have hadd := u'.bodyBuf.readerIndex_add_readableBytes
      simp only [Bool.false_eq_true, if_false, Read.start, Read.allocate]
      by_cases hk : (k : ℤ) ≤ maxInt
      · rw [num2int_int hk]
        simp only [if_neg (show ¬ (k : ℤ) < 0 by omega), Int.toNat_natCast]
        by_cases hk0 : k = 0
        · subst hk0
          exact .done he
        · refine loop_ends he _ ?_
          simp only [Within, Bool.false_eq_true, false_or]
          omega
      · rw [num2int_int_of_gt (by omega)]
        exact .done he

/-- `hello`, in one chunk, and its end. -/
def hello : Upload := ⟨⟨[104, 101, 108, 108, 111], 0, Nat.zero_le 5⟩, true, []⟩

/-- With a declared length of three, three bytes of `hello` can be read
and it all returns. -/
theorem read_three_of_hello : ReadReturns ⟨(3 : ℕ), false⟩ (.length (.int (3 : ℕ))) hello :=
  (read_returns_iff 3 3 rfl).mpr (by decide)

/-- Five cannot: after three the loop asks for no bytes, again and again. -/
theorem read_five_of_hello :
    RubyIORackInput.new (some "3".toList) = .ok ⟨3, false⟩ ∧
    (arrive .data (.start [[104, 101, 108, 108, 111]])).bind (arrive .finish) = some hello ∧
    ¬ ReadReturns ⟨3, false⟩ (.length (.int 5)) hello := by
  refine ⟨rfl, rfl, ?_⟩
  rintro ⟨ms, r, u', hplay, hguard⟩
  exact (shortOutline 3 5 (by decide)).play (c := (.goto Read.entry, hello))
    ⟨⟨rfl, by decide, by decide, by decide, by decide⟩, Or.inl rfl⟩ hplay hguard

end RackInput

end Jubilee
