import Jubilee.NetSocket.Ends
/-!
# Net socket — what `read` returns

`read` returns its array whole. It copies into it from the index that the
buffer's reader has reached, and not at all once the end was signalled:
the next bytes are what is returned from a fresh buffer only, into an
array of the right length. `read_next_iff` says so of every call that
finds bytes in the buffer, whatever happens meanwhile.
-/

namespace Jubilee

namespace NetSocket

variable {s₀ s s' : RubyNetSocket} {n d : ℕ} {dst : Option Bytes} {data : Bytes}

/-- The next bytes are returned, and the reader index is past them. -/
def ReadsNext (s : RubyNetSocket) (n : ℕ) (r : Result) (s' : RubyNetSocket) : Prop :=
  r = .ok (s.buf.unread.take n) ∧
    s'.buf.readerIndex = s.buf.readerIndex + min n s.buf.unread.length

/-- The end was signalled where the loop tests for it. -/
def SeesEnd (k : Read) (s : RubyNetSocket) : Prop := ∀ l, k = .loopEof l → s.eof = true

/-- In an interleaving of a `read`, its loop is entered: a test of it finds
that the end was not signalled. -/
def EntersLoop (ms : List (Move Event)) (c : Next Read Result × RubyNetSocket) : Prop :=
  ∃ l s, (Read.loopEof l, s) ∈ read.taken happen ms c ∧ s.eof = false

/-! ## While the call runs -/

/-- The reader is `d` bytes on, and bytes were appended at most. -/
structure Ahead (s₀ : RubyNetSocket) (d : ℕ) (s : RubyNetSocket) : Prop where
  bytes : s₀.buf.bytes <+: s.buf.bytes
  readerIndex : s.buf.readerIndex = s₀.buf.readerIndex + d
  readClosed : s.readClosed = s₀.readClosed
  eof : s₀.eof = true → s.eof = true

theorem Ahead.refl (s : RubyNetSocket) : Ahead s 0 s := ⟨List.prefix_refl _, rfl, rfl, id⟩

/-- Only `read` moves the reader. -/
theorem readerIndex_happen {e : Event} (he : happen e s = some s') :
    s'.buf.readerIndex = s.buf.readerIndex := by
  obtain ⟨_, -, -, -, -, rfl⟩ | ⟨_, -, -, rfl⟩ | ⟨_, -, -, rfl⟩ | ⟨-, -, -, rfl⟩ := happen_cases he
  · rfl
  · rfl
  · rfl
  · rfl

theorem Ahead.happen (h : Ahead s₀ d s) {e : Event} (he : happen e s = some s') :
    Ahead s₀ d s' := by
  obtain ⟨buffer, -, -, -, -, rfl⟩ | ⟨buffer, -, -, rfl⟩ | ⟨buffer, -, -, rfl⟩ | ⟨-, -, -, rfl⟩ :=
    happen_cases he
  · exact ⟨h.bytes, h.readerIndex, h.readClosed, h.eof⟩
  · exact ⟨h.bytes.trans (List.prefix_append _ _), h.readerIndex, h.readClosed, h.eof⟩
  · exact ⟨h.bytes, h.readerIndex, h.readClosed, h.eof⟩
  · exact ⟨h.bytes, h.readerIndex, h.readClosed, fun _ => rfl⟩

/-- What was unread when the call began is unread still, and first. -/
theorem Ahead.unread (h : Ahead s₀ 0 s) : s₀.buf.unread <+: s.buf.unread := by
  obtain ⟨more, hmore⟩ := h.bytes
  refine ⟨more, ?_⟩
  rw [ByteBuf.unread, ByteBuf.unread, h.readerIndex, Nat.add_zero, ← hmore,
    List.drop_append_of_le_length s₀.buf.readerIndex_le]

theorem Ahead.readable_le (h : Ahead s₀ 0 s) : s₀.buf.readableBytes ≤ s.buf.readableBytes := by
  rw [← ByteBuf.length_unread, ← ByteBuf.length_unread]
  exact h.unread.length_le

/-! ## Until the loop is entered -/

/-- The array and the length that `read` begins with. -/
def firstLoop (n : ℕ) (dst : Option Bytes) : ReadLoop := ⟨n, dst.getD (List.replicate n 0)⟩

/-- The arguments are refused, or the tests follow. -/
theorem start_nat (n : ℕ) (dst : Option Bytes) :
    Read.start (.int n) dst =
      if (n : ℤ) ≤ maxInt then .goto (.testEof (firstLoop n dst))
      else .done (.error .rangeError) := by
  have hallocate : allocate dst (n : ℤ) = .ok (firstLoop n dst) := by
    cases dst with
    | none =>
      rw [allocate, if_neg (by omega), Int.toNat_natCast]
      rfl
    | some dst => rfl
  unfold Read.start
  by_cases hn : (n : ℤ) ≤ maxInt
  · have hbind : (Except.ok (n : ℤ) >>= allocate dst : Except Raised ReadLoop) =
        .ok (firstLoop n dst) := hallocate
    rw [num2int_int hn, if_pos hn, hbind]
  · rw [num2int_int_of_gt (by omega), if_neg hn]
    rfl

/-- The points that lead to the loop. -/
inductive BeforeLoop (n : ℕ) (dst : Option Bytes) : Read → Prop
  | entry : BeforeLoop n dst (.entry (.int n) dst)
  | testEof : BeforeLoop n dst (.testEof (firstLoop n dst))
  | testReadable : BeforeLoop n dst (.testReadable (firstLoop n dst))
  | waitReadable : BeforeLoop n dst (.waitReadable (firstLoop n dst))
  | loopEof : BeforeLoop n dst (.loopEof (firstLoop n dst))

/-- **Where the loop is not entered** the reader stays where it is. -/
def beforeOutline (s₀ : RubyNetSocket) (n : ℕ) (dst : Option Bytes)
    (hclosed : s₀.readClosed = false) (hreadable : s₀.buf.readableBytes ≠ 0) :
    Outline read happen SeesEnd where
  holds k s := BeforeLoop n dst k ∧ Ahead s₀ 0 s
  post _ s := s.buf.readerIndex = s₀.buf.readerIndex
  holds_env h he := ⟨h.1, h.2.happen he⟩
  post_env h he := (readerIndex_happen he).trans h
  step := by
    rintro k s ⟨hk, hs⟩ hg
    have hreadable' : s.buf.readableBytes ≠ 0 := by
      have := hs.readable_le
      omega
    cases hk with
    | entry =>
      rw [step_entry (hs.readClosed.trans hclosed), start_nat]
      by_cases hn : (n : ℤ) ≤ maxInt
      · rw [if_pos hn]
        exact ⟨.testEof, hs⟩
      · rw [if_neg hn]
        exact hs.readerIndex
    | testEof =>
      cases heof : s.eof with
      | true =>
        rw [step_testEof_of_eof heof]
        exact ⟨.waitReadable, hs⟩
      | false =>
        rw [step_testEof heof]
        exact ⟨.testReadable, hs⟩
    | testReadable =>
      rw [step_testReadable hreadable']
      exact ⟨.waitReadable, hs⟩
    | waitReadable =>
      rw [step_waitReadable hreadable']
      exact ⟨.loopEof, hs⟩
    | loopEof =>
      rw [step_loopEof_of_left (Or.inl (hg _ rfl))]
      exact hs.readerIndex

/-! ## In the loop -/

/-- The array when the next `n` bytes were copied into it, at the place they
have in the buffer. -/
def copied (s : RubyNetSocket) (n : ℕ) (data : Bytes) : Bytes :=
  data.take s.buf.readerIndex ++ s.buf.unread.take n ++ data.drop (s.buf.readerIndex + n)

/-- The points from where the loop is entered, when it asks for no more
than is there. -/
inductive InLoop (s₀ : RubyNetSocket) (n : ℕ) (data : Bytes) : Read → ℕ → Prop
  | loopReadable : InLoop s₀ n data (.loopReadable ⟨n, data⟩) 0
  | loopReadBytes : InLoop s₀ n data (.loopReadBytes n ⟨n, data⟩) 0
  | loopEof : s₀.buf.readerIndex + n ≤ data.length →
    InLoop s₀ n data (.loopEof ⟨0, copied s₀ n data⟩) n

/-- What comes of it: the array, or an exception where it is too short. -/
def LoopPost (s₀ : RubyNetSocket) (n : ℕ) (data : Bytes) (r : Result) (s : RubyNetSocket) : Prop :=
  if s₀.buf.readerIndex + n ≤ data.length then
    r = .ok (copied s₀ n data) ∧ s.buf.readerIndex = s₀.buf.readerIndex + n
  else ∃ e, r = .error e

/-- One turn of the loop copies the bytes. -/
theorem met_loopReadBytes (hs : Ahead s₀ 0 s) (hle : n ≤ s₀.buf.unread.length) :
    Meets (fun k s => ∃ d, InLoop s₀ n data k d ∧ Ahead s₀ d s) (LoopPost s₀ n data)
      (read.step (.loopReadBytes n ⟨n, data⟩) s) := by
  have hindex : s.buf.readerIndex = s₀.buf.readerIndex := hs.readerIndex
  cases hread : s.buf.readBytesInto data s.buf.readerIndex n with
  | error f =>
    rw [step_loopReadBytes_of_error hread]
    -- the bytes are there, so it is the array that is too short
    have hshort : ¬ s₀.buf.readerIndex + n ≤ data.length := by
      intro hfits
      rw [ByteBuf.length_unread] at hle
      obtain ⟨r, hok⟩ := ByteBuf.exists_readBytesInto (b := s.buf)
        (le_trans hle hs.readable_le) (hindex ▸ hfits)
      rw [hread] at hok
      cases hok
    change LoopPost s₀ n data _ s
    rw [LoopPost, if_neg hshort]
    exact ⟨_, rfl⟩
  | ok r =>
    obtain ⟨data', buf⟩ := r
    rw [step_loopReadBytes hread]
    obtain ⟨-, hfits, hdata, hbytes, hbuf⟩ := ByteBuf.readBytesInto_eq_ok.mp hread
    have htake : s.buf.unread.take n = s₀.buf.unread.take n := by
      obtain ⟨more, hmore⟩ := hs.unread
      rw [← hmore, List.take_append_of_le_length hle]
    have hcopied : data' = copied s₀ n data := by rw [hdata, copied, hindex, htake]
    rw [hindex] at hfits hbuf
    change ∃ d, InLoop s₀ n data (.loopEof ⟨(n : ℤ) - n, data'⟩) d ∧
      Ahead s₀ d { s with buf := buf }
    rw [hcopied, Int.sub_self]
    exact ⟨n, .loopEof hfits, hbytes ▸ hs.bytes, hbuf, hs.readClosed, hs.eof⟩

/-- **Where the loop is entered** it copies the bytes that were asked for,
in one turn. -/
def loopOutline (s₀ : RubyNetSocket) (n : ℕ) (data : Bytes) (hle : n ≤ s₀.buf.unread.length) :
    Outline read happen fun _ _ => True where
  holds k s := ∃ d, InLoop s₀ n data k d ∧ Ahead s₀ d s
  post := LoopPost s₀ n data
  holds_env := by
    rintro k s e s' ⟨d, hk, hs⟩ he
    exact ⟨d, hk, hs.happen he⟩
  post_env := by
    intro r s e s' h he
    unfold LoopPost at h ⊢
    split
    · rw [if_pos ‹_›] at h
      exact ⟨h.1, (readerIndex_happen he).trans h.2⟩
    · rw [if_neg ‹_›] at h
      exact h
  step := by
    rintro k s ⟨d, hk, hs⟩ -
    cases hk with
    | loopReadable =>
      have hmin : min s.buf.readableBytes (n : ℤ).toNat = n := by
        have := hs.readable_le
        rw [ByteBuf.length_unread] at hle
        rw [Int.toNat_natCast]
        omega
      change ∃ d, InLoop s₀ n data (.loopReadBytes (min s.buf.readableBytes (n : ℤ).toNat) _) d ∧ _
      rw [hmin]
      exact ⟨0, .loopReadBytes, hs⟩
    | loopReadBytes => exact met_loopReadBytes hs hle
    | loopEof hfits =>
      rw [step_loopEof_of_left (Or.inr (Int.le_refl 0))]
      change LoopPost s₀ n data _ s
      rw [LoopPost, if_pos hfits]
      exact ⟨rfl, hs.readerIndex⟩

/-! ## The whole call -/

/-- The array is what was asked for, where it has that length and the reader
was at the start. -/
theorem copied_eq_iff (hle : n ≤ s.buf.unread.length)
    (hfits : s.buf.readerIndex + n ≤ data.length) :
    copied s n data = s.buf.unread.take n ↔ data.length = n := by
  constructor
  · intro h
    have hlength := congrArg List.length h
    simp only [copied, List.length_append, List.length_take, List.length_drop] at hlength
    omega
  · intro h
    obtain hindex : s.buf.readerIndex = 0 := by omega
    rw [copied, hindex, List.take_zero, List.nil_append, Nat.zero_add, ← h, List.drop_length,
      List.append_nil]

/-- **What the loop leaves is what was asked for** where nothing was read
before and the array has that length. -/
theorem readsNext_iff {r : Result} (hle : n ≤ s.buf.unread.length) (h : LoopPost s n data r s') :
    ReadsNext s n r s' ↔ s.buf.readerIndex = 0 ∧ data.length = n := by
  unfold LoopPost at h
  by_cases hfits : s.buf.readerIndex + n ≤ data.length
  · rw [if_pos hfits] at h
    obtain ⟨rfl, hindex⟩ := h
    have hnext : s'.buf.readerIndex = s.buf.readerIndex + min n s.buf.unread.length := by omega
    rw [ReadsNext, Except.ok.injEq, copied_eq_iff hle hfits]
    constructor
    · rintro ⟨hlength, -⟩
      exact ⟨by omega, hlength⟩
    · rintro ⟨-, hlength⟩
      exact ⟨hlength, hnext⟩
  · rw [if_neg hfits] at h
    obtain ⟨e, rfl⟩ := h
    refine iff_of_false (fun h => nomatch h.1) ?_
    rintro ⟨hindex, hlength⟩
    omega

/-- **A call alone comes to its end** where it finds bytes, as many as it
asks for or as are left. -/
theorem ends_entry (hclosed : s.readClosed = false) (hunread : s.buf.unread ≠ [])
    (hle : s.eof = false → n ≤ s.buf.unread.length) (dst : Option Bytes) :
    Ends (.entry (.int n) dst) s := by
  have hreadable : s.buf.readableBytes ≠ 0 := by
    rw [← ByteBuf.length_unread]
    exact fun h => hunread (List.length_eq_zero_iff.mp h)
  by_cases hn : (n : ℤ) ≤ maxInt
  · refine ends_of_goto ((step_entry hclosed).trans (by rw [start_nat, if_pos hn]))
      (ends_testEof hreadable ?_)
    cases heof : s.eof with
    | true => exact Or.inl rfl
    | false =>
      refine Or.inr ?_
      rw [← ByteBuf.length_unread]
      exact Int.ofNat_le.mpr (hle heof)
  · exact ends_of_done ((step_entry hclosed).trans (by rw [start_nat, if_neg hn]))

/-- **Exactly when the next bytes are returned.** A call that finds bytes
comes to its end, and in every interleaving that brings it there it
returns the next bytes if and only if its loop is entered, nothing was
read from the buffer before, and the array has the length asked for. -/
theorem read_next_iff (hclosed : s.readClosed = false) (hunread : s.buf.unread ≠ [])
    (hn : 0 < n) (hle : s.eof = false → n ≤ s.buf.unread.length) (dst : Option Bytes) :
    Ends (.entry (.int n) dst) s ∧
      ∀ ms r s', read.play happen ms (.goto (.entry (.int n) dst), s) = some (.done r, s') →
        (ReadsNext s n r s' ↔
          EntersLoop ms (.goto (.entry (.int n) dst), s) ∧ s.buf.readerIndex = 0 ∧
            ∀ d, dst = some d → d.length = n) := by
  refine ⟨ends_entry hclosed hunread hle dst, fun ms r s' hplay => ?_⟩
  have hpos : 0 < s.buf.unread.length := List.length_pos_iff.mpr hunread
  have hreadable : s.buf.readableBytes ≠ 0 := by
    rw [← ByteBuf.length_unread]
    omega
  obtain ⟨hsees, hindex⟩ | ⟨k, u, hmem, hsees, ⟨hk, hu⟩, ms', hrest⟩ :=
    (beforeOutline s n dst hclosed hreadable).first_unguarded
      (c := (.goto (.entry (.int n) dst), s)) ⟨.entry, .refl s⟩ hplay
  · -- the loop is not entered, and nothing is read
    refine iff_of_false ?_ ?_
    · rintro ⟨-, hnext⟩
      have hindex : s'.buf.readerIndex = s.buf.readerIndex := hindex
      omega
    · rintro ⟨⟨l, u, hmem, heof⟩, -⟩
      rw [hsees _ hmem l rfl] at heof
      cases heof
  · obtain ⟨l, rfl, heof⟩ : ∃ l, k = .loopEof l ∧ u.eof = false := by
      simpa [SeesEnd] using hsees
    obtain rfl : l = firstLoop n dst := by cases hk; rfl
    have hle' : n ≤ s.buf.unread.length := by
      refine hle (Bool.eq_false_iff.mpr fun h => ?_)
      rw [hu.eof h] at heof
      cases heof
    rw [step_loopEof heof (Int.natCast_pos.mpr hn)] at hrest
    have hpost : LoopPost s n (firstLoop n dst).data r s' :=
      (loopOutline s n (firstLoop n dst).data hle').play
        (c := (.goto (.loopReadable (firstLoop n dst)), u)) ⟨0, .loopReadable, hu⟩ hrest
        fun _ _ => trivial
    have hdata : (firstLoop n dst).data.length = n ↔ ∀ d, dst = some d → d.length = n := by
      cases dst with
      | none => simp [firstLoop]
      | some d => simp [firstLoop]
    rw [readsNext_iff hle' hpost, hdata]
    exact (and_iff_right ⟨_, u, hmem, heof⟩).symm

/-- A socket with two bytes in its buffer, of which `read` took the first
`index`. -/
def twoBytes (eof : Bool) (index : ℕ) (h : index ≤ 2) : RubyNetSocket :=
  ⟨⟨[65, 66], index, h⟩, eof, false, false, none⟩

/-- The first byte is returned. -/
theorem read_next_first :
    ReadsNext (twoBytes false 0 (by decide)) 1 (.ok [65]) (twoBytes false 1 (by decide)) :=
  ((read_next_iff (s := twoBytes false 0 (by decide)) rfl (by decide) (by decide)
      (fun _ => by decide) none).2 (List.replicate 8 .own) _ _ rfl).mpr
    ⟨⟨⟨1, [0]⟩, twoBytes false 0 (by decide), by decide, rfl⟩, rfl, fun _ h => nomatch h⟩

/-- What `m` steps of a call leave, with nothing between them. -/
def readAlone (m : ℕ) (s : RubyNetSocket) (n : ℕ) (dst : Option Bytes) :
    Option (Next Read Result × RubyNetSocket) :=
  read.play happen (List.replicate m .own) (.goto (.entry (.int n) dst), s)

/-- **The next bytes are not returned**: the second byte, after a read of
the first, is asked for in vain; after the end a zero is returned; and the
rest of a string of the caller's comes along. -/
theorem not_reads_next :
    readAlone 7 (twoBytes false 1 (by decide)) 1 none =
      some (.done (.error .indexOutOfBounds), twoBytes false 1 (by decide)) ∧
    readAlone 4 (twoBytes true 0 (by decide)) 1 none =
      some (.done (.ok [0]), twoBytes true 0 (by decide)) ∧
    readAlone 8 (twoBytes false 0 (by decide)) 1 (some [120, 121, 122]) =
      some (.done (.ok [65, 121, 122]), twoBytes false 1 (by decide)) ∧
    ¬ ReadsNext (twoBytes false 1 (by decide)) 1 (.error .indexOutOfBounds)
      (twoBytes false 1 (by decide)) ∧
    ¬ ReadsNext (twoBytes true 0 (by decide)) 1 (.ok [0]) (twoBytes true 0 (by decide)) ∧
    ¬ ReadsNext (twoBytes false 0 (by decide)) 1 (.ok [65, 121, 122])
      (twoBytes false 1 (by decide)) := by
  refine ⟨rfl, rfl, rfl, ?_, ?_, ?_⟩
  · rintro ⟨h, -⟩
    cases h
  · rintro ⟨-, h⟩
    exact absurd h (by decide)
  · rintro ⟨h, -⟩
    exact absurd h (by decide)

end NetSocket

end Jubilee
