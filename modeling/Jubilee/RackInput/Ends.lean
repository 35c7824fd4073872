import Jubilee.RackInput.Outline
/-!
# Rack input — the calls come to an end

Once the end of the body was signalled nothing arrives any more, and a
call goes on by its own steps. `isEOF`, `readAll` and `gets` end from
wherever they are. `read` ends where what it still asks for does not
reach past the declared length into the body (`Within`): each turn of its
loop leaves less to be read, or reaches the end of the buffer.
-/

namespace Jubilee

namespace RackInput

variable {io : RubyIORackInput} {args : ReadArgs} {t : ℕ} {u : Upload}

/-- Nothing is asked of the steps. -/
def Free {κ : Type} (_ : κ) (_ : Upload) : Prop := True

/-- The end was signalled. -/
def AtEof {α : Type} (_ : α) (u : Upload) : Prop := u.eof = true

/-! ## What a step leaves alone -/

/-- Nothing arrived, and nothing is lost: only the reader may have moved. -/
structure SameBody (u u' : Upload) : Prop where
  bytes : u'.bodyBuf.bytes = u.bodyBuf.bytes
  eof : u'.eof = u.eof
  pending : u'.pending = u.pending

theorem SameBody.refl (u : Upload) : SameBody u u := ⟨rfl, rfl, rfl⟩

theorem sameBody_of_readBytes {n : ℤ} {data : Bytes} {buf : ByteBuf}
    (h : u.bodyBuf.readBytes n = .ok (data, buf)) : SameBody u { u with bodyBuf := buf } :=
  ⟨ByteBuf.bytes_of_readBytes h, rfl, rfl⟩

theorem sameBody_isEOF (e : IsEOF) (u : Upload) : SameBody u (isEOF.step e u).2 := by
  cases e with
  | loopReadable | loopEof | returnReadable | returnEof => exact .refl u

theorem sameBody_readAll (io : RubyIORackInput) (dst : Bytes) (k : ReadAll) (u : Upload) :
    SameBody u ((readAll io dst).step k u).2 := by
  cases k with
  | waitEof | readable => exact .refl u
  | readBytes length =>
    simp only [readAll]
    cases hread : u.bodyBuf.readBytes length with
    | error f => exact .refl u
    | ok r => exact sameBody_of_readBytes hread

/-- A call leaves alone what its callee does. -/
theorem sameBody_call {κ κ' α β : Type} {T : Thread Upload κ α} {into : κ → κ'}
    {ret : α → Next κ' β} {k : κ} (h : SameBody u (T.step k u).2) :
    SameBody u (T.call into ret k u).2 := by
  unfold Thread.call
  generalize T.step k u = next at h
  obtain ⟨k' | a, u'⟩ := next <;> exact h

theorem sameBody_gets (io : RubyIORackInput) (k : Gets) (u : Upload) :
    SameBody u ((gets io).step k u).2 := by
  cases k with
  | isEOF e => exact sameBody_call (sameBody_isEOF e u)
  | indexOf | eofGet => exact .refl u
  | readAll a => exact sameBody_call (sameBody_readAll io [] a u)
  | readLine lineEnd =>
    simp only [gets]
    cases hread : u.bodyBuf.readBytes (lineEnd - u.bodyBuf.readerIndex + 1) with
    | error f => exact .refl u
    | ok r => exact sameBody_of_readBytes hread

theorem sameBody_read (io : RubyIORackInput) (args : ReadArgs) (k : Read) (u : Upload) :
    SameBody u ((read io args).step k u).2 := by
  cases k with
  | isEOF e => exact sameBody_call (sameBody_isEOF e u)
  | readAll a => exact sameBody_call (sameBody_readAll io [] a u)
  | loopEOF e l => exact sameBody_call (sameBody_isEOF e u)
  | loopReadable l => exact .refl u
  | loopReadBytes len l =>
    simp only [read]
    cases hread : u.bodyBuf.readBytes len with
    | error f => exact .refl u
    | ok r => exact sameBody_of_readBytes hread

/-! ## `isEOF`, `readAll` and `gets` -/

/-- `isEOF` says no only where something is readable, and leaves everything
as it is. -/
def Answers (u : Upload) (eof : Bool) (u' : Upload) : Prop :=
  (eof = false → 0 < u.bodyBuf.readableBytes) ∧ u' = u

theorem isEOF_ends (he : u.eof = true) (k : IsEOF) : isEOF.Ends Free (Answers u) (.goto k, u) := by
  have hreturnEof : isEOF.Ends Free (Answers u) (.goto .returnEof, u) := by
    refine .step trivial (.done ⟨fun hf => ?_, rfl⟩)
    rw [he] at hf
    cases hf
  have hreturn : isEOF.Ends Free (Answers u) (.goto .returnReadable, u) := by
    refine .step trivial ?_
    by_cases h0 : u.bodyBuf.readableBytes = 0
    · simp only [isEOF, if_pos h0]
      exact hreturnEof
    · simp only [isEOF, if_neg h0]
      exact .done ⟨fun _ => Nat.pos_of_ne_zero h0, rfl⟩
  have hloopEof : isEOF.Ends Free (Answers u) (.goto .loopEof, u) := by
    refine .step trivial ?_
    simp only [isEOF, if_pos he]
    exact hreturn
  cases k with
  | loopReadable =>
    refine .step trivial ?_
    by_cases h0 : u.bodyBuf.readableBytes = 0
    · simp only [isEOF, if_pos h0]
      exact hloopEof
    · simp only [isEOF, if_neg h0]
      exact hreturn
  | loopEof => exact hloopEof
  | returnReadable => exact hreturn
  | returnEof => exact hreturnEof

theorem readAll_ends (he : u.eof = true) (dst : Bytes) (k : ReadAll) :
    (readAll io dst).Ends Free AtEof (.goto k, u) := by
  have hread : ∀ length, (readAll io dst).Ends Free AtEof (.goto (.readBytes length), u) := by
    intro length
    refine .step trivial ?_
    simp only [readAll]
    cases u.bodyBuf.readBytes length with
    | error f => exact .done he
    | ok r => exact .done he
  have hreadable : (readAll io dst).Ends Free AtEof (.goto .readable, u) := by
    refine .step trivial ?_
    simp only [readAll]
    generalize (if io.chunked then (u.bodyBuf.readableBytes : ℤ)
      else min io.len u.bodyBuf.readableBytes) = length
    by_cases hneg : length < 0
    · rw [if_pos hneg]
      exact .done he
    · rw [if_neg hneg]
      exact hread length
  cases k with
  | waitEof =>
    refine .step trivial ?_
    simp only [readAll, if_pos he]
    exact hreadable
  | readable => exact hreadable
  | readBytes length => exact hread length

/-- **`gets` comes to an end.** -/
theorem gets_ends (he : u.eof = true) (k : Gets) :
    (gets io).Ends Free AtEof (.goto k, u) := by
  have hreadAll : ∀ a, (gets io).Ends Free AtEof (.goto (.readAll a), u) := fun a =>
    Thread.Ends.call Gets.readAll (fun _ _ => rfl) (fun _ _ => id) (fun _ _ he' => .done he')
      (readAll_ends he [] a)
  have hreadLine : ∀ lineEnd, (gets io).Ends Free AtEof (.goto (.readLine lineEnd), u) := by
    intro lineEnd
    refine .step trivial ?_
    simp only [gets]
    cases u.bodyBuf.readBytes (lineEnd - u.bodyBuf.readerIndex + 1) with
    | error f => exact .done he
    | ok r => exact .done he
  have heof : (gets io).Ends Free AtEof (.goto .eofGet, u) := by
    refine .step trivial ?_
    simp only [gets, if_pos he]
    exact hreadAll .waitEof
  have hindexOf : (gets io).Ends Free AtEof (.goto .indexOf, u) := by
    refine .step trivial ?_
    simp only [gets]
    split
    · exact heof
    · exact hreadLine _
  cases k with
  | isEOF e =>
    refine Thread.Ends.call Gets.isEOF (fun _ _ => rfl) (fun _ _ => id) ?_ (isEOF_ends he e)
    rintro eof u' ⟨-, rfl⟩
    cases eof with
    | true => exact .done he
    | false => exact hindexOf
  | indexOf => exact hindexOf
  | eofGet => exact heof
  | readAll a => exact hreadAll a
  | readLine lineEnd => exact hreadLine lineEnd

/-- From every configuration after the end, by steps of its own. -/
theorem gets_plays_to_end {c : Next Gets Result × Upload} (he : c.2.eof = true) :
    ∃ n r u', (gets io).play arrive (List.replicate n .own) c = some (.done r, u') := by
  obtain ⟨k | r, u⟩ := c
  · obtain ⟨n, r, u', hplay, -⟩ := (gets_ends he k).exists_play arrive
    exact ⟨n, r, u', hplay⟩
  · exact ⟨0, r, u, rfl⟩

/-! ## `read` -/

/-- `read` is about to ask the buffer for a negative number of bytes. -/
def NegativeRead : Read → Prop
  | .loopReadBytes len _ => len < 0
  | _ => False

/-- No length is declared, or the whole body lies before it, or what is
still to be read does. -/
def Within (io : RubyIORackInput) (t : ℕ) (u : Upload) : Prop :=
  io.chunked = true ∨ (u.bodyBuf.bytes.length : ℤ) ≤ io.len ∨
    (u.bodyBuf.readerIndex : ℤ) + t ≤ io.len

/-- The cap leaves what is asked for, as far as the buffer has it. -/
theorem Within.readableBytes_eq (h : Within io t u) :
    min (t : ℤ) (readableBytes io u) = (min t u.bodyBuf.readableBytes : ℕ) := by
  have hadd := u.bodyBuf.readerIndex_add_readableBytes
  unfold readableBytes
  by_cases hc : io.chunked = true
  · rw [if_pos hc]
    omega
  · rw [if_neg hc]
    rcases h with h | h | h
    · exact absurd h hc
    · omega
    · omega

/-- A turn keeps what is still to be read in reach. -/
theorem Within.turn {buf : ByteBuf} {m : ℕ} (h : Within io t u) (hm : m ≤ t)
    (hbytes : buf.bytes = u.bodyBuf.bytes) (hindex : buf.readerIndex = u.bodyBuf.readerIndex + m) :
    Within io (t - m) { u with bodyBuf := buf } := by
  rcases h with hc | hlen | hpast
  · exact Or.inl hc
  · exact Or.inr (Or.inl (by rw [hbytes]; exact hlen))
  · refine Or.inr (Or.inr ?_)
    rw [hindex]
    omega

/-- The loop asks for what is still to be read, as far as the cap goes. -/
theorem loopReadable_step (l : ReadLoop) :
    (read io args).step (.loopReadable l) u =
      (.goto (.loopReadBytes (min (l.toRead : ℤ) (readableBytes io u)) l), u) := rfl

/-- A turn of the loop that has its bytes. -/
theorem loopReadBytes_of_ok {len : ℤ} {l : ReadLoop} {data : Bytes} {buf : ByteBuf}
    (h : u.bodyBuf.readBytes len = .ok (data, buf)) :
    (read io args).step (.loopReadBytes len l) u =
      (ReadLoop.test ⟨l.toRead - data.length, l.buffer ++ data, l.dst⟩,
        { u with bodyBuf := buf }) := by
  simp only [read, h]

/-- The loop of `read` ends: each turn leaves less to be read, or reaches
the end of the buffer. -/
theorem loop_ends (he : u.eof = true) (l : ReadLoop) (h : Within io l.toRead u) :
    (read io args).Ends (fun k _ => ¬ NegativeRead k) AtEof (l.test, u) := by
  induction ht : l.toRead using Nat.strong_induction_on generalizing l u with
  | _ t ih =>
    subst ht
    by_cases h0 : 0 < l.toRead
    · rw [ReadLoop.test, if_pos h0]
      refine Thread.Ends.call (Read.loopEOF · l) (fun _ _ => rfl) (fun _ _ _ => id) ?_
        (isEOF_ends he .loopReadable)
      rintro eof u' ⟨hfalse, rfl⟩
      cases eof with
      | true => exact .done he
      | false =>
        have hpos := hfalse rfl
        obtain ⟨data, buf, hread, hlen, hbytes, hindex⟩ :=
          ByteBuf.exists_readBytes_length (min_le_right l.toRead u'.bodyBuf.readableBytes)
        have hreq : ¬ NegativeRead
            (.loopReadBytes (min l.toRead u'.bodyBuf.readableBytes : ℕ) l) := by
          simp only [NegativeRead]; omega
        refine .step id ?_
        rw [loopReadable_step, h.readableBytes_eq]
        refine .step hreq ?_
        rw [loopReadBytes_of_ok hread]
        refine ih _ ?_ (u := { u' with bodyBuf := buf }) he _ ?_ rfl
        · simp only [hlen]; omega
        · rw [hlen]
          exact h.turn (min_le_left _ _) hbytes hindex
    · rw [ReadLoop.test, if_neg h0]
      exact .done he

/-- **`read` comes to an end** where the whole body lies before the
declared length. -/
theorem read_ends (he : u.eof = true)
    (hw : io.chunked = true ∨ (u.bodyBuf.bytes.length : ℤ) ≤ io.len) (k : Read) :
    (read io args).Ends Free AtEof (.goto k, u) := by
  have htest : ∀ (l : ReadLoop) (u' : Upload), u'.eof = true → u'.bodyBuf.bytes = u.bodyBuf.bytes →
      (read io args).Ends Free AtEof (l.test, u') := by
    intro l u' he' hbytes
    have hwithin : Within io l.toRead u' := by
      unfold Within
      rw [hbytes]
      exact hw.imp_right Or.inl
    exact (loop_ends he' l hwithin).mono (fun _ _ _ => trivial) fun _ _ => id
  have hreadAll : ∀ a, (read io args).Ends Free AtEof (.goto (.readAll a), u) := fun a =>
    Thread.Ends.call Read.readAll (fun _ _ => rfl) (fun _ _ => id) (fun _ _ he' => .done he')
      (readAll_ends he [] a)
  have hallocate : ∀ dst n, (read io args).Ends Free AtEof (Read.allocate dst n, u) := by
    intro dst n
    cases n with
    | error e => exact .done he
    | ok n =>
      by_cases hn : n < 0
      · rw [Read.allocate, if_pos hn]
        exact .done he
      · rw [Read.allocate, if_neg hn]
        exact htest _ u he rfl
  have hstart : (read io args).Ends Free AtEof (Read.start args, u) := by
    cases args with
    | none => exact hreadAll .waitEof
    | length n => exact hallocate [] (num2int n)
    | buffer n dst => exact hallocate dst (num2int n)
  have hreadBytes : ∀ len l, (read io args).Ends Free AtEof (.goto (.loopReadBytes len l), u) := by
    intro len l
    refine .step trivial ?_
    cases hread : u.bodyBuf.readBytes len with
    | error f =>
      simp only [read, hread]
      exact .done he
    | ok r =>
      obtain ⟨data, buf⟩ := r
      rw [loopReadBytes_of_ok hread]
      exact htest _ _ he (ByteBuf.bytes_of_readBytes hread)
  have hreadable : ∀ l, (read io args).Ends Free AtEof (.goto (.loopReadable l), u) := fun l =>
    .step trivial (hreadBytes _ l)
  cases k with
  | isEOF e =>
    refine Thread.Ends.call Read.isEOF (fun _ _ => rfl) (fun _ _ => id) ?_ (isEOF_ends he e)
    rintro eof u' ⟨-, rfl⟩
    cases eof with
    | true => exact .done he
    | false => exact hstart
  | readAll a => exact hreadAll a
  | loopEOF e l =>
    refine Thread.Ends.call (Read.loopEOF · l) (fun _ _ => rfl) (fun _ _ => id) ?_
      (isEOF_ends he e)
    rintro eof u' ⟨-, rfl⟩
    cases eof with
    | true => exact .done he
    | false => exact hreadable l
  | loopReadable l => exact hreadable l
  | loopReadBytes len l => exact hreadBytes len l

end RackInput

end Jubilee
