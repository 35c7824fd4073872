import Jubilee.RackInput.Outline
/-!
# Rack input — the drain loop

The loop `while chunk = input.read(k)` stops on `nil`. Given a length,
`read` returns a string at the end of the body too, the empty one, so
the loop has no way to stop: `drain_never_stops`.
-/

namespace Jubilee

namespace RackInput

/-- The loop's control points: inside a `read`, with the chunks so far. -/
structure Drain where
  read : Read
  chunks : List Bytes
  deriving DecidableEq

/-- Where the loop starts. -/
def Drain.entry : Drain := ⟨Read.entry, []⟩

/-- The loop after a result of `read`: another turn on a string, stop on
`nil`. -/
def Drain.next (chunks : List Bytes) : Result → Next Drain (Except Raised (List Bytes))
  | .ok (some chunk) => .goto ⟨Read.entry, chunks ++ [chunk]⟩
  | .ok none => .done (.ok chunks)
  | .error e => .done (.error e)

/-- `while chunk = input.read(k)`. -/
def drain (io : RubyIORackInput) (k : ℕ) : Thread Upload Drain (Except Raised (List Bytes)) where
  step d u :=
    (read io (.length (.int k))).call (fun r => ⟨r, d.chunks⟩) (Drain.next d.chunks) d.read u

/-- On this interleaving the loop stops, and its chunks are `rest`. -/
def Drains (io : RubyIORackInput) (k : ℕ) (ms : List (Move Arrival)) (u : Upload)
    (rest : Bytes) : Prop :=
  ∃ chunks u', (drain io k).play arrive ms (.goto Drain.entry, u) = some (.done (.ok chunks), u') ∧
    chunks.flatten = rest

variable {io : RubyIORackInput}

/-- The control points of a `read` that was given a length. -/
def NotAll : Read → Prop
  | .readAll _ => False
  | _ => True

/-- What such a `read` returns is not `nil`. -/
def NotNil (r : Result) : Prop := r ≠ .ok none

theorem meets_test_notNil (l : ReadLoop) (u : Upload) :
    Meets (fun k _ => NotAll k) (fun r (_ : Upload) => NotNil r) (l.test, u) := by
  by_cases h : 0 < l.toRead
  · rw [ReadLoop.test, if_pos h]
    trivial
  · rw [ReadLoop.test, if_neg h]
    exact fun hc => by simp [ReadLoop.result] at hc

/-- Nor is what follows the first test. -/
theorem meets_allocate_notNil (n : IntArg) (u : Upload) :
    Meets (fun k _ => NotAll k) (fun r (_ : Upload) => NotNil r)
      (Read.allocate [] (num2int n), u) := by
  cases num2int n with
  | error e => exact fun hc => by simp at hc
  | ok n =>
    by_cases hn : n < 0
    · rw [Read.allocate, if_pos hn]
      exact fun hc => by simp at hc
    · rw [Read.allocate, if_neg hn]
      exact meets_test_notNil _ _

/-- One step of a `read` that was given a length. -/
theorem readLength_meets {n : IntArg} {k : Read} {u : Upload} (h : NotAll k) :
    Meets (fun k _ => NotAll k) (fun r (_ : Upload) => NotNil r)
      ((read io (.length n)).step k u) := by
  cases k with
  | isEOF e =>
    simp only [read, Thread.call]
    rcases isEOF.step e u with ⟨e' | eof, u'⟩
    · trivial
    · cases eof with
      | true =>
        -- at the end of the body: the empty string, whatever was asked for
        exact fun hc => by simp at hc
      | false => exact meets_allocate_notNil n u'
  | readAll a => exact h.elim
  | loopEOF e l =>
    simp only [read, Thread.call]
    rcases isEOF.step e u with ⟨e' | eof, u'⟩
    · trivial
    · cases eof with
      | true => exact fun hc => by simp [ReadLoop.result] at hc
      | false => trivial
  | loopReadable l => trivial
  | loopReadBytes len l =>
    simp only [read]
    split
    · exact fun hc => by simp at hc
    · exact meets_test_notNil _ _

/-- **Given a length, `read` never returns `nil`.** -/
def readLengthOutline (io : RubyIORackInput) (n : IntArg) :
    Outline (read io (.length n)) arrive fun _ _ => True where
  holds k _ := NotAll k
  post r _ := NotNil r
  holds_env h _ := h
  post_env h _ := h
  step h _ := readLength_meets h

/-- The loop is left by an exception, or not at all. -/
def drainOutline (io : RubyIORackInput) (k : ℕ) :
    Outline (drain io k) arrive fun _ _ => True where
  holds d _ := NotAll d.read
  post r _ := ∃ e, r = .error e
  holds_env h _ := h
  post_env h _ := h
  step {d u} h _ := by
    refine (readLengthOutline io (.int k)).call (s := u) h trivial (fun _ _ h' => h') ?_
    intro r u' hr
    cases r with
    | error e => exact ⟨e, rfl⟩
    | ok o =>
      cases o with
      | some chunk => trivial
      | none => exact absurd rfl hr

/-- **The drain loop never stops**: whatever the body, the length, the
arrivals and the position it starts at, no run of it comes to an end
with the chunks it has read. -/
theorem drain_never_stops (io : RubyIORackInput) (k : ℕ) (ms : List (Move Arrival)) (u : Upload)
    (rest : Bytes) : ¬ Drains io k ms u rest := by
  rintro ⟨chunks, u', hrun, -⟩
  obtain ⟨e, he⟩ := (drainOutline io k).play (c := (.goto Drain.entry, u)) trivial hrun
    fun _ _ => trivial
  cases he

/-- A body of one byte that has arrived, and its end. -/
def oneByte : Upload := ⟨⟨[97], 0, Nat.zero_le 1⟩, true, []⟩

/-- Draining one byte in chunks of one: the loop has the byte after one
turn, the empty string after the next, and stops on no interleaving. -/
theorem drain_one_byte :
    Serves none [97] ⟨0, true⟩ ∧ At [97] 0 oneByte ∧ oneByte.eof = true ∧
    (drain ⟨0, true⟩ 1).play arrive (List.replicate 10 .own) (.goto Drain.entry, oneByte) =
      some (.goto ⟨Read.entry, [[97], []]⟩, ⟨⟨[97], 1, Nat.le_refl 1⟩, true, []⟩) ∧
    ∀ ms, ¬ Drains ⟨0, true⟩ 1 ms oneByte [97] := by
  refine ⟨Serves.absent _, ⟨rfl, fun _ => rfl, rfl⟩, rfl, by decide, ?_⟩
  rintro ms ⟨chunks, u', hrun, -⟩
  obtain ⟨e, he⟩ := (drainOutline ⟨0, true⟩ 1).play (c := (.goto Drain.entry, oneByte)) trivial
    hrun fun _ _ => trivial
  cases he

end RackInput

end Jubilee
