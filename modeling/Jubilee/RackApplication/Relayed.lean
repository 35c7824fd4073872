import Jubilee.RackApplication.Answered
import Jubilee.RackApplication.HeaderCase
import Jubilee.Response.Bytes
/-!
# Rack application — a body that is sent back

The input hands out its strings in `ASCII-8BIT`, and the response decodes
what it writes. An application that responds with the strings it read
sends the bytes it read, each taken for a character of ISO-8859-1 and
encoded in UTF-8 (`relayed_bytes`): the same for every chunking and every
interleaving, and for every way to read them, and unchanged exactly if
all are ASCII.
-/

namespace Jubilee

namespace RackInput

/-- The strings handed out since the last `rewind`, in order. -/
def strings : List Event → List Bytes
  | [] => []
  | e :: older => if e.call = .rewind then [] else strings older ++ [bytesOf e.result]

theorem flatten_strings (log : List Event) : (strings log).flatten = gathered log := by
  induction log with
  | nil => rfl
  | cons e older ih =>
    rw [strings, gathered]
    by_cases hc : e.call = .rewind
    · rw [if_pos hc, if_pos hc]
      rfl
    · rw [if_neg hc, if_neg hc, List.flatten_append, ih, List.flatten_singleton]

end RackInput

namespace RackApplication

open RackEnv (RackEnvironmentHash)
open Response (Body)

variable {O : Type*} [DecidableEq O] {io : RackInput.RubyIORackInput} {program : Program O}
  {body : Bytes} {r r' : Request O}

variable {hd : RackInput.Declares io body}

/-! ## What the application read -/

/-- The log of a request has the results of its input, which hands out the
body. -/
structure Reads (hd : RackInput.Declares io body) (r : Request O) : Prop where
  inv : RackInput.Inv hd r.input
  events : events r.log = r.input.log

/-- What the input adds to its log is noted. -/
theorem events_note {input : RackInput.Session} (hlog : r.input.log <:+ input.log)
    (h : events r.log = r.input.log) : events (r.note input).log = input.log := by
  obtain ⟨new, hnew⟩ := hlog
  have htake : input.log.take (input.log.length - r.input.log.length) = new := by
    rw [← hnew, List.length_append, Nat.add_sub_cancel, List.take_left]
  have hevents : events (new.map Entry.input : List (Entry O)) = new := by
    rw [events, List.filterMap_map]
    exact List.filterMap_some
  change RackApplication.events
    ((input.log.take (input.log.length - r.input.log.length)).map .input ++ r.log) = _
  rw [htake, events, List.filterMap_append, ← events, ← events, hevents, h, hnew]

theorem reads_start (chunks : List Bytes) (hd : RackInput.Declares io chunks.flatten)
    (env : RackEnvironmentHash O) : Reads hd (Request.start chunks env) :=
  ⟨RackInput.inv_start chunks hd, rfl⟩

theorem suffix_begin (s : RackInput.Session) (c : RackInput.Call) : s.log <:+ (s.begin c).log := by
  cases c with
  | gets | read n | readAll | each => exact List.suffix_refl _
  | rewind => exact List.suffix_cons _ _

/-- **One act.** -/
theorem reads_act (h : Reads hd r) {a : Request.Act} (ha : r.act io program a = some r') :
    Reads hd r' := by
  refine ⟨inv_act h.inv ha, ?_⟩
  cases a with
  | arrive b =>
    obtain ⟨input, hinput, rfl⟩ := Option.map_eq_some_iff.mp ha
    obtain ⟨u, -, rfl⟩ := Option.map_eq_some_iff.mp hinput
    exact events_note (List.suffix_refl _) h.events
  | step =>
    obtain ⟨input, hinput, rfl⟩ := Option.map_eq_some_iff.mp ha
    exact events_note (goes_advance hinput).log h.events
  | next =>
    rw [Request.act] at ha
    split at ha
    · obtain rfl := Option.some.inj ha
      exact events_note (suffix_begin _ _) h.events
    · obtain rfl := Option.some.inj ha
      exact h.events
    · cases ha
    · cases ha

theorem reads_run (h : Reads hd r) {acts : List Request.Act}
    (hrun : r.run io program acts = some r') : Reads hd r' :=
  Run.preserves (I := Reads hd) (fun _ _ _ h ha => reads_act h ha) h hrun

/-! ## What it sends -/

/-- A string of the input, as a part of a body. -/
def part (s : Bytes) : Option RubyString := some ⟨s, .ascii8bit⟩

/-- A result with these strings for its body. -/
def relay (isArray : Bool) (strings : List Bytes) : AppResult :=
  plain ⟨isArray, strings.map part, none⟩ none

/-- The head of the response to it. -/
def relayHead : Sent := { Sent.fresh with status := 200 }

/-- The response to it, when it is ended. -/
def relayed (sep : Response.LineSeparator) (decoders : Response.Decoders) (isArray : Bool)
    (strings : List Bytes) : Sent :=
  { Response.frame sep (relay isArray strings).response.contentLength relayHead with
    body := Response.written decoders false (strings.map part) }

/-- Bytes as characters of ISO-8859-1, in UTF-8. -/
def latin1 (bytes : Bytes) : Bytes := encodeUtf8 (bytes.map fun b => Char.ofNat b.toNat)

theorem latin1_append (bytes bytes' : Bytes) :
    latin1 (bytes ++ bytes') = latin1 bytes ++ latin1 bytes' := by
  rw [latin1, List.map_append, latin1, latin1]
  exact List.flatMap_append

/-- The parts are taken one by one, and the bytes together. -/
theorem flatMap_arrived (decoders : Response.Decoders) (strings : List Bytes) :
    (strings.map part).flatMap (Response.arrived decoders) = latin1 strings.flatten := by
  induction strings with
  | nil => rfl
  | cons s strings ih =>
    rw [List.map_cons, List.flatMap_cons, ih, List.flatten_cons, latin1_append]
    rfl

theorem latin1_eq_iff {bytes : Bytes} : latin1 bytes = bytes ↔ isAscii bytes = true := by
  rw [latin1, encode_map_eq_iff Response.encode_ofByte
    fun b hb => (Response.length_encode_ofByte b hb).ge]
  simp [isAscii]

/-- **The response to the strings**: nothing raises, and it is ended. -/
theorem responseTo_relay (sep : Response.LineSeparator) (decoders : Response.Decoders)
    (isArray : Bool) (strings : List Bytes) :
    responseTo sep decoders (relay isArray strings) =
      (.ok (), ⟨relayed sep decoders isArray strings, [.ended]⟩) := by
  have hbody : Response.writeBody (Response.recording sep decoders)
      (relay isArray strings).response relayHead =
        (.ok (), relayed sep decoders isArray strings) :=
    Response.writeBody_eq_ok.mpr ⟨rfl, rfl⟩
  -- no header is written, and nothing is noted
  have hprepare : (recorderApp sep decoders).prepare (relay isArray strings) .fresh =
      (Response.writeBody (Response.recording sep decoders) (relay isArray strings).response >>=
        fun _ => pure Ending.end_) relayHead := rfl
  rw [Act.bind_of_ok hbody] at hprepare
  have hrun := Act.bind_of_ok (f := (recorderApp sep decoders).perform)
    (on_of (s := ⟨.fresh, []⟩) hprepare)
  rw [responseTo, respond, ensureClose, rescueNative, hrun]
  rfl

/-- Their bytes are sent, as characters of ISO-8859-1. -/
theorem sentBytes_relayed (sep : Response.LineSeparator) (decoders : Response.Decoders)
    (isArray : Bool) (strings : List Bytes) :
    Response.sentBytes (relayed sep decoders isArray strings) = latin1 strings.flatten := by
  rw [← flatMap_arrived decoders, ← Response.flatMap_written]
  rfl

/-- In both modes the client gets what `respond` sends, if that returns. -/
theorem response_call (app : RackApplication Sent) {contentLength : Option JString}
    (hio : RackInput.RubyIORackInput.new contentLength = .ok io) {result : AppResult}
    (multiThreaded : Bool) (hok : (app.respond result ⟨.fresh, []⟩).1 = .ok ()) :
    (app.call contentLength (.returns result) multiThreaded ⟨.fresh, []⟩).response =
      (app.respond result ⟨.fresh, []⟩).2.response := by
  cases multiThreaded with
  | true => rw [call_multiThreaded hio]
  | false =>
    have hrun : app.respond result ⟨.fresh, []⟩ =
        (.ok (), (app.respond result ⟨.fresh, []⟩).2) := Prod.ext hok rfl
    rw [call_blocking hio hrun]

/-- **What was read is sent back** as characters of ISO-8859-1, so it
arrives as it is exactly if it is ASCII: the body up to where the
application read it, however it was cut, whenever it arrived, and
whichever calls it was read by. -/
theorem relayed_bytes {hdr : Option JString} {chunks : List Bytes}
    (hio : RackInput.Serves hdr chunks.flatten io) (program : Program O)
    (env : RackEnvironmentHash O) {acts : List Request.Act} {r : Request O}
    (hrun : (Request.start chunks env).run io program acts = some r)
    (sep : Response.LineSeparator) (decoders : Response.Decoders) (isArray multiThreaded : Bool) :
    let sent := Response.sentBytes ((recorderApp sep decoders).call hdr
      (.returns (relay isArray (RackInput.strings (events r.log)))) multiThreaded
        ⟨.fresh, []⟩).response
    let read := chunks.flatten.take (RackInput.position (events r.log))
    sent = latin1 read ∧ (sent = read ↔ isAscii read = true) := by
  intro sent read
  have hreads := reads_run (reads_start chunks hio.declares env) hrun
  have hread : (RackInput.strings (events r.log)).flatten = read := by
    rw [RackInput.flatten_strings, hreads.events, hreads.inv.log.gathered, ← hreads.events]
  have hrespond := responseTo_relay sep decoders isArray (RackInput.strings (events r.log))
  have hresponse := response_call (recorderApp sep decoders) hio.made multiThreaded
    (congrArg Prod.fst hrespond)
  have hsent : sent = latin1 read := by
    rw [← hread, ← sentBytes_relayed sep decoders isArray]
    exact congrArg Response.sentBytes
      (hresponse.trans (congrArg (fun result => result.2.response) hrespond))
  rw [hsent]
  exact ⟨rfl, latin1_eq_iff⟩

/-- `"A\nB"`, sent back while it arrives. -/
theorem relayed_bytes_line :
    ∃ r, (requestOf [[65], [10, 66]]).run ⟨0, true⟩ lineThenRest meanwhile = some r ∧
      Response.sentBytes ((recorderApp .lf ⟨bytewise, fun _ _ => []⟩).call none
        (.returns (relay false (RackInput.strings (events r.log)))) true ⟨.fresh, []⟩).response =
          latin1 ([65, 10, 66].take (RackInput.position (events r.log))) := by
  have hends : ((requestOf [[65], [10, 66]]).run ⟨0, true⟩ lineThenRest meanwhile).isSome = true :=
    rfl
  obtain ⟨r, hrun⟩ := Option.isSome_iff_exists.mp hends
  have hio : RackInput.Serves none ([[65], [10, 66]] : List Bytes).flatten ⟨0, true⟩ := .absent _
  exact ⟨r, hrun, (relayed_bytes hio lineThenRest _ hrun .lf _ false true).1⟩

end RackApplication

end Jubilee
