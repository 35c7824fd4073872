import Jubilee.RackEnv.Joined
import Jubilee.Response.Recorded
/-!
# Response — the values of a header, there and back

The env holds the values of a request header one to a line, and
`put_header` cuts the value of a response header into lines. The lines
are joined by a newline and cut at the separator of the platform, where
empty pieces at the end are lost. `round_trip_iff` says which lists of
values come back as they were.
-/

namespace Jubilee

namespace Response

open RackEnv

variable {O : Type*} [DecidableEq O]

/-- The value that the env holds under a key, given back for a header,
leaves the response with these values of it. -/
def ComesBack (sep : LineSeparator) (decoders : Decoders) (env : RackEnvironmentHash O)
    (key : StringKey) (name : JString) (s : Sent) (values : List JString) : Prop :=
  ∃ text s', env.table.lookup (.string key) = some (.string text) ∧
    (recording sep decoders).putHeader name (.text (asJavaString decoders text)) s = (.ok (), s') ∧
    s'.values name = values

/-- A string that Ruby was given comes back. -/
theorem asJavaString_toUnicodeRubyString (decoders : Decoders) (string : JString) :
    asJavaString decoders (RubyHelper.toUnicodeRubyString string) = string :=
  (decoders.utf8.decodes _).eq_of_encode rfl

/-- What `fillHeaderKey` puts for a header that the request has. -/
theorem lookup_fillHeaderKey' {env : RackEnvironmentHash O} {name v : JString} {vs : List JString}
    (hname : ¬ Excluded name) (hvs : env.headers.getAll name = v :: vs) (key : StringKey) :
    (env.fillHeaderKey' key name).table.lookup (.string key) =
      some (.string (RubyHelper.toUnicodeRubyString (RackEnvironmentHash.joinValues v vs))) := by
  rw [RackEnvironmentHash.fillHeaderKey'_eq, headerValue, if_neg hname, hvs]
  exact AList.lookup_insert _

/-- The lines of joined values: all of them, but for the empty ones at
the end, where lines end in a newline; and one line where they do not. -/
theorem split_joinValues {sep : LineSeparator} {v : JString} {vs : List JString}
    (hclean : ∀ w ∈ v :: vs, '\r' ∉ w ∧ '\n' ∉ w) (hvs : vs ≠ []) :
    split sep.chars (RackEnvironmentHash.joinValues v vs) =
      if sep = .lf then (v :: vs).rdropWhile (·.isEmpty)
      else [RackEnvironmentHash.joinValues v vs] := by
  have hcr : '\r' ∉ RackEnvironmentHash.joinValues v vs := by
    intro h
    rcases mem_joinValues h with hnewline | ⟨w, hw, hmem⟩
    · exact absurd hnewline (by decide)
    · exact (hclean w hw).1 hmem
  cases sep with
  | lf =>
    have hlength : 2 ≤ (v :: vs).length := by
      have := List.length_pos_iff.mpr hvs
      rw [List.length_cons]
      omega
    rw [if_pos rfl, joinValues_eq]
    exact split_intercalate (fun w hw => (hclean w hw).2) hlength
  | crlf => exact split_of_not_occurs (not_occurs_of_not_mem (by decide) hcr)
  | cr => exact split_of_not_occurs (not_occurs_of_not_mem (by decide) hcr)

/-- What comes back is the lines of the joined values. -/
theorem comesBack_iff {sep : LineSeparator} {decoders : Decoders} {env : RackEnvironmentHash O}
    {key : StringKey} {name v : JString} {vs : List JString} (hname : ¬ Excluded name)
    (hvs : env.headers.getAll name = v :: vs) {responseName : JString} {s : Sent}
    {values : List JString} :
    ComesBack sep decoders (env.fillHeaderKey' key name) key responseName s values ↔
      split sep.chars (RackEnvironmentHash.joinValues v vs) = values := by
  unfold ComesBack
  rw [lookup_fillHeaderKey' hname hvs]
  constructor
  · rintro ⟨text, s', htext, hs', hvalues⟩
    obtain rfl := RubyObject.string.inj (Option.some.inj htext)
    rw [asJavaString_toUnicodeRubyString, putHeader_text] at hs'
    obtain rfl := (Prod.mk.inj hs').2
    rwa [Sent.values_putHeader_self _ (equalsIgnoreCase_self _)] at hvalues
  · intro hsplit
    refine ⟨_, _, rfl, putHeader_text _ _, ?_⟩
    rw [Sent.values_putHeader_self _ (equalsIgnoreCase_self _), asJavaString_toUnicodeRubyString,
      hsplit]

/-- **The values come back as they were** if there is one, or lines end in
a newline and the last value is not empty, and only then. -/
theorem round_trip_iff (sep : LineSeparator) (decoders : Decoders) (env : RackEnvironmentHash O)
    (key : StringKey) {name : JString} (hname : ¬ Excluded name) {vs : List JString}
    (hvs : env.headers.getAll name = vs) (hne : vs ≠ [])
    (hclean : ∀ v ∈ vs, '\r' ∉ v ∧ '\n' ∉ v) (responseName : JString) (s : Sent) :
    ComesBack sep decoders (env.fillHeaderKey' key name) key responseName s vs ↔
      vs.length = 1 ∨ sep = .lf ∧ vs.getLast? ≠ some [] := by
  obtain ⟨v, vs, rfl⟩ := List.exists_cons_of_ne_nil hne
  rw [comesBack_iff hname hvs]
  by_cases hone : vs = []
  · -- one value is one line
    subst hone
    have hnone : occurs sep.chars v = false := by
      obtain ⟨hcr, hlf⟩ := hclean v (List.mem_singleton.mpr rfl)
      cases sep with
      | lf => exact not_occurs_of_not_mem (by decide) hlf
      | crlf => exact not_occurs_of_not_mem (by decide) hcr
      | cr => exact not_occurs_of_not_mem (by decide) hcr
    simp [RackEnvironmentHash.joinValues, split_of_not_occurs hnone]
  · rw [split_joinValues hclean hone]
    by_cases hsep : sep = .lf
    · rw [if_pos hsep, List.rdropWhile_eq_self_iff, List.getLast?_eq_getLast_of_ne_nil hne]
      simp [hone, hsep]
    · rw [if_neg hsep]
      simp [hone, hsep]

/-- Two cookies, the second of them empty. -/
def emptyCookie : MultiMap :=
  ⟨[("Set-Cookie".toList, ['a']), ("Set-Cookie".toList, [])], ["Set-Cookie".toList],
    by decide, by decide, by decide⟩

/-- The env that holds the values of one header of a request. -/
def holding (headers : MultiMap) (name : JString) : RackEnvironmentHash Empty :=
  (RackEnvironmentHash.new headers).fillHeaderKey' (rubyKey name) name

/-- Two values come back where lines end in a newline. -/
theorem round_trip_iff_repeated :
    ComesBack .lf ⟨bytewise, fun _ _ => []⟩ (holding repeated "X-A".toList)
      (rubyKey "X-A".toList) "X-A".toList .fresh [['1'], ['2']] :=
  (round_trip_iff .lf ⟨bytewise, fun _ _ => []⟩ (RackEnvironmentHash.new repeated)
    (rubyKey "X-A".toList) (by decide) (by decide) (by decide) (by decide) "X-A".toList
    .fresh).mpr (Or.inr ⟨rfl, by decide⟩)

/-- The last of two cookies is lost if it is empty, and with other lines
the two values come back as one. -/
theorem values_changed :
    ComesBack .lf ⟨bytewise, fun _ _ => []⟩ (holding emptyCookie "Set-Cookie".toList)
        (rubyKey "Set-Cookie".toList) "Set-Cookie".toList .fresh [['a']] ∧
      ¬ ComesBack .lf ⟨bytewise, fun _ _ => []⟩ (holding emptyCookie "Set-Cookie".toList)
        (rubyKey "Set-Cookie".toList) "Set-Cookie".toList .fresh [['a'], []] ∧
      ComesBack .crlf ⟨bytewise, fun _ _ => []⟩ (holding repeated "X-A".toList)
        (rubyKey "X-A".toList) "X-A".toList .fresh ["1\n2".toList] ∧
      ¬ ComesBack .crlf ⟨bytewise, fun _ _ => []⟩ (holding repeated "X-A".toList)
        (rubyKey "X-A".toList) "X-A".toList .fresh [['1'], ['2']] := by
  have hcookie : (RackEnvironmentHash.new (O := Empty) emptyCookie).headers.getAll
      "Set-Cookie".toList = [['a'], []] := by decide
  have hrepeated : (RackEnvironmentHash.new (O := Empty) repeated).headers.getAll
      "X-A".toList = [['1'], ['2']] := by decide
  unfold holding
  rw [comesBack_iff (by decide) hcookie, comesBack_iff (by decide) hcookie,
    comesBack_iff (by decide) hrepeated, comesBack_iff (by decide) hrepeated]
  decide

end Response

end Jubilee
