import Jubilee.RackEnv.ServerValues
/-!
# Rack env — the two headers that are kept out

`Content-Type` and `Content-Length` have keys of their own in the env, and
are not to be there as `HTTP_CONTENT_TYPE` and `HTTP_CONTENT_LENGTH`. They
are recognised by their spelling, while the keys are made from names in
any spelling. `kept_out_iff` says for which requests they stay out.
-/

namespace Jubilee

namespace RackEnv

variable {O : Type*} [DecidableEq O]

/-! ## The condition, and what it is for -/

/-- The key `CONTENT_TYPE`. -/
def contentTypeKey : StringKey := (RubyHelper.toUnicodeRubyString "CONTENT_TYPE".toList).toKey

/-- Every header that is stored under one of the two keys is spelled as it
is to be recognised. -/
def SpelledExactly (headers : MultiMap) : Prop :=
  ∀ name ∈ headers.names, rubyKey name = rubyKey CONTENT_TYPE ∨
    rubyKey name = rubyKey CONTENT_LENGTH → Excluded name

/-- As long as no call changes the key, it is absent. -/
def Absent (env : RackEnvironmentHash O) (key : RubyKey O) : Prop :=
  ∀ ops : List (Op O), (∀ op ∈ ops, op.Keeps key) → (env.run ops).table.lookup key = none

/-- As long as no call changes the key, a read of it and a read of the
whole hash find it just where `p` holds. -/
def PresentIff (env : RackEnvironmentHash O) (key : RubyKey O) (p : Prop) : Prop :=
  ∀ ops : List (Op O), (∀ op ∈ ops, op.Keeps key) →
    ((((env.run ops).fillKey key).table.lookup key).isSome = true ↔ p) ∧
      (((env.run ops).fillEntireHash.table.lookup key).isSome = true ↔ p)

open RackEnvironmentHash

variable {env : RackEnvironmentHash O} {headers : MultiMap} {k : StringKey} {key : RubyKey O}
  {values : List (RackKey × Option (LazyValue O) × Bool)}

/-! ## Absent keys -/

/-- A key is absent throughout where a full fill leaves nothing there. -/
theorem absent_iff_fillEntireHash (hs : Sound env) :
    Absent env key ↔ env.fillEntireHash.table.lookup key = none := by
  constructor
  · intro h
    refine h [.whole .inspect] ?_
    simp [Op.Keeps, Override.base, BaseOp.read]
  · intro h ops hops
    obtain ⟨hsound, hheaders⟩ := sound_run hs ops
    rw [← lookup_fillEntireHash_run hs hops, lookup_fillEntireHash] at h
    have htouch := Cell.value_touch_eq_none h
    cases hv : (env.run ops).table.lookup key with
    | none => rfl
    | some v =>
      -- what is there, touching the key would keep
      rw [Cell.touch_of_some (c := (env.run ops).cell key) hv] at htouch
      exact hv.symm.trans htouch

/-- A key no rack value waits for stays absent where every header that maps
to it is excluded. -/
theorem absent_fresh_iff (hrack : rackValue values (.string k) = none) :
    Absent (fresh headers values) (.string k) ↔ ∀ name ∈ mapped headers k, Excluded name := by
  rw [absent_iff_fillEntireHash (sound_fresh headers values).1, lookup_fillEntireHash_fresh,
    hrack, Option.or_none, wholeValue_eq_none_iff]

/-! ## Keys with a rack value -/

/-- A key that no header maps to has its rack value throughout. -/
theorem presentIff_fresh (hk : isHeaderKey k.bytes = false) (hne : k ≠ rubyKey []) :
    PresentIff (fresh headers values) (.string k)
      ((rackValue values (.string k)).isSome = true) := by
  intro ops hops
  obtain ⟨hsingle, hwhole⟩ := stays_fresh hk hne ops hops
  rw [hsingle, hwhole]
  exact ⟨Iff.rfl, Iff.rfl⟩

/-! ## The env of a request -/

omit [DecidableEq O] in
/-- `CONTENT_TYPE` waits for its key just where the request has the
header. -/
theorem isSome_contentType_iff (rackEnv : RackEnvironment O) (request : HttpServerRequest)
    (input : O) (isSSL : Bool) (contentLength : ℤ) :
    (rackValue (RackEnvironment.lazyValues rackEnv request input isSSL contentLength)
        (.string contentTypeKey)).isSome = true ↔
      ∃ f ∈ request.headers.fields, equalsIgnoreCase CONTENT_TYPE f.1 = true := by
  have hkey : rackKeyMap contentTypeKey = some .contentType := by decide
  have hput : lastPut (RackEnvironment.lazyValues rackEnv request input isSSL contentLength)
      .contentType =
      (request.headers.get CONTENT_TYPE).map
        fun s => .string (RubyHelper.toUsAsciiRubyString' s) := by
    rw [lastPut, RackEnvironment.lazyValues, List.filter_append, List.filter_append]
    have hlength : (if 0 ≤ contentLength then [(RackKey.contentLength,
        some (LazyValue.string (toString contentLength).toList), true)] else []).filter
          (fun v : RackKey × Option (LazyValue O) × Bool => v.1 = .contentType) = [] := by
      split <;> rfl
    have hhttps : (if isSSL then [(RackKey.https,
        some (LazyValue.string "on".toList), true)] else []).filter
          (fun v : RackKey × Option (LazyValue O) × Bool => v.1 = .contentType) = [] := by
      split <;> rfl
    rw [hlength, hhttps, List.append_nil, List.append_nil]
    cases request.headers.get CONTENT_TYPE <;> rfl
  rw [rackValue, hkey, Option.bind_some, hput, Option.isSome_map, MultiMap.get,
    List.isSome_head?, MultiMap.getAll]
  simp

/-- **The two headers stay out**, and `CONTENT_TYPE` is there just where
the request has the header, if every name that is stored under one of
their keys is spelled as the program spells it, and only then. -/
theorem kept_out_iff (rackEnv : RackEnvironment O) (request : HttpServerRequest) (input : O)
    (isSSL : Bool) (h : (RackEnvironment.getEnv request input isSSL rackEnv).1 = .ok env) :
    (Absent env (.string (rubyKey CONTENT_TYPE)) ∧ Absent env (.string (rubyKey CONTENT_LENGTH)) ∧
      PresentIff env (.string contentTypeKey)
        (∃ f ∈ request.headers.fields, equalsIgnoreCase CONTENT_TYPE f.1 = true)) ↔
      SpelledExactly request.headers := by
  obtain ⟨n, rfl⟩ := RackEnvironment.exists_of_getEnv h
  have htype : rackKeyMap (rubyKey CONTENT_TYPE) = none := by decide
  have hlength : rackKeyMap (rubyKey CONTENT_LENGTH) = none := by decide
  have hpresent : PresentIff
      (fresh request.headers (RackEnvironment.lazyValues rackEnv request input isSSL n))
      (.string contentTypeKey) _ := presentIff_fresh (by decide) (by decide)
  rw [absent_fresh_iff (by rw [rackValue, htype]; rfl),
    absent_fresh_iff (by rw [rackValue, hlength]; rfl), ← isSome_contentType_iff]
  constructor
  · rintro ⟨h₁, h₂, -⟩ name hname (hkey | hkey)
    · exact h₁ name (List.mem_filter.mpr ⟨hname, by simpa using hkey⟩)
    · exact h₂ name (List.mem_filter.mpr ⟨hname, by simpa using hkey⟩)
  · intro hs
    refine ⟨fun name hname => ?_, fun name hname => ?_, hpresent⟩
    · obtain ⟨hname, hkey⟩ := List.mem_filter.mp hname
      exact hs name hname (Or.inl (by simpa using hkey))
    · obtain ⟨hname, hkey⟩ := List.mem_filter.mp hname
      exact hs name hname (Or.inr (by simpa using hkey))

/-- The headers of a request with one header. -/
def oneHeader (name value : JString) : MultiMap :=
  ⟨[(name, value)], [name], by simp, by simp, by simp [equalsIgnoreCase_self]⟩

/-- `GET /` with one header. -/
def getWith (name value : JString) : HttpServerRequest :=
  ⟨.http11, "GET".toList, ['/'], ['/'], none, oneHeader name value, none⟩

/-- What its env is made of by a `RackEnvironment`, objects given
numbers. -/
def envWith (name value : JString) : Except Raised (RackEnvironmentHash ℕ) :=
  (RackEnvironment.getEnv (getWith name value) 5 false ⟨⟨0, 1, 2⟩, 3, 4, true⟩).1

/-- `Content-Type`, so spelled, stays out. -/
theorem kept_out_iff_canonical :
    ∃ env, envWith CONTENT_TYPE "text/html".toList = .ok env ∧
      Absent env (.string (rubyKey CONTENT_TYPE)) ∧
      PresentIff env (.string contentTypeKey) (∃ f ∈ [(CONTENT_TYPE, "text/html".toList)],
        equalsIgnoreCase CONTENT_TYPE f.1 = true) := by
  obtain ⟨env, henv⟩ : ∃ env, envWith CONTENT_TYPE "text/html".toList = .ok env := ⟨_, rfl⟩
  have hspelled : SpelledExactly (getWith CONTENT_TYPE "text/html".toList).headers := by
    unfold SpelledExactly
    decide
  have hout := (kept_out_iff _ (getWith CONTENT_TYPE "text/html".toList) 5 false henv).mpr hspelled
  exact ⟨env, henv, hout.1, hout.2.2⟩

/-- `content-type` does not: a read of the whole hash finds it, and so does
a read of the key alone. -/
theorem content_type_let_in :
    ∃ env, envWith "content-type".toList "text/html".toList = .ok env ∧
      env.fillEntireHash.table.lookup (.string (rubyKey CONTENT_TYPE)) =
        some (.string (RubyHelper.toUnicodeRubyString "text/html".toList)) ∧
      (env.fillKey (.string (rubyKey CONTENT_TYPE))).table.lookup
        (.string (rubyKey CONTENT_TYPE)) =
          some (.string (RubyHelper.toUnicodeRubyString "text/html".toList)) ∧
      ¬ Absent env (.string (rubyKey CONTENT_TYPE)) := by
  obtain ⟨env, henv⟩ : ∃ env, envWith "content-type".toList "text/html".toList = .ok env :=
    ⟨_, rfl⟩
  obtain ⟨n, rfl⟩ := RackEnvironment.exists_of_getEnv henv
  have hsingle : singleValue (O := ℕ) (oneHeader "content-type".toList "text/html".toList)
      (rubyKey CONTENT_TYPE) =
        some (.string (RubyHelper.toUnicodeRubyString "text/html".toList)) := by decide +kernel
  refine ⟨_, henv, ?_, ?_, fun h => ?_⟩
  · rw [lookup_fillEntireHash_fresh, getWith, wholeValue_of_singleValue hsingle]
    rfl
  · rw [lookup_fillKey_fresh]
    exact hsingle
  · -- reading the key is a run that assigns nothing
    have hread := h [.opAref (.string (rubyKey CONTENT_TYPE))] (by simp [Op.Keeps])
    change ((fresh _ _).fillKey (.string (rubyKey CONTENT_TYPE))).table.lookup _ = none at hread
    rw [lookup_fillKey_fresh] at hread
    exact absurd (hsingle.symm.trans hread) nofun

end RackEnv

end Jubilee
