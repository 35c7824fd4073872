import Mathlib.Data.List.Basic
import Jubilee.RackEnv.GetEnv
import Jubilee.RackEnv.Reads
/-!
# Rack env — the values of a header

The values of one header are joined, one to a line. The names that map to
a key need not be one header, though: `-` and `_` are the same there, and
of several headers only one is taken. `joined_iff` says for which requests
none of the values sent for a key is lost.
-/

namespace Jubilee

namespace RackEnv

variable {O : Type*} [DecidableEq O]

/-! ## The condition, and what it is for -/

/-- The values of all fields whose names map to a key. -/
def sent (headers : MultiMap) (key : StringKey) : List JString :=
  (headers.fields.filter fun f => rubyKey f.1 = key).map Prod.snd

/-- The lines of an entry are these values, as often as they are here, and
`value` is one of them. -/
def Joins (entry : Option (RubyObject O)) (value : JString) (values : List JString) : Prop :=
  ∃ s : RubyString, entry = some (.string s) ∧ encodeUtf8 value ∈ s.bytes.splitOn 10 ∧
    (s.bytes.splitOn 10).Perm (values.map encodeUtf8)

/-- As long as no call changes the key of a field, a read of it and a read
of the whole hash find all values that were sent for it. -/
def NoneLost (env : RackEnvironmentHash O) (headers : MultiMap) (f : JString × JString) : Prop :=
  ∀ ops : List (Op O), (∀ op ∈ ops, op.Keeps (.string (rubyKey f.1))) →
    Joins (((env.run ops).fillKey (.string (rubyKey f.1))).table.lookup (.string (rubyKey f.1)))
        f.2 (sent headers (rubyKey f.1)) ∧
      Joins ((env.run ops).fillEntireHash.table.lookup (.string (rubyKey f.1)))
        f.2 (sent headers (rubyKey f.1))

/-- The fields that are stored under one key with `f` are of one header
with it. -/
def Alone (headers : MultiMap) (f : JString × JString) : Prop :=
  ∀ g ∈ headers.fields, rubyKey g.1 = rubyKey f.1 → equalsIgnoreCase f.1 g.1 = true

variable {headers : MultiMap} {f : JString × JString}

/-! ## Keys of names -/

/-- A letter's case does not matter to a key. -/
theorem rackHeaderize_toLowerCase (c : Char) :
    rackHeaderize (toLowerCase c) = rackHeaderize c := by
  have hletters : ∀ n < 91, 65 ≤ n →
      rackHeaderize (Char.ofNat (n + 32)) = rackHeaderize (Char.ofNat n) := by decide
  unfold toLowerCase
  split
  · rename_i h
    have hA : 65 ≤ c.toNat := UInt32.le_iff_toNat_le.mp h.1
    have hZ : c.toNat ≤ 90 := UInt32.le_iff_toNat_le.mp h.2
    rw [hletters c.toNat (by omega) hA, Char.ofNat_toNat]
  · rfl

/-- Two spellings of one name have one key. -/
theorem rubyKey_of_equalsIgnoreCase {name₁ name₂ : JString}
    (h : equalsIgnoreCase name₁ name₂ = true) : rubyKey name₁ = rubyKey name₂ := by
  have hkey : ∀ name : JString, rackHeaderNameToBytes (name.map toLowerCase) =
      rackHeaderNameToBytes name := by
    intro name
    simp only [rackHeaderNameToBytes, List.map_map, Function.comp_def, rackHeaderize_toLowerCase]
  rw [equalsIgnoreCase, decide_eq_true_eq] at h
  rw [rubyKey, rubyKey, ← hkey name₁, h, hkey]

/-! ## Lines -/

/-- A joined value is its values with newlines between. -/
theorem joinValues_eq (v : JString) (vs : List JString) :
    RackEnvironmentHash.joinValues v vs = ['\n'].intercalate (v :: vs) := by
  induction vs generalizing v with
  | nil => exact List.intercalate_singleton.symm
  | cons w vs ih =>
    have hmerge : ['\n'].intercalate ((v ++ '\n' :: w) :: vs) =
        ['\n'].intercalate (v :: w :: vs) := by
      cases vs <;> simp
    exact (ih (v ++ '\n' :: w)).trans hmerge

/-- It has no other characters. -/
theorem mem_joinValues {c : Char} {v : JString} {vs : List JString}
    (h : c ∈ RackEnvironmentHash.joinValues v vs) : c = '\n' ∨ ∃ w ∈ v :: vs, c ∈ w := by
  induction vs generalizing v with
  | nil => exact Or.inr ⟨v, List.mem_singleton.mpr rfl, h⟩
  | cons w vs ih =>
    rcases ih (v := v ++ '\n' :: w) h with hc | ⟨w', hw', hc⟩
    · exact Or.inl hc
    · rcases List.mem_cons.mp hw' with rfl | hw'
      · simp only [List.mem_append, List.mem_cons] at hc
        rcases hc with hc | hc | hc
        · exact Or.inr ⟨v, by simp, hc⟩
        · exact Or.inl hc
        · exact Or.inr ⟨w, by simp, hc⟩
      · exact Or.inr ⟨w', by simp [hw'], hc⟩

/-- And so are its bytes. -/
theorem encodeUtf8_joinValues (v : JString) (vs : List JString) :
    encodeUtf8 (RackEnvironmentHash.joinValues v vs) =
      [10].intercalate ((v :: vs).map encodeUtf8) := by
  rw [joinValues_eq]
  induction vs generalizing v with
  | nil => simp
  | cons w vs ih =>
    rw [List.intercalate_cons_cons, encodeUtf8, List.flatMap_append, List.flatMap_append,
      List.map_cons, List.map_cons, List.intercalate_cons_cons]
    exact congrArg _ (ih w)

/-- A header's lines are its values. -/
theorem splitOn_joinValues {v : JString} {vs : List JString} (h : ∀ w ∈ v :: vs, '\n' ∉ w) :
    (encodeUtf8 (RackEnvironmentHash.joinValues v vs)).splitOn 10 =
      (v :: vs).map encodeUtf8 := by
  rw [encodeUtf8_joinValues]
  refine List.splitOn_intercalate 10 (fun line hline hmem => ?_) (by simp)
  obtain ⟨w, hw, rfl⟩ := List.mem_map.mp hline
  exact h w hw (mem_of_mem_encodeUtf8 (by decide) (by decide) hmem)

/-! ## The names that map to a key -/

/-- A name that maps to a field's key is, with the field alone there, a
spelling of its name. -/
theorem equalsIgnoreCase_of_mapped (halone : Alone headers f) {name : JString}
    (hname : name ∈ mapped headers (rubyKey f.1)) : equalsIgnoreCase f.1 name = true := by
  obtain ⟨hmem, hkey⟩ := List.mem_filter.mp hname
  obtain ⟨g, hg, rfl⟩ := List.mem_map.mp (headers.mem_fields_of_mem_names name hmem)
  exact halone g hg (by simpa using hkey)

/-- Some listed name maps to a field's key. -/
theorem exists_getLast?_mapped (hf : f ∈ headers.fields) :
    ∃ last, (mapped headers (rubyKey f.1)).getLast? = some last := by
  obtain ⟨name, hname, heq⟩ := headers.mem_names_of_mem_fields f hf
  have hmem : name ∈ mapped headers (rubyKey f.1) :=
    List.mem_filter.mpr ⟨hname, by simpa using rubyKey_of_equalsIgnoreCase heq⟩
  exact Option.isSome_iff_exists.mp (by simpa using List.ne_nil_of_mem hmem)

/-- Where the fields of a key are all of one name, the values of the name
are all that were sent. -/
theorem getAll_eq_sent {name : JString} {key : StringKey} (hkey : rubyKey name = key)
    (h : ∀ g ∈ headers.fields, rubyKey g.1 = key → equalsIgnoreCase name g.1 = true) :
    headers.getAll name = sent headers key := by
  refine congrArg (List.map Prod.snd) (List.filter_congr fun g hg => ?_)
  rw [Bool.eq_iff_iff, decide_eq_true_eq]
  refine ⟨fun heq => ?_, h g hg⟩
  rw [← rubyKey_of_equalsIgnoreCase heq, hkey]

/-- Where the values of one name are as many as were sent for its key, the
fields of the key are all of that name. -/
theorem equalsIgnoreCase_of_length {name : JString} {key : StringKey} (hkey : rubyKey name = key)
    (h : (headers.getAll name).length = (sent headers key).length) :
    ∀ g ∈ headers.fields, rubyKey g.1 = key → equalsIgnoreCase name g.1 = true := by
  have hsub : (headers.fields.filter fun g => equalsIgnoreCase name g.1).Sublist
      (headers.fields.filter fun g => rubyKey g.1 = key) := by
    refine List.monotone_filter_right headers.fields fun g hg => ?_
    rw [decide_eq_true_eq, ← rubyKey_of_equalsIgnoreCase hg, hkey]
  rw [MultiMap.getAll, sent, List.length_map, List.length_map] at h
  intro g hg hgkey
  have hmem : g ∈ headers.fields.filter fun g => rubyKey g.1 = key :=
    List.mem_filter.mpr ⟨hg, by simpa using hgkey⟩
  rw [← hsub.eq_of_length h] at hmem
  exact (List.mem_filter.mp hmem).2

omit [DecidableEq O] in
/-- A name with a value brings its values, one to a line. -/
theorem headerValue_lines {name : JString} (hn : name ∈ headers.names) (he : ¬ Excluded name)
    (hlines : ∀ g ∈ headers.fields, '\n' ∉ g.2) :
    ∃ s : RubyString, headerValue (O := O) headers name = some (.string s) ∧
      s.bytes.splitOn 10 = (headers.getAll name).map encodeUtf8 := by
  obtain ⟨v, hv⟩ := exists_headerValue (O := O) hn he
  rw [headerValue, if_neg he] at hv ⊢
  cases hall : headers.getAll name with
  | nil => rw [hall] at hv; cases hv
  | cons w ws =>
    refine ⟨_, rfl, splitOn_joinValues fun w' hw' => ?_⟩
    rw [← hall, MultiMap.getAll] at hw'
    obtain ⟨g, hg, rfl⟩ := List.mem_map.mp hw'
    exact hlines g (List.mem_filter.mp hg).1

/-! ## What reads find -/

/-- What both ways of reading find in a fresh hash, a read finds after any
calls that leave the key alone. -/
theorem noneLost_of_fresh {values : List (RackKey × Option (LazyValue O) × Bool)}
    (hne : f.1 ≠ []) {v : RubyObject O} (hv : singleValue headers (rubyKey f.1) = some v)
    (hjoins : Joins (some v) f.2 (sent headers (rubyKey f.1))) :
    NoneLost (RackEnvironmentHash.fresh headers values) headers f := by
  have hs := (RackEnvironmentHash.sound_fresh headers values).1
  intro ops hops
  rw [RackEnvironmentHash.lookup_fillKey_run hs hops,
    RackEnvironmentHash.lookup_fillEntireHash_run hs hops,
    RackEnvironmentHash.lookup_fillKey_fresh, RackEnvironmentHash.lookup_fillEntireHash_fresh,
    wholeValue_of_singleValue hv, if_pos ((isHeaderKey_rubyKey f.1).mpr hne), hv, Option.some_or,
    ite_self]
  exact ⟨hjoins, hjoins⟩

omit [DecidableEq O] in
/-- Where reading a field's key alone finds all that was sent for it, its
fields are of one header: what is found is one name's. -/
theorem alone_of_joins (hf : f ∈ headers.fields) (hlines : ∀ g ∈ headers.fields, '\n' ∉ g.2)
    (h : Joins (singleValue (O := O) headers (rubyKey f.1)) f.2 (sent headers (rubyKey f.1))) :
    Alone headers f := by
  obtain ⟨last, hlast⟩ := exists_getLast?_mapped hf
  obtain ⟨hmem, hkey⟩ := List.mem_filter.mp (List.mem_of_getLast? hlast)
  obtain ⟨s, hs, -, hperm⟩ := h
  rw [singleValue, hlast, Option.bind_some] at hs
  have he : ¬ Excluded last := fun he => by
    rw [headerValue_of_excluded he] at hs
    cases hs
  obtain ⟨s', hs', hsplit⟩ := headerValue_lines (O := O) hmem he hlines
  obtain rfl : s' = s := RubyObject.string.inj (Option.some.inj (hs'.symm.trans hs))
  have hlen := hperm.length_eq
  rw [hsplit, List.length_map, List.length_map] at hlen
  have hall := equalsIgnoreCase_of_length (by simpa using hkey) hlen
  intro g hg hgkey
  refine equalsIgnoreCase_trans ?_ (hall g hg hgkey)
  rw [equalsIgnoreCase_comm]
  exact hall f hf rfl

omit [DecidableEq O] in
/-- Where they are, it finds that: whichever name is taken is a spelling of
the field's. -/
theorem joins_of_alone (hf : f ∈ headers.fields)
    (htype : equalsIgnoreCase CONTENT_TYPE f.1 = false)
    (hlength : equalsIgnoreCase CONTENT_LENGTH f.1 = false)
    (hlines : ∀ g ∈ headers.fields, '\n' ∉ g.2) (halone : Alone headers f) :
    Joins (singleValue (O := O) headers (rubyKey f.1)) f.2 (sent headers (rubyKey f.1)) := by
  obtain ⟨last, hlast⟩ := exists_getLast?_mapped hf
  have hmem := List.mem_of_getLast? hlast
  have hspelling : equalsIgnoreCase last f.1 = true := by
    rw [equalsIgnoreCase_comm]
    exact equalsIgnoreCase_of_mapped halone hmem
  have he : ¬ Excluded last := by
    rintro (rfl | rfl)
    · exact Bool.false_ne_true (htype.symm.trans hspelling)
    · exact Bool.false_ne_true (hlength.symm.trans hspelling)
  have hall : headers.getAll last = sent headers (rubyKey f.1) :=
    getAll_eq_sent (rubyKey_of_equalsIgnoreCase hspelling) fun g hg hgkey =>
      equalsIgnoreCase_trans hspelling (halone g hg hgkey)
  obtain ⟨s, hs, hsplit⟩ := headerValue_lines (O := O) (List.mem_filter.mp hmem).1 he hlines
  rw [hall] at hsplit
  have hvalue : f.2 ∈ sent headers (rubyKey f.1) :=
    List.mem_map_of_mem (List.mem_filter.mpr ⟨hf, by simp⟩)
  rw [singleValue, hlast, Option.bind_some, hs]
  exact ⟨s, rfl, by rw [hsplit]; exact List.mem_map_of_mem hvalue, by rw [hsplit]⟩

/-- **No value that was sent for a key is lost** just where all of them
were sent for one header. -/
theorem joined_iff (rackEnv : RackEnvironment O) (request : HttpServerRequest) (input : O)
    (isSSL : Bool) {env : RackEnvironmentHash O}
    (h : (RackEnvironment.getEnv request input isSSL rackEnv).1 = .ok env)
    (hf : f ∈ request.headers.fields) (hne : f.1 ≠ [])
    (htype : equalsIgnoreCase CONTENT_TYPE f.1 = false)
    (hlength : equalsIgnoreCase CONTENT_LENGTH f.1 = false)
    (hlines : ∀ g ∈ request.headers.fields, '\n' ∉ g.2) :
    NoneLost env request.headers f ↔ Alone request.headers f := by
  obtain ⟨n, rfl⟩ := RackEnvironment.exists_of_getEnv h
  constructor
  · intro hnone
    -- already the first read of the key finds no more than one name's values
    have hread := (hnone [] (List.forall_mem_nil _)).1
    change Joins (((RackEnvironmentHash.fresh _ _).fillKey _).table.lookup _) _ _ at hread
    rw [RackEnvironmentHash.lookup_fillKey_fresh,
      if_pos ((isHeaderKey_rubyKey f.1).mpr hne)] at hread
    exact alone_of_joins hf hlines hread
  · intro halone
    have hjoins := joins_of_alone (O := O) hf htype hlength hlines halone
    obtain ⟨s, hs, hlines⟩ := id hjoins
    exact noneLost_of_fresh hne hs (hs ▸ hjoins)

/-- `X-A: 1` and `x-a: 2`, listed as `X-A`. -/
def repeated : MultiMap :=
  ⟨[("X-A".toList, ['1']), ("x-a".toList, ['2'])], ["X-A".toList], by decide, by decide, by decide⟩

/-- `X-A: 1` and `X_A: 2`. -/
def colliding : MultiMap :=
  ⟨[("X-A".toList, ['1']), ("X_A".toList, ['2'])], ["X-A".toList, "X_A".toList],
    by decide, by decide, by decide⟩

/-- What the env of `GET /` with these headers is made of by a
`RackEnvironment`, objects given numbers. -/
def envOf (headers : MultiMap) : Except Raised (RackEnvironmentHash ℕ) :=
  (RackEnvironment.getEnv ⟨.http11, "GET".toList, ['/'], ['/'], none, headers, none⟩ 5 false
    ⟨⟨0, 1, 2⟩, 3, 4, true⟩).1

/-- Two spellings of one name lose nothing. -/
theorem joined_iff_repeated :
    ∃ env, envOf repeated = .ok env ∧ NoneLost env repeated ("X-A".toList, ['1']) := by
  obtain ⟨env, henv⟩ : ∃ env, envOf repeated = .ok env := ⟨_, rfl⟩
  have halone : Alone repeated ("X-A".toList, ['1']) := by
    unfold Alone
    decide
  exact ⟨env, henv, (joined_iff _ ⟨_, _, _, _, _, repeated, _⟩ _ _ henv (by decide) (by decide)
    (by decide) (by decide) (by decide)).mpr halone⟩

/-- Of two names with one key, one loses its value. -/
theorem value_lost :
    ∃ env, envOf colliding = .ok env ∧
      (env.fillKey (.string (rubyKey "X-A".toList))).table.lookup
        (.string (rubyKey "X-A".toList)) = some (.string ⟨[50], .utf8⟩) ∧
      ¬ NoneLost env colliding ("X-A".toList, ['1']) := by
  obtain ⟨env, henv⟩ : ∃ env, envOf colliding = .ok env := ⟨_, rfl⟩
  obtain ⟨n, rfl⟩ := RackEnvironment.exists_of_getEnv henv
  have hsingle : singleValue (O := ℕ) colliding (rubyKey "X-A".toList) =
      some (.string ⟨[50], .utf8⟩) := by decide +kernel
  refine ⟨_, henv, ?_, fun h => ?_⟩
  · rw [RackEnvironmentHash.lookup_fillKey_fresh]
    exact hsingle
  · obtain ⟨s, hs, hmem, -⟩ := (h [] (List.forall_mem_nil _)).1
    change ((RackEnvironmentHash.fresh _ _).fillKey _).table.lookup _ = _ at hs
    rw [RackEnvironmentHash.lookup_fillKey_fresh] at hs
    obtain rfl := RubyObject.string.inj (Option.some.inj (hsingle.symm.trans hs))
    exact absurd hmem (by decide)

end RackEnv

end Jubilee
