import Jubilee.Common.LazyCell
import Jubilee.RackEnv.Operations
/-!
# Rack env — the two fills, key by key

At one key the hash is a lazily filled cell: the value in the table, the
rack value that waits for the key, and what the headers hold for it
(`cell`, `origin`). `fillKey` touches the cell of its key and no other
(`cell_fillKey`), and `fillEntireHash` fills the cell of every key
(`cell_fillEntireHash`).
-/

namespace Jubilee

namespace RackEnv

variable {O : Type*} [DecidableEq O]

/-! ## What the headers hold for a key -/

/-- The listed names that map to a key, in order. -/
def mapped (headers : MultiMap) (key : StringKey) : List JString :=
  headers.names.filter (rubyKey · = key)

theorem bytes_rubyKey (name : JString) :
    (rubyKey name).bytes = httpPrefix ++ name.map fun c => charToByte (rackHeaderize c) :=
  bytes_toKey _

/-- Every key that a header maps to starts with `HTTP_`. -/
theorem prefix_of_mapped {headers : MultiMap} {key : StringKey} {name : JString}
    (h : name ∈ mapped headers key) : httpPrefix <+: key.bytes := by
  have hkey : rubyKey name = key := by simpa using (List.mem_filter.mp h).2
  rw [← hkey, bytes_rubyKey]
  exact List.prefix_append _ _

/-- The two names that are not to reach the env. -/
def Excluded (name : JString) : Prop := name = CONTENT_TYPE ∨ name = CONTENT_LENGTH

instance (name : JString) : Decidable (Excluded name) :=
  inferInstanceAs (Decidable (_ ∨ _))

/-- What a header name brings into the env. -/
def headerValue (headers : MultiMap) (name : JString) : Option (RubyObject O) :=
  if Excluded name then none
  else
    match headers.getAll name with
    | [] => none
    | v :: vs =>
      some (.string (RubyHelper.toUnicodeRubyString (RackEnvironmentHash.joinValues v vs)))

/-- What filling the key alone finds in the headers: the value of the last
name that maps to it. -/
def singleValue (headers : MultiMap) (key : StringKey) : Option (RubyObject O) :=
  (mapped headers key).getLast?.bind (headerValue headers)

/-- What filling the entire hash finds there: the last value that a name
brings. -/
def wholeValue (headers : MultiMap) (key : StringKey) : Option (RubyObject O) :=
  ((mapped headers key).filterMap (headerValue headers)).getLast?

omit [DecidableEq O] in
theorem wholeValue_of_singleValue {headers : MultiMap} {key : StringKey} {v : RubyObject O}
    (h : singleValue headers key = some v) : wholeValue headers key = some v := by
  rw [singleValue, Option.bind_eq_some_iff] at h
  obtain ⟨name, hlast, hv⟩ := h
  obtain ⟨init, hinit⟩ := List.getLast?_eq_some_iff.mp hlast
  rw [wholeValue, hinit, List.filterMap_append, List.filterMap_cons_some hv, List.filterMap_nil,
    List.getLast?_concat]

/-- Where a key's value comes from. -/
def origin (headers : MultiMap) : RubyKey O → Origin (RubyObject O)
  | .string k =>
    { sourced := isHeaderKey k.bytes
      single := singleValue headers k
      whole := wholeValue headers k
      whole_of_single := fun h => by
        obtain ⟨v, hv⟩ := Option.isSome_iff_exists.mp h
        rw [wholeValue_of_singleValue hv]; rfl }
  | .other _ => ⟨false, none, none, fun h => h⟩

namespace RackEnvironmentHash

variable {env : RackEnvironmentHash O} {k key : StringKey}

/-! ## The hash at a key -/

variable (env) in
/-- The rack value that waits for a key. -/
def slot : RubyKey O → Option (RubyObject O)
  | .string k => (rackKeyMap k).bind fun rackKey =>
    (env.rackValues rackKey).map (LazyValue.toRuby (env.usAsciiValues rackKey))
  | .other _ => none

variable (env) in
/-- The hash at a key. -/
def cell (key : RubyKey O) : Cell (RubyObject O) :=
  ⟨env.table.lookup key, env.slot key, env.filledEntireHash⟩

/-! ## Filling from the headers -/

theorem fillHeaderKey'_eq (name : JString) :
    env.fillHeaderKey' key name =
      (headerValue env.headers name).elim env fun v => env.put key v := by
  unfold fillHeaderKey' headerValue
  by_cases h : Excluded name
  · rw [if_pos h, if_neg (by unfold Excluded at h; tauto)]
    rfl
  · rw [if_neg h, if_pos (by unfold Excluded at h; tauto)]
    cases env.headers.getAll name <;> rfl

omit [DecidableEq O] in
/-- The header key map, after some names. -/
theorem populateHeaderKeyMap_eq :
    env.populateHeaderKeyMap =
      { env with
        headerKeyMap :=
          env.headers.names.foldl (fun m name => m.insert (rubyKey name) name) env.headerKeyMap
        filledHeaderKeyMap := true } := by
  have key : ∀ (names : List JString) (env : RackEnvironmentHash O),
      names.foldl (fun env name => env.putHeaderKey (rubyKey name) name) env =
        { env with
          headerKeyMap := names.foldl (fun m name => m.insert (rubyKey name) name)
            env.headerKeyMap } := by
    intro names
    induction names with
    | nil => intro env; rfl
    | cons name names ih => intro env; rw [List.foldl_cons, List.foldl_cons, ih]; rfl
  rw [populateHeaderKeyMap, key]

/-- Of several names with one key the map keeps the last. -/
theorem lookup_foldl_insert (names : List JString) (m : AList fun _ : StringKey => JString) :
    (names.foldl (fun m name => m.insert (rubyKey name) name) m).lookup k =
      (names.filter (rubyKey · = k)).getLast?.or (m.lookup k) := by
  induction names generalizing m with
  | nil => rfl
  | cons name names ih =>
    rw [List.foldl_cons, ih, List.filter_cons]
    by_cases h : rubyKey name = k
    · subst h
      rw [if_pos (by simp), List.getLast?_cons, AList.lookup_insert]
      cases (names.filter (rubyKey · = rubyKey name)).getLast? <;> rfl
    · rw [if_neg (by simpa using h), AList.lookup_insert_ne (Ne.symm h)]

/-- The header key map is empty until it is populated, and holds the last
name of each key from then on. Once the entire hash is filled nothing
reads it. -/
structure Sound (env : RackEnvironmentHash O) : Prop where
  empty : env.filledEntireHash = false → env.filledHeaderKeyMap = false → env.headerKeyMap = ∅
  populated : env.filledEntireHash = false → env.filledHeaderKeyMap = true →
    ∀ k, env.headerKeyMap.lookup k = (mapped env.headers k).getLast?

omit [DecidableEq O] in
theorem Sound.of_filled (h : env.filledEntireHash = true) : Sound env :=
  ⟨fun hf _ => absurd hf (by simp [h]), fun hf _ => absurd hf (by simp [h])⟩

/-! ## Filling from the rack values -/

/-- A rack key is one of the listed ones. -/
theorem mem_of_rackKeyMap {rackKey : RackKey} (h : rackKeyMap k = some rackKey) :
    (k, rackKey) ∈ populateRackKeyMap := by
  obtain ⟨l₁, l₂, hl, -⟩ := List.lookup_eq_some_iff.mp h
  rw [hl]
  simp

/-- No two keys share a rack value. -/
theorem rackKeyMap_inj {rackKey : RackKey} (h : rackKeyMap k = some rackKey)
    (h' : rackKeyMap key = some rackKey) : k = key := by
  have hnodup : (populateRackKeyMap.map Prod.snd).Nodup := by decide
  have heq := List.inj_on_of_nodup_map hnodup (mem_of_rackKeyMap h) (mem_of_rackKeyMap h') rfl
  exact congrArg Prod.fst heq

omit [DecidableEq O] in
/-- What waits for one key is not taken out with another's. -/
theorem slot_update_of_ne (env : RackEnvironmentHash O) {rackKey : RackKey} {k' : RubyKey O}
    (h : rackKeyMap key = some rackKey) (hne : RubyKey.string key ≠ k') (t : Table O) :
    slot { env with table := t, rackValues := Function.update env.rackValues rackKey none } k' =
      env.slot k' := by
  cases k' with
  | other o => rfl
  | string k =>
    cases hk : rackKeyMap k with
    | none => simp only [slot, hk, Option.bind_none]
    | some rackKey' =>
      have hr : rackKey' ≠ rackKey := by
        rintro rfl
        exact hne (congrArg RubyKey.string (rackKeyMap_inj h hk))
      simp only [slot, hk, Option.bind_some, Function.update_of_ne hr]

/-- What `fillRackKey` does: nothing, or it stores the value that waits,
and empties the slot. -/
theorem fillRackKey_cases (env : RackEnvironmentHash O) (key : StringKey) :
    (env.slot (.string key) = none ∧ env.fillRackKey key = env) ∨
    ∃ rackKey v, rackKeyMap key = some rackKey ∧ env.slot (.string key) = some v ∧
      env.fillRackKey key =
        { env with
          table := env.table.insert (.string key) v
          rackValues := Function.update env.rackValues rackKey none } := by
  cases hk : rackKeyMap key with
  | none => exact Or.inl (by simp only [slot, fillRackKey, hk, Option.bind_none, and_self])
  | some rackKey =>
    cases hv : env.rackValues rackKey with
    | none =>
      refine Or.inl ?_
      simp only [slot, fillRackKey, hk, hv, Option.bind_some, Option.map_none, and_self]
    | some value =>
      refine Or.inr ⟨rackKey, value.toRuby (env.usAsciiValues rackKey), rfl, ?_, ?_⟩
      · simp only [slot, hk, hv, Option.bind_some, Option.map_some]
      · simp only [fillRackKey, hk, hv, put]

/-- Take out what waits for a key. -/
def drain (c : Cell (RubyObject O)) : Cell (RubyObject O) := ⟨c.slot.or c.value, none, c.filled⟩

omit [DecidableEq O] in
theorem drain_of_slot {c : Cell (RubyObject O)} (h : c.slot = none) : drain c = c := by
  obtain ⟨value, slot, filled⟩ := c
  subst h
  rfl

/-- **`fillRackKey`** takes out what waits for its key. -/
theorem cell_fillRackKey (k' : RubyKey O) :
    (env.fillRackKey key).cell k' =
      if RubyKey.string key = k' then drain (env.cell k') else env.cell k' := by
  rcases fillRackKey_cases env key with ⟨hs, he⟩ | ⟨rackKey, v, hk, hs, he⟩
  · by_cases h : RubyKey.string key = k'
    · subst h
      rw [he, if_pos rfl, drain_of_slot hs]
    · rw [he, if_neg h]
  · by_cases h : RubyKey.string key = k'
    · subst h
      rw [he, if_pos rfl]
      simp only [cell, drain, hs, Option.some_or, AList.lookup_insert]
      simp only [slot, hk, Option.bind_some, Function.update_self, Option.map_none]
    · have hslot := slot_update_of_ne env hk h (env.table.insert (.string key) v)
      rw [he, if_neg h]
      simp only [cell, AList.lookup_insert_ne (Ne.symm h), hslot]

omit [DecidableEq O] in
/-- A slot belongs to a rack key. -/
theorem slot_of_notMem {k' : RubyKey O}
    (h : ∀ key ∈ populateRackKeyMap.map Prod.fst, RubyKey.string key ≠ k') :
    env.slot k' = none := by
  cases k' with
  | other o => rfl
  | string k =>
    have hk : rackKeyMap k = none := by
      rw [rackKeyMap, List.lookup_eq_none_iff]
      intro p hp
      have := h p.1 (List.mem_map_of_mem hp)
      rw [bne_iff_ne]
      exact fun he => this (congrArg RubyKey.string he.symm)
    simp only [slot, hk, Option.bind_none]

/-- Several keys. -/
theorem cell_foldl_fillRackKey (keys : List StringKey) (k' : RubyKey O) :
    (keys.foldl fillRackKey env).cell k' =
      if ∃ key ∈ keys, RubyKey.string key = k' then drain (env.cell k') else env.cell k' := by
  induction keys generalizing env with
  | nil => simp
  | cons key keys ih =>
    rw [List.foldl_cons, ih, cell_fillRackKey]
    by_cases h : RubyKey.string key = k'
    · have hmem : ∃ key' ∈ key :: keys, RubyKey.string key' = k' := ⟨key, List.mem_cons_self, h⟩
      rw [if_pos h, if_pos hmem]
      split
      · exact drain_of_slot rfl
      · rfl
    · rw [if_neg h]
      simp only [List.mem_cons, exists_eq_or_imp, h, false_or]

/-- All rack keys: every slot is emptied into the table. -/
theorem cell_fillRackKeys (k' : RubyKey O) :
    ((populateRackKeyMap.map Prod.fst).foldl fillRackKey env).cell k' = drain (env.cell k') := by
  rw [cell_foldl_fillRackKey]
  split
  · rfl
  · rename_i h
    exact (drain_of_slot (slot_of_notMem fun key hkey he => h ⟨key, hkey, he⟩)).symm

/-! ## Filling one key -/

/-- What a fill leaves alone. -/
structure Frame (env env' : RackEnvironmentHash O) : Prop where
  headers : env'.headers = env.headers
  headerKeyMap : env'.headerKeyMap = env.headerKeyMap
  filledEntireHash : env'.filledEntireHash = env.filledEntireHash
  filledHeaderKeyMap : env'.filledHeaderKeyMap = env.filledHeaderKeyMap

theorem frame_fillRackKey (env : RackEnvironmentHash O) (key : StringKey) :
    Frame env (env.fillRackKey key) := by
  rcases fillRackKey_cases env key with ⟨-, he⟩ | ⟨rackKey, v, -, -, he⟩ <;> rw [he] <;>
    exact ⟨rfl, rfl, rfl, rfl⟩

theorem frame_foldl_fillRackKey (env : RackEnvironmentHash O) (keys : List StringKey) :
    Frame env (keys.foldl fillRackKey env) := by
  induction keys generalizing env with
  | nil => exact ⟨rfl, rfl, rfl, rfl⟩
  | cons key keys ih =>
    obtain ⟨h₁, h₂, h₃, h₄⟩ := frame_fillRackKey env key
    obtain ⟨h₁', h₂', h₃', h₄'⟩ := ih (env.fillRackKey key)
    exact ⟨h₁'.trans h₁, h₂'.trans h₂, h₃'.trans h₃, h₄'.trans h₄⟩

theorem cell_put (v : RubyObject O) (k' : RubyKey O) :
    (env.put key v).cell k' =
      if RubyKey.string key = k' then { env.cell k' with value := some v } else env.cell k' := by
  by_cases h : RubyKey.string key = k'
  · subst h
    rw [if_pos rfl, cell, put, AList.lookup_insert]
    rfl
  · rw [if_neg h, cell, put, AList.lookup_insert_ne (Ne.symm h)]
    rfl

/-- Storing what was found, if anything was. -/
theorem cell_elim_put (o : Option (RubyObject O)) (k' : RubyKey O) :
    (o.elim env fun v => env.put key v).cell k' =
      if RubyKey.string key = k' then { env.cell k' with value := o.or (env.cell k').value }
      else env.cell k' := by
  cases o with
  | none => split <;> rfl
  | some v => rw [Option.elim_some, cell_put, Option.some_or]

omit [DecidableEq O] in
theorem populated_of_sound (hs : Sound env) (hf : env.filledEntireHash = false) :
    ∃ m, (if env.filledHeaderKeyMap then env else env.populateHeaderKeyMap) =
        { env with headerKeyMap := m, filledHeaderKeyMap := true } ∧
      ∀ k, m.lookup k = (mapped env.headers k).getLast? := by
  cases hp : env.filledHeaderKeyMap with
  | true =>
    refine ⟨env.headerKeyMap, ?_, hs.populated hf hp⟩
    rw [if_pos rfl, ← hp]
  | false =>
    refine ⟨env.headers.names.foldl (fun m name => m.insert (rubyKey name) name) env.headerKeyMap,
      ?_, fun k => ?_⟩
    · rw [if_neg (by simp), populateHeaderKeyMap_eq]
    · rw [hs.empty hf hp, lookup_foldl_insert, AList.lookup_empty, Option.or_none]
      rfl

/-- A header key is filled with what the last of its names brings. -/
theorem fillHeaderKey_eq (h : env.headerKeyMap.lookup key = (mapped env.headers key).getLast?) :
    env.fillHeaderKey key = (singleValue env.headers key).elim env fun v => env.put key v := by
  unfold fillHeaderKey singleValue
  rw [h]
  cases (mapped env.headers key).getLast? with
  | none => rfl
  | some name => rw [Option.bind_some, ← fillHeaderKey'_eq]

/-- **What `fillKey` does**: nothing where the entire hash is filled, the
key is there or it is no string; else it fills the key from the headers or
from the rack values, with the header key map populated. -/
theorem fillKey_cases (hs : Sound env) (key : RubyKey O) :
    (env.fillKey key = env ∧
      (env.filledEntireHash = true ∨ (env.table.lookup key).isSome = true ∨ ∃ o, key = .other o)) ∨
    ∃ k m, key = .string k ∧ env.filledEntireHash = false ∧ env.table.lookup key = none ∧
      (∀ k, m.lookup k = (mapped env.headers k).getLast?) ∧
      env.fillKey key =
        if isHeaderKey k.bytes then
          fillHeaderKey { env with headerKeyMap := m, filledHeaderKeyMap := true } k
        else fillRackKey { env with headerKeyMap := m, filledHeaderKeyMap := true } k := by
  unfold fillKey
  cases hf : env.filledEntireHash with
  | true => exact Or.inl ⟨rfl, Or.inl rfl⟩
  | false =>
    cases key with
    | other o => exact Or.inl ⟨rfl, Or.inr (Or.inr ⟨o, rfl⟩)⟩
    | string k =>
      cases hv : env.table.lookup (.string k) with
      | some v => exact Or.inl ⟨rfl, Or.inr (Or.inl rfl)⟩
      | none =>
        obtain ⟨m, hm, hlookup⟩ := populated_of_sound hs hf
        refine Or.inr ⟨k, m, rfl, rfl, rfl, hlookup, ?_⟩
        simp only [Bool.false_eq_true, if_false, Option.isSome_none, hm, hf]

/-- A key that is no string is not filled. -/
theorem touch_other (o : O) :
    (env.cell (.other o)).touch (origin env.headers (.other o)) = env.cell (.other o) := by
  rcases Cell.touch_cases (origin env.headers (.other o)) (env.cell (.other o)) with
    ⟨-, h⟩ | ⟨hf, hv, ⟨h, -⟩ | ⟨-, h⟩⟩
  · exact h
  · cases h
  · rw [h]
    change (⟨none, none, false⟩ : Cell (RubyObject O)) = ⟨(env.cell (.other o)).value, none,
      (env.cell (.other o)).filled⟩
    rw [hv, hf]

/-- **`fillKey`** touches its key's cell, and no other. -/
theorem cell_fillKey (hs : Sound env) (key k' : RubyKey O) :
    (env.fillKey key).cell k' =
      if key = k' then (env.cell k').touch (origin env.headers k') else env.cell k' := by
  rcases fillKey_cases hs key with ⟨he, hwhy⟩ | ⟨k, m, rfl, hf, hv, hm, he⟩
  · rw [he]
    split
    · rename_i h
      subst h
      rcases hwhy with hf | hv | ⟨o, rfl⟩
      · exact (Cell.touch_of_filled hf).symm
      · obtain ⟨v, hv⟩ := Option.isSome_iff_exists.mp hv
        exact (Cell.touch_of_some hv).symm
      · exact (touch_other o).symm
    · rfl
  · have hfilled : (env.cell (.string k)).filled = false := hf
    have hvalue : (env.cell (.string k)).value = none := hv
    rw [he]
    cases hh : isHeaderKey k.bytes with
    | true =>
      rw [if_pos rfl, fillHeaderKey_eq (hm k), cell_elim_put]
      split
      · rename_i h
        subst h
        rw [Cell.touch_of_sourced hfilled hvalue hh]
        change (⟨(singleValue env.headers k).or (env.cell (.string k)).value,
          (env.cell (.string k)).slot, (env.cell (.string k)).filled⟩ : Cell _) = _
        rw [hvalue, hfilled, Option.or_none]
        rfl
      · rfl
    | false =>
      rw [if_neg (by simp), cell_fillRackKey]
      split
      · rename_i h
        subst h
        rw [Cell.touch_of_slot hfilled hvalue hh]
        change drain (env.cell (.string k)) = _
        rw [drain, hvalue, hfilled, Option.or_none]
      · rfl

theorem frame_elim_put (o : Option (RubyObject O)) :
    Frame env (o.elim env fun v => env.put key v) := by
  cases o <;> exact ⟨rfl, rfl, rfl, rfl⟩

/-- `fillKey` keeps the header key map as it is to be. -/
theorem sound_fillKey (hs : Sound env) (key : RubyKey O) :
    Sound (env.fillKey key) ∧ (env.fillKey key).headers = env.headers := by
  rcases fillKey_cases hs key with ⟨he, -⟩ | ⟨k, m, rfl, hf, -, hm, he⟩
  · rw [he]
    exact ⟨hs, rfl⟩
  · have hframe : Frame { env with headerKeyMap := m, filledHeaderKeyMap := true }
        (env.fillKey (.string k)) := by
      rw [he]
      split
      · rw [fillHeaderKey_eq (hm k)]
        exact frame_elim_put _
      · exact frame_fillRackKey _ _
    refine ⟨⟨fun _ hp => ?_, fun _ _ k' => ?_⟩, hframe.headers⟩
    · rw [hframe.filledHeaderKeyMap] at hp
      cases hp
    · rw [hframe.headerKeyMap, hframe.headers]
      exact hm k'

/-! ## Filling the entire hash -/

/-- What some names bring to a key: the last value of theirs. -/
def lastValue (headers : MultiMap) (names : List JString) : RubyKey O → Option (RubyObject O)
  | .string k => ((names.filter (rubyKey · = k)).filterMap (headerValue headers)).getLast?
  | .other _ => none

theorem cell_fillHeaderName (name : JString) (k' : RubyKey O) :
    (env.fillHeaderName name).cell k' =
      if RubyKey.string (rubyKey name) = k' then
        { env.cell k' with value := (headerValue env.headers name).or (env.cell k').value }
      else env.cell k' := by
  rw [fillHeaderName, fillHeaderKey'_eq, cell_elim_put]
  rfl

theorem headers_fillHeaderName (name : JString) :
    (env.fillHeaderName name).headers = env.headers := by
  rw [fillHeaderName, fillHeaderKey'_eq]
  cases headerValue (O := O) (env.putHeaderKey (rubyKey name) name).headers name <;> rfl

theorem headers_foldl_fillHeaderName (names : List JString) :
    (names.foldl fillHeaderName env).headers = env.headers := by
  induction names generalizing env with
  | nil => rfl
  | cons name names ih => rw [List.foldl_cons, ih, headers_fillHeaderName]

/-- Several names: each key has the last value they bring. -/
theorem cell_foldl_fillHeaderName (env : RackEnvironmentHash O) (names : List JString)
    (k' : RubyKey O) :
    (names.foldl fillHeaderName env).cell k' =
      { env.cell k' with value := (lastValue env.headers names k').or (env.cell k').value } := by
  induction names generalizing env with
  | nil => cases k' <;> rfl
  | cons name names ih =>
    rw [List.foldl_cons, ih, headers_fillHeaderName, cell_fillHeaderName]
    cases k' with
    | other o => rfl
    | string k =>
      simp only [lastValue, List.filter_cons]
      by_cases h : rubyKey name = k
      · rw [if_pos (congrArg _ h), if_pos (by simpa using h), List.filterMap_cons]
        cases headerValue (O := O) env.headers name with
        | none => rfl
        | some v =>
          rw [List.getLast?_cons]
          cases ((names.filter (rubyKey · = k)).filterMap
            (headerValue (O := O) env.headers)).getLast? <;> rfl
      · rw [if_neg (fun he => h (RubyKey.string.inj he)), if_neg (by simpa using h)]

omit [DecidableEq O] in
theorem lastValue_names (headers : MultiMap) (k' : RubyKey O) :
    lastValue headers headers.names k' = (origin headers k').whole := by
  cases k' <;> rfl

/-- **`fillEntireHash`** fills every key's cell. -/
theorem cell_fillEntireHash (k' : RubyKey O) :
    env.fillEntireHash.cell k' = (env.cell k').fill (origin env.headers k') := by
  unfold fillEntireHash
  cases hf : env.filledEntireHash with
  | true => exact (Cell.fill_of_filled hf).symm
  | false =>
    have hheaders := (frame_foldl_fillRackKey env (populateRackKeyMap.map Prod.fst)).headers
    have hcell := cell_foldl_fillHeaderName
      ((populateRackKeyMap.map Prod.fst).foldl fillRackKey env) env.headers.names k'
    rw [hheaders, cell_fillRackKeys, lastValue_names] at hcell
    simp only [Bool.false_eq_true, if_false, hheaders]
    rw [Cell.fill_of_not_filled hf]
    obtain ⟨hvalue, hrest⟩ := Cell.mk.inj hcell
    rw [cell]
    exact congrArg₂ (fun v s => (⟨v, s, true⟩ : Cell (RubyObject O))) hvalue hrest.1

theorem sound_fillEntireHash (env : RackEnvironmentHash O) :
    Sound env.fillEntireHash ∧ env.fillEntireHash.headers = env.headers := by
  unfold fillEntireHash
  cases hf : env.filledEntireHash with
  | true => exact ⟨.of_filled hf, rfl⟩
  | false =>
    have hheaders := (frame_foldl_fillRackKey env (populateRackKeyMap.map Prod.fst)).headers
    refine ⟨.of_filled rfl, ?_⟩
    simp only [Bool.false_eq_true, if_false]
    rw [headers_foldl_fillHeaderName, hheaders]

end RackEnvironmentHash

end RackEnv

end Jubilee
