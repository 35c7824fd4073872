import Jubilee.RackEnv.Cells
/-!
# Rack env — one key, or the whole hash

A read of one key fills that key, from the headers if it starts with
`HTTP_` and from the rack values if not; a read of the whole hash fills
every key from both. `reads_agree_iff` says for which keys the two ways
meet, and the answer to a read does not depend on the reads before it.
-/

namespace Jubilee

namespace RackEnv

variable {O : Type*} [DecidableEq O]

/-- The reads of a single key. -/
def singleReads (key : RubyKey O) : List (Op O) := [.opAref key, .fetch key, .hasKeyP key]

/-- The call changes nothing in a hash that is filled. -/
def Op.Reads : Op O → Prop
  | .opAref _ | .fetch _ | .hasKeyP _ => True
  | .opAset _ _ | .delete _ => False
  | .whole method => ∀ k v, method.base.onKey k v = v

/-- Read alone, the key is what it is in the filled hash. -/
def Agrees (env : RackEnvironmentHash O) (key : RubyKey O) : Prop :=
  ∀ op ∈ singleReads key, (env.call op).1 = (op.super env.fillEntireHash.table).1

/-- Whatever was read before, a read of the key alone gives the same
answer, and a read of the whole hash has the same there. -/
def Independent (env : RackEnvironmentHash O) (key : RubyKey O) : Prop :=
  ∀ ops : List (Op O), (∀ op ∈ ops, op.Reads) →
    (∀ op ∈ singleReads key, ((env.run ops).call op).1 = (env.call op).1) ∧
      (env.run ops).fillEntireHash.table.lookup key = env.fillEntireHash.table.lookup key

/-- The key is filled alike both ways. A header key: no rack value waits
for it unless a header brings a value, and the last name that maps to it
is not one of the excluded two unless all are. Any other key: no header
maps to it. -/
def FilledAlike (headers : MultiMap) (values : List (RackKey × Option (LazyValue O) × Bool))
    (k : StringKey) : Prop :=
  if isHeaderKey k.bytes then
    match (mapped headers k).getLast? with
    | none => rackValue values (.string k) = none
    | some last => Excluded last →
      (∀ name ∈ mapped headers k, Excluded name) ∧ rackValue values (.string k) = none
  else mapped headers k = []

variable {headers : MultiMap} {k : StringKey}

/-! ## What the headers bring -/

omit [DecidableEq O] in
/-- A listed name that is not excluded brings a value. -/
theorem exists_headerValue {name : JString} (hn : name ∈ headers.names) (he : ¬ Excluded name) :
    ∃ v : RubyObject O, headerValue headers name = some v := by
  obtain ⟨f, hf, rfl⟩ := List.mem_map.mp (headers.mem_fields_of_mem_names name hn)
  have hmem : f.2 ∈ headers.getAll f.1 :=
    List.mem_map_of_mem (List.mem_filter.mpr ⟨hf, equalsIgnoreCase_self f.1⟩)
  rw [headerValue, if_neg he]
  cases hall : headers.getAll f.1 with
  | nil => rw [hall] at hmem; cases hmem
  | cons v vs => exact ⟨_, rfl⟩

omit [DecidableEq O] in
theorem headerValue_of_excluded {name : JString} (he : Excluded name) :
    headerValue (O := O) headers name = none := if_pos he

omit [DecidableEq O] in
/-- Filling the entire hash finds nothing just where every name is
excluded. -/
theorem wholeValue_eq_none_iff :
    wholeValue (O := O) headers k = none ↔ ∀ name ∈ mapped headers k, Excluded name := by
  rw [wholeValue, List.getLast?_eq_none_iff, List.filterMap_eq_nil_iff]
  refine forall₂_congr fun name hname => ⟨fun h => ?_, headerValue_of_excluded⟩
  by_contra he
  obtain ⟨v, hv⟩ := exists_headerValue (O := O) (List.mem_filter.mp hname).1 he
  rw [hv] at h
  cases h

theorem isHeaderKey_rubyKey (name : JString) :
    isHeaderKey (rubyKey name).bytes = true ↔ name ≠ [] := by
  rw [isHeaderKey, bytes_rubyKey]
  simp [httpPrefix, List.length_pos_iff]

/-- Only a header without a name maps to a key that is not a header
key. -/
theorem mapped_of_not_isHeaderKey (hk : isHeaderKey k.bytes = false) {name : JString}
    (hname : name ∈ mapped headers k) : name = [] ∧ k = rubyKey [] := by
  have hkey : rubyKey name = k := by simpa using (List.mem_filter.mp hname).2
  have hnil : name = [] := by
    by_contra hne
    rw [← hkey, (isHeaderKey_rubyKey name).mpr hne] at hk
    cases hk
  exact ⟨hnil, by rw [← hkey, hnil]⟩

/-! ## The two fills of a fresh hash -/

variable {values : List (RackKey × Option (LazyValue O) × Bool)}

omit [DecidableEq O] in
/-- **Where the two fills meet**: what touching the key finds is what the
full fill leaves. -/
theorem filledAlike_iff :
    (if isHeaderKey k.bytes then singleValue headers k else rackValue values (.string k)) =
        (wholeValue headers k).or (rackValue values (.string k)) ↔
      FilledAlike headers values k := by
  unfold FilledAlike
  cases hk : isHeaderKey k.bytes with
  | true =>
    simp only [if_true]
    cases hlast : (mapped headers k).getLast? with
    | none =>
      have hnil := List.getLast?_eq_none_iff.mp hlast
      rw [singleValue, wholeValue, hnil]
      exact eq_comm
    | some last =>
      have hmem := List.mem_of_getLast? hlast
      by_cases he : Excluded last
      · have hsingle : singleValue (O := O) headers k = none := by
          rw [singleValue, hlast, Option.bind_some, headerValue_of_excluded he]
        rw [hsingle, eq_comm, Option.or_eq_none_iff, wholeValue_eq_none_iff]
        exact ⟨fun h _ => h, fun h => h he⟩
      · obtain ⟨v, hv⟩ := exists_headerValue (O := O) (List.mem_filter.mp hmem).1 he
        have hsingle : singleValue (O := O) headers k = some v := by
          rw [singleValue, hlast, Option.bind_some, hv]
        rw [hsingle, wholeValue_of_singleValue hsingle, Option.some_or]
        exact ⟨fun _ h => absurd h he, fun _ => rfl⟩
  | false =>
    simp only [Bool.false_eq_true, if_false]
    constructor
    · intro h
      by_contra hne
      obtain ⟨name, hname⟩ := List.exists_mem_of_ne_nil _ hne
      obtain ⟨rfl, rfl⟩ := mapped_of_not_isHeaderKey hk hname
      have hrack : rackValue values (.string (rubyKey [])) = none := by
        have hnone : rackKeyMap (rubyKey []) = none := by decide
        rw [rackValue, hnone, Option.bind_none]
      rw [hrack, Option.or_none, eq_comm, wholeValue_eq_none_iff] at h
      exact absurd (h [] hname) (by decide)
    · intro h
      rw [wholeValue, h]
      rfl

/-! ## Reads of one key -/

open RackEnvironmentHash

variable {env : RackEnvironmentHash O} {key : RubyKey O}

/-- A read of one key answers by what it finds there. -/
theorem super_singleRead {op : Op O} (h : op ∈ singleReads key) :
    ∃ answer : Option (RubyObject O) → Answer O, ∀ t, (op.super t).1 = answer (t.lookup key) := by
  simp only [singleReads, List.mem_cons, List.not_mem_nil, or_false] at h
  rcases h with rfl | rfl | rfl
  · exact ⟨.value, fun _ => rfl⟩
  · exact ⟨.value, fun _ => rfl⟩
  · exact ⟨fun v => .found v.isSome, fun _ => rfl⟩

theorem call_singleRead {op : Op O} (h : op ∈ singleReads key) (env : RackEnvironmentHash O) :
    (env.call op).1 = (op.super (env.fillKey key).table).1 := by
  simp only [singleReads, List.mem_cons, List.not_mem_nil, or_false] at h
  rcases h with rfl | rfl | rfl <;> rfl

/-- What is the same after touching the key and after the full fill is
read the same. -/
theorem agrees_iff (hs : Sound env) :
    Agrees env key ↔
      ((env.cell key).touch (origin env.headers key)).value =
        (env.cell key).final (origin env.headers key) := by
  rw [← lookup_fillKey hs, ← lookup_fillEntireHash]
  constructor
  · intro h
    have hread := h (.opAref key) List.mem_cons_self
    rw [call_singleRead List.mem_cons_self] at hread
    exact Answer.value.inj hread
  · intro h op hop
    obtain ⟨answer, ha⟩ := super_singleRead hop
    rw [call_singleRead hop, ha, ha, h]

/-- A read keeps every entry. -/
theorem Op.Reads.keeps {op : Op O} (h : op.Reads) (key : RubyKey O) : op.Keeps key := by
  cases op with
  | opAref k | fetch k | hasKeyP k => trivial
  | opAset k v | delete k => exact h.elim
  | whole method => exact h key

/-- **Answers do not depend on earlier reads** just where the key is read
the same alone and in the filled hash. -/
theorem independent_iff_agrees (hs : Sound env) :
    Independent env key ↔ Agrees env key := by
  constructor
  · intro h op hop
    have hreads : ∀ op ∈ [Op.whole (.inspect : Override O)], op.Reads := by
      simp [Op.Reads, Override.base, BaseOp.read]
    obtain ⟨answer, ha⟩ := super_singleRead hop
    have hrun := lookup_fillKey_run hs fun op hop => (hreads op hop).keeps key
    rw [← (h _ hreads).1 op hop, call_singleRead hop, ha, ha, hrun]
    simp [Op.isWhole]
  · intro h ops hops
    have hkeeps := fun op hop => (hops op hop).keeps key
    refine ⟨fun op hop => ?_, lookup_fillEntireHash_run hs hkeeps⟩
    · obtain ⟨answer, ha⟩ := super_singleRead hop
      have hagree := h op hop
      rw [call_singleRead hop] at hagree ⊢
      rw [call_singleRead hop, ha, lookup_fillKey_run hs hkeeps]
      split
      · rw [hagree, ha]
      · rw [ha]

/-- **Exactly for which keys the two ways of reading meet**, and reads do
not depend on each other. -/
theorem reads_agree_iff (headers : MultiMap)
    (values : List (RackKey × Option (LazyValue O) × Bool)) (k : StringKey) :
    (Agrees (fresh headers values) (.string k) ↔ FilledAlike headers values k) ∧
      (Independent (fresh headers values) (.string k) ↔ FilledAlike headers values k) := by
  obtain ⟨hs, hheaders⟩ := sound_fresh headers values
  have hagrees : Agrees (fresh headers values) (.string k) ↔ FilledAlike headers values k := by
    rw [agrees_iff hs, hheaders, cell_fresh, Cell.value_touch_start, Cell.final_start]
    exact filledAlike_iff
  exact ⟨hagrees, (independent_iff_agrees hs).trans hagrees⟩

/-- A request without headers. -/
def noHeaders : MultiMap := ⟨[], [], by simp, by simp, by simp⟩

/-- The env of such a request, with the rack value that is stored under a
key starting with `HTTP_`. -/
def versionEnv : RackEnvironmentHash Empty :=
  fresh noHeaders [(.httpVersion, some (.string "1.1".toList), true)]

/-- `HTTP_VERSION`. -/
def httpVersionKey : RubyKey Empty :=
  .string (RubyHelper.toUnicodeRubyString "HTTP_VERSION".toList).toKey

/-- Read alone `HTTP_VERSION` is absent: its rack value is found by the
full fill only. -/
theorem http_version_disagrees :
    (versionEnv.fillKey httpVersionKey).table.lookup httpVersionKey = none ∧
    versionEnv.fillEntireHash.table.lookup httpVersionKey =
      some (.string ⟨[49, 46, 49], .usAscii⟩) ∧
    ¬ Agrees versionEnv httpVersionKey ∧ ¬ Independent versionEnv httpVersionKey := by
  have hsingle : (versionEnv.fillKey httpVersionKey).table.lookup httpVersionKey = none := by
    decide
  have hwhole : versionEnv.fillEntireHash.table.lookup httpVersionKey =
      some (.string ⟨[49, 46, 49], .usAscii⟩) := by
    decide
  have hagrees : ¬ Agrees versionEnv httpVersionKey := by
    intro h
    have hread := h (.opAref httpVersionKey) List.mem_cons_self
    rw [call_singleRead List.mem_cons_self] at hread
    have hlookup := Answer.value.inj hread
    rw [hsingle, hwhole] at hlookup
    cases hlookup
  refine ⟨hsingle, hwhole, hagrees, fun h => hagrees ?_⟩
  exact (independent_iff_agrees (sound_fresh _ _).1).mp h

end RackEnv

end Jubilee
