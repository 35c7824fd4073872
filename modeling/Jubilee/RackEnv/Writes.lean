import Jubilee.RackEnv.Cells
/-!
# Rack env — what the application wrote or deleted

A key that starts with `HTTP_` has two ways to come back: a read of the
key alone fills it when it is missing, and the first method that fills
the entire hash stores what the request declares for it over whatever is
there. `write_kept_iff` and `delete_kept_iff` say exactly when neither
undoes an assignment or a deletion.
-/

namespace Jubilee

namespace RackEnv

variable {O : Type*} [DecidableEq O]

open RackEnvironmentHash

/-- What the request declares for a key: the last value that a header
brings, or else the rack value stored for it. -/
def declared (headers : MultiMap) (values : List (RackKey × Option (LazyValue O) × Bool))
    (k : StringKey) : Option (RubyObject O) :=
  (wholeValue headers k).or (rackValue values (.string k))

/-- `keys`. -/
def RackEnvironmentHash.keys (env : RackEnvironmentHash O) : List (RubyKey O) :=
  env.fillEntireHash.table.keys

variable {headers : MultiMap} {values : List (RackKey × Option (LazyValue O) × Bool)}
  {k : StringKey}

/-- A key that starts with `HTTP_` is filled from the headers, or no rack
value is stored for it. -/
theorem isHeaderKey_or_rackKeyMap (hk : httpPrefix <+: k.bytes) :
    isHeaderKey k.bytes = true ∨ rackKeyMap k = none := by
  have htable : ∀ p ∈ populateRackKeyMap,
      httpPrefix <+: p.1.bytes → isHeaderKey p.1.bytes = true := by decide
  cases hr : rackKeyMap k with
  | none => exact Or.inr rfl
  | some rackKey => exact Or.inl (htable (k, rackKey) (mem_of_rackKeyMap hr) hk)

/-- Until the entire hash is filled, the rack value of such a key waits. -/
theorem slot_run (hk : httpPrefix <+: k.bytes) {ops : List (Op O)}
    (hw : ops.any Op.isWhole = false) :
    (((fresh headers values).run ops).cell (.string k)).slot = rackValue values (.string k) := by
  obtain ⟨hs, hheaders⟩ := sound_fresh headers values
  rw [cell_run hs, hheaders, cell_fresh]
  rcases isHeaderKey_or_rackKeyMap hk with hh | hr
  · rw [← any_isWhole_onKey ops (.string k)] at hw
    rw [Cell.slot_run_of_sourced (o := origin headers (.string k)) hh hw]
  · have hnone : rackValue values (.string k) = none := by
      rw [rackValue, hr, Option.bind_none]
    rcases Cell.slot_run (origin headers (.string k)) ⟨none, rackValue values (.string k), false⟩
      (ops.map (Op.onKey (.string k))) with h | h
    · exact h
    · rw [h, hnone]

theorem filled_run (ops : List (Op O)) :
    ((fresh headers values).run ops).filledEntireHash = ops.any Op.isWhole := by
  obtain ⟨hs, hheaders⟩ := sound_fresh headers values
  have h := congrArg Cell.filled (cell_run hs ops (.string (rubyKey [])))
  rwa [cell_fresh, Cell.filled_run, any_isWhole_onKey, Bool.false_or] at h

/-- **What the full fill leaves of a key** that now holds `v`: `v`, if the
hash was filled before, and else what the request declares, if it declares
anything. -/
theorem lookup_fillEntireHash_of_http (hk : httpPrefix <+: k.bytes) {ops : List (Op O)}
    {v : Option (RubyObject O)}
    (hv : ((fresh headers values).run ops).table.lookup (.string k) = v) :
    ((fresh headers values).run ops).fillEntireHash.table.lookup (.string k) =
      if ops.any Op.isWhole then v else (declared headers values k).or v := by
  obtain ⟨hs, hheaders⟩ := sound_fresh headers values
  have hfilled : ((fresh headers values).run ops).filledEntireHash = ops.any Op.isWhole :=
    filled_run ops
  rw [lookup_fillEntireHash, (sound_run hs ops).2, hheaders]
  cases hw : ops.any Op.isWhole with
  | true =>
    rw [Cell.final_of_filled (hfilled.trans hw), if_pos rfl]
    exact hv
  | false =>
    rw [Cell.final_of_not_filled (hfilled.trans hw), slot_run hk hw, if_neg (by simp), declared,
      Option.or_assoc]
    exact congrArg (fun v => (wholeValue headers k).or ((rackValue values (.string k)).or v)) hv

/-! ## Assignments -/

/-- **Exactly when an assignment is kept**: the entire hash was filled
before it, or is not filled after it, or the request declares nothing else
for the key. -/
theorem write_kept_iff (headers : MultiMap)
    (values : List (RackKey × Option (LazyValue O) × Bool)) (before after : List (Op O))
    {k : StringKey} (hk : httpPrefix <+: k.bytes) (v : RubyObject O)
    (hafter : ∀ op ∈ after, op.Keeps (.string k)) :
    (((fresh headers values).run (before ++ .opAset (.string k) v :: after)).call
        (.opAref (.string k))).1 = .value (some v) ↔
      before.any Op.isWhole = true ∨ after.any Op.isWhole = false ∨
        declared headers values k = none ∨ declared headers values k = some v := by
  obtain ⟨hs, -⟩ := sound_run (sound_fresh headers values).1 (before ++ [.opAset (.string k) v])
  have hlookup : ((fresh headers values).run (before ++ [.opAset (.string k) v])).table.lookup
      (.string k) = some v := by
    rw [run_append]
    exact AList.lookup_insert _
  have htouch : (((fresh headers values).run (before ++ [.opAset (.string k) v])).fillKey
      (.string k)).table.lookup (.string k) = some v := by
    rw [lookup_fillKey hs, Cell.touch_of_some hlookup]
    exact hlookup
  have hwhole : (before ++ [Op.opAset (.string k) v]).any Op.isWhole = before.any Op.isWhole := by
    simp [Op.isWhole]
  rw [List.append_cons, run_append]
  rw [call_opAref, Answer.value.injEq, lookup_fillKey_run hs hafter, filled_run,
    lookup_fillEntireHash_of_http hk hlookup, htouch, hwhole]
  cases before.any Op.isWhole with
  | true => simp
  | false =>
    cases after.any Op.isWhole with
    | false => simp
    | true => cases declared headers values k <;> simp

/-- A request with an `Accept` header. -/
def acceptHeaders : MultiMap :=
  ⟨[("Accept".toList, "a".toList)], ["Accept".toList], by decide, by decide, by decide⟩

/-- Its env. -/
abbrev acceptEnv : RackEnvironmentHash Empty := fresh acceptHeaders []

/-- `HTTP_ACCEPT`. -/
def httpAccept : StringKey := rubyKey "Accept".toList

/-- A string value. -/
def text (s : String) : RubyObject Empty :=
  .string (RubyHelper.toUnicodeRubyString s.toList)

/-- Read back at once, what was assigned to `HTTP_ACCEPT` is there. -/
theorem write_kept_at_once :
    ((acceptEnv.run [.opAset (.string httpAccept) (text "b")]).call
      (.opAref (.string httpAccept))).1 = .value (some (text "b")) :=
  (write_kept_iff acceptHeaders [] [] [] (k := httpAccept) (by decide) (text "b") (by simp)).mpr
    (Or.inr (Or.inl rfl))

/-- After a first `size` it is not: the header's value is. -/
theorem write_lost :
    (acceptEnv.run
      [.opAset (.string httpAccept) (text "b"), .whole .rbSize]).table.lookup
        (.string httpAccept) = some (text "a") ∧
    ((acceptEnv.run
      [.opAset (.string httpAccept) (text "b"), .whole .rbSize]).call
        (.opAref (.string httpAccept))).1 ≠ .value (some (text "b")) := by
  refine ⟨by decide, ?_⟩
  rw [call_opAref, ne_eq, Answer.value.injEq]
  decide

/-! ## Deletions -/

/-- The hash shows no trace of the key. -/
def Gone (env : RackEnvironmentHash O) (key : RubyKey O) : Prop :=
  (env.call (.opAref key)).1 = .value none ∧ (env.call (.hasKeyP key)).1 = .found false ∧
    key ∉ env.keys

/-- The full fill leaves nothing just where there is no trace. -/
theorem gone_iff {env : RackEnvironmentHash O} (hs : Sound env) (key : RubyKey O) :
    Gone env key ↔ env.fillEntireHash.table.lookup key = none := by
  have hkeys : key ∉ env.keys ↔ env.fillEntireHash.table.lookup key = none := by
    rw [RackEnvironmentHash.keys, ← AList.mem_keys, AList.lookup_eq_none]
  constructor
  · exact fun h => hkeys.mp h.2.2
  · intro h
    have htouch : (env.fillKey key).table.lookup key = none := by
      rw [lookup_fillEntireHash] at h
      rw [lookup_fillKey hs, Cell.value_touch_eq_none h]
    exact ⟨by rw [call_opAref, htouch], by rw [call_hasKeyP, htouch]; rfl, hkeys.mpr h⟩

/-- **Exactly when a deletion is kept**: the entire hash was filled before
it, or the request declares nothing for the key. -/
theorem delete_kept_iff (headers : MultiMap)
    (values : List (RackKey × Option (LazyValue O) × Bool)) (before after : List (Op O))
    {k : StringKey} (hk : httpPrefix <+: k.bytes)
    (hafter : ∀ op ∈ after, op.Keeps (.string k)) :
    Gone ((fresh headers values).run (before ++ .delete (.string k) :: after)) (.string k) ↔
      before.any Op.isWhole = true ∨ declared headers values k = none := by
  obtain ⟨hs, -⟩ := sound_run (sound_fresh headers values).1 (before ++ [.delete (.string k)])
  have hlookup : ((fresh headers values).run (before ++ [.delete (.string k)])).table.lookup
      (.string k) = none := by
    rw [run_append]
    exact AList.lookup_erase _ _
  have hwhole : (before ++ [Op.delete (.string k)]).any Op.isWhole = before.any Op.isWhole := by
    simp [Op.isWhole]
  rw [List.append_cons, run_append, gone_iff (sound_run hs after).1,
    lookup_fillEntireHash_run hs hafter, lookup_fillEntireHash_of_http hk hlookup, hwhole,
    Option.or_none]
  cases before.any Op.isWhole <;> simp

/-- Deleted after a `size`, `HTTP_ACCEPT` stays away. -/
theorem delete_kept_after_size :
    Gone (acceptEnv.run [.whole .rbSize, .delete (.string httpAccept)])
      (.string httpAccept) :=
  (delete_kept_iff acceptHeaders [] [.whole .rbSize] [] (k := httpAccept) (by decide)
    (by simp)).mpr (Or.inl rfl)

/-- Deleted at once, it is back with the next read. -/
theorem delete_undone :
    ((acceptEnv.run [.delete (.string httpAccept)]).call
      (.opAref (.string httpAccept))).1 = .value (some (text "a")) ∧
    ¬ Gone (acceptEnv.run [.delete (.string httpAccept)]) (.string httpAccept) := by
  have hread : ((acceptEnv.run [.delete (.string httpAccept)]).call
      (.opAref (.string httpAccept))).1 = .value (some (text "a")) := by
    rw [call_opAref, Answer.value.injEq]
    decide
  refine ⟨hread, fun h => ?_⟩
  have hnone := h.1
  rw [hread] at hnone
  cases hnone

end RackEnv

end Jubilee
