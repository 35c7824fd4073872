import Jubilee.RackEnv.ContentLength
import Jubilee.RackEnv.Multithread
/-!
# Rack env — what an application may count on

Rack lets an application count on some things of its env: its keys are
strings, those without a period have strings for their values, and some
of them are there in any case. `conforms` says that every env which
`getEnv` makes is one, and goes on being one: no method that is given
only entries which conform, in whatever order with others, brings one
into the hash which does not.
-/

namespace Jubilee

namespace RackEnv

variable {O : Type*}

open RackEnvironmentHash

/-! ## Entries -/

/-- An entry of the kind that Rack allows. -/
def Named : RubyKey O → RubyObject O → Prop
  | .string k, v => 46 ∈ k.bytes ∨ ∃ s, v = .string s
  | .other _, _ => False

/-- Every entry is. -/
def AllNamed (t : Table O) [DecidableEq O] : Prop := ∀ key v, t.lookup key = some v → Named key v

/-- The values that are objects. -/
def RackKey.isObject : RackKey → Bool
  | .rackInput | .rackErrors | .version | .multithread | .multiprocess | .runOnce | .hijackP => true
  | _ => false

/-- The values that Rack wants in every env. -/
def RackKey.isRequired : RackKey → Bool
  | .rackInput | .rackErrors | .requestMethod | .scriptName | .pathInfo | .queryString
  | .serverName | .serverPort | .urlScheme | .version | .multithread | .multiprocess
  | .runOnce => true
  | _ => false

/-- The keys of objects have a period. -/
theorem period_of_isObject {k : StringKey} {rackKey : RackKey} (hk : rackKeyMap k = some rackKey)
    (h : rackKey.isObject = true) : 46 ∈ k.bytes := by
  have htable : ∀ p ∈ populateRackKeyMap, p.2.isObject = true → 46 ∈ p.1.bytes := by decide
  exact htable (k, rackKey) (mem_of_rackKeyMap hk) h

variable [DecidableEq O]

/-- **The invariant of an env**: its entries are as Rack allows, and so
will be those that wait. -/
structure WellFormed (env : RackEnvironmentHash O) : Prop where
  table : AllNamed env.table
  waiting : ∀ rackKey o, env.rackValues rackKey = some (.object o) → rackKey.isObject = true

namespace WellFormed

variable {env : RackEnvironmentHash O}

theorem put (h : WellFormed env) {k : StringKey} {v : RubyObject O} (hv : Named (.string k) v) :
    WellFormed (env.put k v) := by
  refine ⟨fun key w hw => ?_, h.waiting⟩
  rw [RackEnvironmentHash.put] at hw
  by_cases hkey : key = .string k
  · subst hkey
    rw [AList.lookup_insert] at hw
    exact Option.some.inj hw ▸ hv
  · rw [AList.lookup_insert_ne hkey] at hw
    exact h.table key w hw

/-- What the headers bring are strings. -/
theorem fillHeaderKey' (h : WellFormed env) (k : StringKey) (name : JString) :
    WellFormed (env.fillHeaderKey' k name) := by
  rw [RackEnvironmentHash.fillHeaderKey']
  split
  · split
    · exact h
    · exact h.put (Or.inr ⟨_, rfl⟩)
  · exact h

theorem fillHeaderKey (h : WellFormed env) (k : StringKey) : WellFormed (env.fillHeaderKey k) := by
  rw [RackEnvironmentHash.fillHeaderKey]
  split
  · exact h.fillHeaderKey' k _
  · exact h

/-- What the server brings are strings, or objects at keys for them. -/
theorem fillRackKey (h : WellFormed env) (k : StringKey) : WellFormed (env.fillRackKey k) := by
  rw [RackEnvironmentHash.fillRackKey]
  split
  · rename_i rackKey hk
    split
    · rename_i value hvalue
      have hnamed : Named (.string k) (value.toRuby (env.usAsciiValues rackKey)) := by
        cases value with
        | string s => exact Or.inr ⟨_, rfl⟩
        | object o => exact Or.inl (period_of_isObject hk (h.waiting rackKey o hvalue))
      -- it waits no longer
      refine ⟨(h.put hnamed).table, fun rackKey' o ho => ?_⟩
      change Function.update env.rackValues rackKey none rackKey' = _ at ho
      by_cases hkey : rackKey' = rackKey
      · subst hkey
        rw [Function.update_self] at ho
        cases ho
      · rw [Function.update_of_ne hkey] at ho
        exact h.waiting rackKey' o ho
    · exact h
  · exact h

/-- A loop keeps an env well formed if its body does. -/
theorem foldl {α : Type*} {f : RackEnvironmentHash O → α → RackEnvironmentHash O}
    (hf : ∀ {env : RackEnvironmentHash O} (a : α), WellFormed env → WellFormed (f env a))
    (as : List α) (h : WellFormed env) : WellFormed (as.foldl f env) := by
  induction as generalizing env with
  | nil => exact h
  | cons a as ih => exact ih (hf a h)

theorem putHeaderKey (h : WellFormed env) (k : StringKey) (name : JString) :
    WellFormed (env.putHeaderKey k name) := ⟨h.table, h.waiting⟩

theorem fillKey (h : WellFormed env) (key : RubyKey O) : WellFormed (env.fillKey key) := by
  have hpopulated : WellFormed
      (if env.filledHeaderKeyMap then env else env.populateHeaderKeyMap) := by
    split
    · exact h
    · have hfold := h.foldl (f := fun env name => env.putHeaderKey (rubyKey name) name)
        (fun name h => h.putHeaderKey _ name) env.headers.names
      exact ⟨hfold.table, hfold.waiting⟩
  unfold RackEnvironmentHash.fillKey
  split
  · exact h
  · split
    · exact h
    · split
      · exact h
      · dsimp only
        split
        · exact hpopulated.fillHeaderKey _
        · exact hpopulated.fillRackKey _

theorem fillEntireHash (h : WellFormed env) : WellFormed env.fillEntireHash := by
  unfold RackEnvironmentHash.fillEntireHash
  split
  · exact h
  · have hrack := h.foldl (f := RackEnvironmentHash.fillRackKey) (fun k h => h.fillRackKey k)
      (populateRackKeyMap.map Prod.fst)
    have hall := hrack.foldl (f := fillHeaderName)
      (fun name h => (h.putHeaderKey _ name).fillHeaderKey' _ name)
      ((populateRackKeyMap.map Prod.fst).foldl RackEnvironmentHash.fillRackKey env).headers.names
    exact ⟨hall.table, hall.waiting⟩

end WellFormed

/-! ## Methods -/

/-- The entries that a method is given are as Rack allows. -/
def Op.BringsNamed : Op O → Prop
  | .opAset key value => Named key value
  | .whole (.mergeBang other block) => AllNamed other ∧
      ∀ resolve, block = some resolve → ∀ key old new, Named key old → Named key new →
        Named key (resolve key old new)
  | .whole (.replace other) | .whole (.initializeCopy other) => AllNamed other
  | _ => True

theorem allNamed_merge {resolve : RubyKey O → RubyObject O → RubyObject O → RubyObject O}
    {other t : Table O} (ht : AllNamed t) (hother : AllNamed other)
    (hresolve : ∀ key old new, Named key old → Named key new → Named key (resolve key old new)) :
    AllNamed ((BaseOp.merge resolve other).apply t) := by
  intro key v hv
  rw [BaseOp.lookup_apply] at hv
  change (other.lookup key).elim (t.lookup key)
    (fun new => some ((t.lookup key).elim new fun old => resolve key old new)) = some v at hv
  cases hnew : other.lookup key with
  | none =>
    rw [hnew] at hv
    exact ht key v hv
  | some new =>
    rw [hnew] at hv
    obtain rfl := Option.some.inj hv
    cases hold : t.lookup key with
    | none => exact hother key new hnew
    | some old => exact hresolve key old new (ht key old hold) (hother key new hnew)

theorem allNamed_keepIf {p : RubyKey O → RubyObject O → Bool} {t : Table O} (ht : AllNamed t) :
    AllNamed ((BaseOp.keepIf p).apply t) := by
  intro key v hv
  rw [BaseOp.lookup_apply] at hv
  exact ht key v (Option.filter_eq_some_iff.mp hv).1

theorem allNamed_erase {t : Table O} (ht : AllNamed t) (key : RubyKey O) :
    AllNamed (t.erase key) := by
  intro key' v hv
  by_cases hkey : key' = key
  · subst hkey
    rw [AList.lookup_erase] at hv
    cases hv
  · rw [AList.lookup_erase_ne hkey] at hv
    exact ht key' v hv

/-- **What a method leaves is as Rack allows**, if what it is given is. -/
theorem allNamed_super {t : Table O} (ht : AllNamed t) {op : Op O} (hop : op.BringsNamed) :
    AllNamed (op.super t).2 := by
  cases op with
  | opAref key | fetch key | hasKeyP key => exact ht
  | opAset key value =>
    intro key' v hv
    by_cases hkey : key' = key
    · subst hkey
      rw [Op.super, AList.lookup_insert] at hv
      exact Option.some.inj hv ▸ hop
    · rw [Op.super, AList.lookup_insert_ne hkey] at hv
      exact ht key' v hv
  | delete key => exact allNamed_erase ht key
  | whole method =>
    cases method with
    | selectBang block | keepIf block | deleteIf block | rejectBang block =>
      exact allNamed_keepIf ht
    | shift first => exact allNamed_erase ht first
    | rbClear =>
      intro key v hv
      cases hv
    | mergeBang other block =>
      refine allNamed_merge ht hop.1 ?_
      cases block with
      | none => exact fun _ _ _ _ hnew => hnew
      | some resolve => exact hop.2 resolve rfl
    | replace other | initializeCopy other => exact hop
    | _ => exact ht

/-- **A call keeps an env well formed.** -/
theorem wellFormed_call {env : RackEnvironmentHash O} (h : WellFormed env) {op : Op O}
    (hop : op.BringsNamed) : WellFormed (env.call op).2 := by
  have hfill : WellFormed (env.fillFor op) := by
    cases op with
    | opAref key | fetch key | hasKeyP key | opAset key value | delete key => exact h.fillKey key
    | whole method => exact h.fillEntireHash
  exact ⟨allNamed_super hfill.table hop, hfill.waiting⟩

/-- **So does a run.** -/
theorem wellFormed_run {env : RackEnvironmentHash O} (h : WellFormed env) {ops : List (Op O)}
    (hops : ∀ op ∈ ops, op.BringsNamed) : WellFormed (env.run ops) := by
  induction ops generalizing env with
  | nil => exact h
  | cons op ops ih =>
    obtain ⟨hop, hops⟩ := List.forall_mem_cons.mp hops
    exact ih (wellFormed_call h hop) hops

/-! ## What `getEnv` makes -/

omit [DecidableEq O] in
/-- What `lazyPut` is given at the keys that are no objects are strings. -/
theorem isObject_of_fresh {headers : MultiMap}
    {values : List (RackKey × Option (LazyValue O) × Bool)}
    (hvalues : ∀ v ∈ values, ∀ o, v.2.1 = some (.object o) → v.1.isObject = true)
    {rackKey : RackKey} {o : RubyObject O}
    (h : (fresh headers values).rackValues rackKey = some (.object o)) :
    rackKey.isObject = true := by
  induction values using List.reverseRecOn with
  | nil => cases h
  | append_singleton values v ih =>
    rw [fresh_append] at h
    change Function.update (fresh headers values).rackValues v.1 v.2.1 rackKey = _ at h
    by_cases hkey : rackKey = v.1
    · subst hkey
      rw [Function.update_self] at h
      exact hvalues v (by simp) o h
    · rw [Function.update_of_ne hkey] at h
      exact ih (fun v hv => hvalues v (List.mem_append_left _ hv)) h

namespace RackEnvironment

variable {rackEnv : RackEnvironment O} {request : HttpServerRequest} {input : O} {isSSL : Bool}
  {env : RackEnvironmentHash O}

omit [DecidableEq O] in
/-- The objects that `getEnv` stores are at keys for them. -/
theorem isObject_of_mem_lazyValues {contentLength : ℤ}
    {v : RackKey × Option (LazyValue O) × Bool}
    (hv : v ∈ lazyValues rackEnv request input isSSL contentLength) {o : RubyObject O}
    (ho : v.2.1 = some (.object o)) : v.1.isObject = true := by
  rcases List.mem_append.mp hv with hv | hv
  · rcases List.mem_append.mp hv with hv | hv
    · simp only [List.mem_cons, List.not_mem_nil, or_false] at hv
      -- `CONTENT_TYPE` alone may be absent, all others are a string or an object
      rcases hv with rfl | rfl | rfl | rfl | rfl | rfl | rfl | rfl | rfl | rfl | rfl | rfl | rfl |
        rfl | rfl | rfl | rfl | rfl
      case inr.inr.inr.inr.inr.inr.inr.inr.inr.inl =>
        obtain ⟨s, -, hs⟩ := Option.map_eq_some_iff.mp ho
        cases hs
      all_goals first | rfl | cases ho
    · split at hv
      · rw [List.mem_singleton.mp hv] at ho
        cases ho
      · cases hv
  · split at hv
    · rw [List.mem_singleton.mp hv] at ho
      cases ho
    · cases hv

theorem wellFormed_fresh (contentLength : ℤ) :
    WellFormed (fresh request.headers (lazyValues rackEnv request input isSSL contentLength)) := by
  refine ⟨fun key v hv => ?_, fun rackKey o ho =>
    isObject_of_fresh (fun v hv o hvo => isObject_of_mem_lazyValues hv hvo) ho⟩
  rw [(fresh_frame request.headers _).2] at hv
  cases hv

/-! ## What is there in any case -/

omit [DecidableEq O] in
/-- `getEnv` stores them all. -/
theorem isSome_rackValue (contentLength : ℤ) {k : StringKey} {rackKey : RackKey}
    (hk : rackKeyMap k = some rackKey) (h : rackKey.isRequired = true) :
    (rackValue (lazyValues rackEnv request input isSSL contentLength) (.string k)).isSome = true := by
  have hne : rackKey ≠ .https ∧ rackKey ≠ .contentLength := by
    constructor <;> rintro rfl <;> cases h
  rw [rackValue, hk, Option.bind_some, lazyValues, lastPut_append_ite_of_ne hne.1.symm,
    lastPut_append_ite_of_ne hne.2.symm]
  cases rackKey <;> first | rfl | cases h

/-- What Rack says of an env, as long as the application sticks to it. -/
structure Conforms (env : RackEnvironmentHash O) : Prop where
  named : ∀ ops, (∀ op ∈ ops, Op.BringsNamed op) → AllNamed (env.run ops).table
  required : ∀ k rackKey, rackKeyMap k = some rackKey → rackKey.isRequired = true →
    ∃ v, Named (.string k) v ∧ Stays env (.string k) (some v)
  scheme : ∃ scheme ∈ ["http", "https"], Stays env (.string urlSchemeKey)
    (some (.string (RubyHelper.toUsAsciiRubyString' scheme.toList)))
  contentLength : ∃ length : Option ℕ, Stays env (.string contentLengthKey)
    (length.map fun n => .string (RubyHelper.toUsAsciiRubyString' (toString n).toList))

/-- **Every env conforms.** Whatever is asked for: the entries are and stay
of the kind that Rack allows, the required ones are there and stay until
they are changed, the scheme is one of two, and a length is a number. -/
theorem conforms (henv : (getEnv request input isSSL rackEnv).1 = .ok env) : Conforms env := by
  obtain ⟨n, rfl⟩ := exists_of_getEnv henv
  have hwf : WellFormed (fresh request.headers (lazyValues rackEnv request input isSSL n)) :=
    wellFormed_fresh n
  refine ⟨fun ops hops => (wellFormed_run hwf hops).table, fun k rackKey hk hrequired => ?_,
    ⟨if isSSL then "https" else "http", by cases isSSL <;> simp, ?_⟩, ?_⟩
  · have hversion : rackKey ≠ .httpVersion := by
      rintro rfl
      cases hrequired
    obtain ⟨hheader, hne⟩ := not_isHeaderKey (mem_of_rackKeyMap hk) hversion
    have hstays : Stays (fresh request.headers (lazyValues rackEnv request input isSSL n))
        (.string k) (rackValue (lazyValues rackEnv request input isSSL n) (.string k)) :=
      stays_fresh hheader hne
    obtain ⟨v, hv⟩ := Option.isSome_iff_exists.mp (isSome_rackValue n hk hrequired)
    rw [hv] at hstays
    exact ⟨v, (hwf.fillKey _).table _ _ (hstays [] nofun).1, hstays⟩
  · rw [← rackValue_urlScheme rackEnv request input isSSL n]
    exact stays_fresh (by decide) (by decide)
  · have hstays := stays_contentLength rackEnv request input isSSL n
    by_cases hn : 0 ≤ n
    · obtain ⟨m, rfl⟩ := Int.eq_ofNat_of_zero_le hn
      rw [if_pos hn] at hstays
      exact ⟨some m, hstays⟩
    · rw [if_neg hn] at hstays
      exact ⟨none, hstays⟩

theorem conforms_get :
    ∃ env, (getEnv Service.get.request 5 false Service.numbered).1 = .ok env ∧
      Conforms env := by
  obtain ⟨env, henv⟩ : ∃ env, (getEnv Service.get.request 5 false
      Service.numbered).1 = .ok env := ⟨_, rfl⟩
  exact ⟨env, henv, conforms henv⟩

end RackEnvironment

end RackEnv

end Jubilee
