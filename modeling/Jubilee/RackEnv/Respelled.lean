import Jubilee.RackEnv.Joined
import Jubilee.RackEnv.Unforged
/-!
# Rack env — how the client spells a header

Names of headers are spelled in upper and lower case as the client likes.
The env is made from them as they are spelled, and keeps them so for
later. `Alike.call` says that it does not matter: two envs whose headers
are spelled apart go on answering the same, method by method. The
proviso is in `Respells`: `Content-Type` and `Content-Length` are kept
out as they are spelled here, and in no other spelling.
-/

namespace Jubilee

namespace RackEnv

variable {O : Type*}

/-! ## Headers -/

/-- One header name in two spellings. If one of them is kept out of the
env, so is the other. -/
structure Respells (name name' : JString) : Prop where
  same : equalsIgnoreCase name name' = true
  keptOut : (name' ≠ CONTENT_TYPE ∧ name' ≠ CONTENT_LENGTH) ↔
    (name ≠ CONTENT_TYPE ∧ name ≠ CONTENT_LENGTH)

/-- The same headers, spelled apart. -/
structure Respelled (headers headers' : MultiMap) : Prop where
  fields : List.Forall₂ (fun f f' => equalsIgnoreCase f.1 f'.1 = true ∧ f'.2 = f.2)
    headers.fields headers'.fields
  names : List.Forall₂ Respells headers.names headers'.names

theorem equalsIgnoreCase_congr {name₁ name₁' name₂ name₂' : JString}
    (h₁ : equalsIgnoreCase name₁ name₁' = true) (h₂ : equalsIgnoreCase name₂ name₂' = true) :
    equalsIgnoreCase name₁' name₂' = equalsIgnoreCase name₁ name₂ := by
  simp only [equalsIgnoreCase, decide_eq_true_eq] at h₁ h₂ ⊢
  rw [h₁, h₂]

variable {headers headers' : MultiMap} {name name' : JString}

/-- The fields of a header are found under either name. -/
theorem filter_respelled {fields fields' : List (JString × JString)}
    (hn : equalsIgnoreCase name name' = true)
    (h : List.Forall₂ (fun f f' => equalsIgnoreCase f.1 f'.1 = true ∧ f'.2 = f.2) fields fields') :
    (fields'.filter fun f => equalsIgnoreCase name' f.1).map Prod.snd =
      (fields.filter fun f => equalsIgnoreCase name f.1).map Prod.snd := by
  induction h with
  | nil => rfl
  | @cons f f' fields fields' hf _ ih =>
    have hsame := equalsIgnoreCase_congr hn hf.1
    rw [List.filter_cons, List.filter_cons, hsame]
    split
    · rw [List.map_cons, List.map_cons, ih, hf.2]
    · exact ih

/-- A header has the same values under either name. -/
theorem Respelled.getAll (h : Respelled headers headers')
    (hn : equalsIgnoreCase name name' = true) : headers'.getAll name' = headers.getAll name :=
  filter_respelled hn h.fields

theorem Respelled.get (h : Respelled headers headers') (name : JString) :
    headers'.get name = headers.get name := by
  rw [MultiMap.get, MultiMap.get, h.getAll (equalsIgnoreCase_self name)]

/-! ## Two envs -/

open RackEnvironmentHash

/-- **The simulation relation**: the headers are spelled apart, and so is
what the env keeps of them for later. -/
structure Alike (env env' : RackEnvironmentHash O) : Prop where
  table : env'.table = env.table
  rackValues : env'.rackValues = env.rackValues
  usAsciiValues : env'.usAsciiValues = env.usAsciiValues
  headers : Respelled env.headers env'.headers
  headerKeyMap : ∀ k, Option.Rel Respells (env.headerKeyMap.lookup k) (env'.headerKeyMap.lookup k)
  filledEntireHash : env'.filledEntireHash = env.filledEntireHash
  filledHeaderKeyMap : env'.filledHeaderKeyMap = env.filledHeaderKeyMap

namespace Alike

variable {env env' : RackEnvironmentHash O}

theorem putHeaderKey (h : Alike env env') (hn : Respells name name') (k : StringKey) :
    Alike (env.putHeaderKey k name) (env'.putHeaderKey k name') := by
  refine { h with headerKeyMap := fun k' => ?_ }
  rw [RackEnvironmentHash.putHeaderKey, RackEnvironmentHash.putHeaderKey]
  by_cases hk : k' = k
  · subst hk
    rw [AList.lookup_insert, AList.lookup_insert]
    exact .some hn
  · rw [AList.lookup_insert_ne hk, AList.lookup_insert_ne hk]
    exact h.headerKeyMap k'

/-- A loop over the names goes alike if its body does. -/
theorem foldl {f : RackEnvironmentHash O → JString → RackEnvironmentHash O}
    {names names' : List JString} (h : Alike env env') (hnames : List.Forall₂ Respells names names')
    (hf : ∀ {env env' : RackEnvironmentHash O} {name name' : JString}, Alike env env' →
      Respells name name' → Alike (f env name) (f env' name')) :
    Alike (names.foldl f env) (names'.foldl f env') := by
  induction hnames generalizing env env' with
  | nil => exact h
  | cons hn _ ih => exact ih (hf h hn)

theorem populateHeaderKeyMap (h : Alike env env') :
    Alike env.populateHeaderKeyMap env'.populateHeaderKeyMap := by
  have hfold := h.foldl
    (f := fun env name => env.putHeaderKey (rubyKey name) name) h.headers.names
    fun {_ _ name name'} h hn => by
      -- both spellings have one key
      rw [← rubyKey_of_equalsIgnoreCase hn.same]
      exact h.putHeaderKey hn _
  exact { hfold with filledHeaderKeyMap := rfl }

variable [DecidableEq O]

theorem put (h : Alike env env') (k : StringKey) (v : RubyObject O) :
    Alike (env.put k v) (env'.put k v) :=
  { h with table := by rw [RackEnvironmentHash.put, RackEnvironmentHash.put, h.table] }

theorem fillHeaderKey' (h : Alike env env') (hn : Respells name name') (k : StringKey) :
    Alike (env.fillHeaderKey' k name) (env'.fillHeaderKey' k name') := by
  rw [RackEnvironmentHash.fillHeaderKey', RackEnvironmentHash.fillHeaderKey',
    h.headers.getAll hn.same]
  by_cases hout : name ≠ CONTENT_TYPE ∧ name ≠ CONTENT_LENGTH
  · rw [if_pos hout, if_pos (hn.keptOut.mpr hout)]
    cases env.headers.getAll name with
    | nil => exact h
    | cons v vs => exact h.put k _
  · rw [if_neg hout, if_neg (mt hn.keptOut.mp hout)]
    exact h

theorem fillHeaderKey (h : Alike env env') (k : StringKey) :
    Alike (env.fillHeaderKey k) (env'.fillHeaderKey k) := by
  rw [RackEnvironmentHash.fillHeaderKey, RackEnvironmentHash.fillHeaderKey]
  have hkey := h.headerKeyMap k
  generalize env.headerKeyMap.lookup k = found, env'.headerKeyMap.lookup k = found' at hkey ⊢
  cases hkey with
  | none => exact h
  | some hn => exact h.fillHeaderKey' hn k

theorem fillRackKey (h : Alike env env') (k : StringKey) :
    Alike (env.fillRackKey k) (env'.fillRackKey k) := by
  rw [RackEnvironmentHash.fillRackKey, RackEnvironmentHash.fillRackKey, h.rackValues,
    h.usAsciiValues]
  split
  · split
    · exact { h.put k _ with rackValues := rfl }
    · exact h
  · exact h

/-- **A key is filled alike.** -/
theorem fillKey (h : Alike env env') (key : RubyKey O) :
    Alike (env.fillKey key) (env'.fillKey key) := by
  unfold RackEnvironmentHash.fillKey
  rw [h.filledEntireHash, h.filledHeaderKeyMap]
  split
  · exact h
  · cases key with
    | other o => exact h
    | string k =>
      have hpopulated : Alike (if env.filledHeaderKeyMap then env else env.populateHeaderKeyMap)
          (if env.filledHeaderKeyMap then env' else env'.populateHeaderKeyMap) := by
        split
        · exact h
        · exact h.populateHeaderKeyMap
      dsimp only
      rw [h.table]
      split
      · exact h
      · split
        · exact hpopulated.fillHeaderKey k
        · exact hpopulated.fillRackKey k

theorem foldl_fillRackKey (h : Alike env env') (ks : List StringKey) :
    Alike (ks.foldl RackEnvironmentHash.fillRackKey env)
      (ks.foldl RackEnvironmentHash.fillRackKey env') := by
  induction ks generalizing env env' with
  | nil => exact h
  | cons k ks ih => exact ih (h.fillRackKey k)

/-- **The whole hash is filled alike.** -/
theorem fillEntireHash (h : Alike env env') : Alike env.fillEntireHash env'.fillEntireHash := by
  rw [RackEnvironmentHash.fillEntireHash, RackEnvironmentHash.fillEntireHash, h.filledEntireHash]
  split
  · exact h
  · have hrack := h.foldl_fillRackKey (populateRackKeyMap.map Prod.fst)
    have hall := hrack.foldl (f := RackEnvironmentHash.fillHeaderName) hrack.headers.names
      fun {_ _ name name'} h hn => by
        rw [fillHeaderName, fillHeaderName, ← rubyKey_of_equalsIgnoreCase hn.same]
        exact (h.putHeaderKey hn _).fillHeaderKey' hn _
    exact { hall with filledEntireHash := rfl }

/-- **A method answers the same**, and leaves the envs alike. -/
theorem call (h : Alike env env') (op : Op O) :
    (env'.call op).1 = (env.call op).1 ∧ Alike (env.call op).2 (env'.call op).2 := by
  have hfill : Alike (env.fillFor op) (env'.fillFor op) := by
    cases op with
    | opAref key | fetch key | hasKeyP key | opAset key value | delete key => exact h.fillKey key
    | whole method => exact h.fillEntireHash
  rw [RackEnvironmentHash.call, RackEnvironmentHash.call]
  dsimp only
  rw [hfill.table]
  exact ⟨rfl, { hfill with table := rfl }⟩

end Alike

/-! ## What `getEnv` makes -/

theorem alike_fresh (h : Respelled headers headers')
    (values : List (RackKey × Option (LazyValue O) × Bool)) :
    Alike (fresh headers values) (fresh headers' values) := by
  induction values using List.reverseRecOn with
  | nil => exact ⟨rfl, rfl, rfl, h, fun _ => .none, rfl, rfl⟩
  | append_singleton values v ih =>
    rw [fresh_append, fresh_append, lazyPut, lazyPut]
    exact { ih with
      rackValues := by rw [ih.rackValues]
      usAsciiValues := by rw [ih.usAsciiValues] }

/-- Two outcomes of `getEnv`: the same exception, or envs that are alike. -/
inductive MadeAlike : Except Raised (RackEnvironmentHash O) →
    Except Raised (RackEnvironmentHash O) → Prop
  | error (e : Raised) : MadeAlike (.error e) (.error e)
  | ok {env env' : RackEnvironmentHash O} : Alike env env' → MadeAlike (.ok env) (.ok env')

/-- **`getEnv` makes envs that are alike.** -/
theorem getEnv_alike {request : HttpServerRequest} (h : Respelled request.headers headers')
    (input : O) (isSSL : Bool) (rackEnv : RackEnvironment O) :
    MadeAlike (rackEnv.getEnv request input isSSL).1
      (rackEnv.getEnv { request with headers := headers' } input isSSL).1 := by
  have hread : SameRead request.headers headers' := fun name _ => h.get name
  rw [RackEnvironment.getEnv_eq, RackEnvironment.getEnv_eq,
    RackEnvironment.getContentLength_congr hread]
  cases getContentLength request.headers with
  | error e => exact .error e
  | ok n =>
    have hvalues : RackEnvironment.lazyValues rackEnv { request with headers := headers' } input
        isSSL n = RackEnvironment.lazyValues rackEnv request input isSSL n :=
      RackEnvironment.lazyValues_congr hread n
    refine .ok ?_
    change Alike (fresh request.headers _)
      (fresh headers' (RackEnvironment.lazyValues rackEnv { request with headers := headers' } input
        isSSL n))
    rw [hvalues]
    exact alike_fresh h _

end RackEnv

end Jubilee
