import Jubilee.Common.Act
import Jubilee.Runtime.Java
/-!
# What the program takes from Vert.x

The headers of a request, as the multimap that Vert.x makes of them, and
the response object. The program is given the response as an interface;
`Sent` is the implementation that records what it is told.
-/

namespace Jubilee

/-! ## Header names -/

/-- An ASCII letter in lower case. -/
def toLowerCase (c : Char) : Char :=
  if 'A' ≤ c ∧ c ≤ 'Z' then Char.ofNat (c.toNat + 32) else c

/-- Two header names are the same. -/
def equalsIgnoreCase (name₁ name₂ : JString) : Bool :=
  name₁.map toLowerCase = name₂.map toLowerCase

theorem equalsIgnoreCase_self (name : JString) : equalsIgnoreCase name name = true := by
  simp [equalsIgnoreCase]

theorem equalsIgnoreCase_comm (name₁ name₂ : JString) :
    equalsIgnoreCase name₁ name₂ = equalsIgnoreCase name₂ name₁ := by
  simp [equalsIgnoreCase, eq_comm]

theorem equalsIgnoreCase_trans {name₁ name₂ name₃ : JString}
    (h : equalsIgnoreCase name₁ name₂ = true) (h' : equalsIgnoreCase name₂ name₃ = true) :
    equalsIgnoreCase name₁ name₃ = true := by
  simp only [equalsIgnoreCase, decide_eq_true_eq] at h h' ⊢
  exact h.trans h'

/-- `io.vertx.core.MultiMap`: the header fields in the order they came,
and the names it lists, in the spelling the client sent. Whether two
spellings of one name are both listed is left open. -/
structure MultiMap where
  fields : List (JString × JString)
  names : List JString
  names_nodup : names.Nodup
  mem_fields_of_mem_names : ∀ name ∈ names, name ∈ fields.map Prod.fst
  mem_names_of_mem_fields : ∀ f ∈ fields, ∃ name ∈ names, equalsIgnoreCase name f.1 = true

/-- `MultiMap.getAll`. -/
def MultiMap.getAll (headers : MultiMap) (name : JString) : List JString :=
  (headers.fields.filter fun f => equalsIgnoreCase name f.1).map Prod.snd

/-- `MultiMap.get`. -/
def MultiMap.get (headers : MultiMap) (name : JString) : Option JString :=
  (headers.getAll name).head?

/-! ## The request -/

/-- `HttpVersion`. -/
inductive HttpVersion
  | http10
  | http11
  deriving DecidableEq

/-- `io.vertx.core.http.HttpServerRequest`, as far as the env is made of
it. -/
structure HttpServerRequest where
  version : HttpVersion
  method : JString
  uri : JString
  path : JString
  query : Option JString
  headers : MultiMap
  /-- The host of the remote address. -/
  remoteAddress : Option JString

/-! ## The response -/

/-- `io.vertx.core.http.HttpServerResponse`, as far as the program uses
it. `putHeader` is given all values of a header; any of these may raise. -/
structure HttpServerResponse (σ : Type*) where
  setStatusCode : ℤ → Act σ Raised Unit
  putHeader : JString → List JString → Act σ Raised Unit
  setChunked : Bool → Act σ Raised Unit
  write : JString → Act σ Raised Unit

/-- What a response was told. -/
structure Sent where
  status : ℤ
  headers : List (JString × JString)
  chunked : Bool
  /-- The strings written to the body. -/
  body : List JString
  deriving DecidableEq

namespace Sent

/-- A response nothing was told yet. -/
def fresh : Sent := ⟨200, [], false, []⟩

/-- The values take the place of those the header had. -/
def putHeader (s : Sent) (name : JString) (values : List JString) : Sent :=
  { s with
    headers := (s.headers.filter fun f => !equalsIgnoreCase name f.1) ++ values.map (name, ·) }

/-- The response that records. -/
def recorder : HttpServerResponse Sent where
  setStatusCode status := Act.modify fun s => { s with status := status }
  putHeader name values := Act.modify (·.putHeader name values)
  setChunked chunked := Act.modify fun s => { s with chunked := chunked }
  write chunk := Act.modify fun s => { s with body := s.body ++ [chunk] }

/-- The values of a header. -/
def values (s : Sent) (name : JString) : List JString :=
  (s.headers.filter fun f => equalsIgnoreCase name f.1).map Prod.snd

/-- A header has the values that were put last. -/
theorem values_putHeader_self {s : Sent} {name name' : JString} (vs : List JString)
    (h : equalsIgnoreCase name name' = true) : (s.putHeader name vs).values name' = vs := by
  have hold : (s.headers.filter fun f => !equalsIgnoreCase name f.1).filter
      (fun f => equalsIgnoreCase name' f.1) = [] := by
    rw [List.filter_eq_nil_iff]
    intro f hf hn
    have hf := (List.mem_filter.mp hf).2
    rw [equalsIgnoreCase_trans h hn] at hf
    cases hf
  have hnew : (vs.map (name, ·)).filter (fun f => equalsIgnoreCase name' f.1) =
      vs.map (name, ·) := by
    rw [List.filter_eq_self]
    intro f hf
    obtain ⟨v, -, rfl⟩ := List.mem_map.mp hf
    rw [equalsIgnoreCase_comm]
    exact h
  rw [values, putHeader, List.filter_append, hold, hnew, List.nil_append, List.map_map]
  exact List.map_id vs

/-- Other headers keep theirs. -/
theorem values_putHeader_of_ne {s : Sent} {name name' : JString} (vs : List JString)
    (h : equalsIgnoreCase name name' = false) :
    (s.putHeader name vs).values name' = s.values name' := by
  have hold : (s.headers.filter fun f => !equalsIgnoreCase name f.1).filter
      (fun f => equalsIgnoreCase name' f.1) =
      s.headers.filter fun f => equalsIgnoreCase name' f.1 := by
    rw [List.filter_filter]
    refine List.filter_congr fun f _ => ?_
    cases hn : equalsIgnoreCase name' f.1 with
    | false => rfl
    | true =>
      have hne : equalsIgnoreCase name f.1 = false := by
        rw [Bool.eq_false_iff]
        intro hf
        rw [equalsIgnoreCase_comm] at hn
        rw [equalsIgnoreCase_trans hf hn] at h
        cases h
      rw [hne]
      rfl
  have hnew : (vs.map (name, ·)).filter (fun f => equalsIgnoreCase name' f.1) = [] := by
    rw [List.filter_eq_nil_iff]
    intro f hf
    obtain ⟨v, -, rfl⟩ := List.mem_map.mp hf
    rw [equalsIgnoreCase_comm, h]
    exact Bool.false_ne_true
  rw [values, putHeader, List.filter_append, hold, hnew, List.append_nil, values]

end Sent

end Jubilee
