import Jubilee.Response.Recorded
/-!
# Response — the headers that are forwarded

`write_headers` puts every header but the two it only notes, and ends at
the first whose value is no string. What it leaves on the response that
records are the headers before that one (`writeHeaders'_eq`).
-/

namespace Jubilee

namespace Response

variable {sep : LineSeparator} {decoders : Decoders}

/-- A value that `asJavaString` takes. -/
def HeaderValue.isText : HeaderValue → Bool
  | .text _ => true
  | _ => false

/-- The headers that are put before one is not. -/
def forwarded : List (JString × HeaderValue) → List (JString × JString)
  | [] => []
  | (key, value) :: entries =>
    if key = CONTENT_LENGTH ∨ key = HIJACK then forwarded entries
    else
      match value with
      | .text t => (key, t) :: forwarded entries
      | _ => []

/-- A header that is to be put has no string for a value. -/
def stops (entries : List (JString × HeaderValue)) : Bool :=
  entries.any fun e => e.1 ≠ CONTENT_LENGTH && e.1 ≠ HIJACK && !e.2.isText

/-- Headers are put one after the other. -/
def putAll (sep : LineSeparator) (headers : List (JString × JString)) (s : Sent) : Sent :=
  headers.foldl (fun s h => s.putHeader h.1 (split sep.chars h.2)) s

theorem forwarded_of_noted {key : JString} (hkey : key = CONTENT_LENGTH ∨ key = HIJACK)
    (value : HeaderValue) (entries : List (JString × HeaderValue)) :
    forwarded ((key, value) :: entries) = forwarded entries := by
  cases value <;> exact if_pos hkey

theorem forwarded_text {key : JString} (hkey : ¬ (key = CONTENT_LENGTH ∨ key = HIJACK))
    (t : JString) (entries : List (JString × HeaderValue)) :
    forwarded ((key, .text t) :: entries) = (key, t) :: forwarded entries := if_neg hkey

theorem forwarded_of_not_text {key : JString} (hkey : ¬ (key = CONTENT_LENGTH ∨ key = HIJACK))
    {value : HeaderValue} (hvalue : value.isText = false)
    (entries : List (JString × HeaderValue)) : forwarded ((key, value) :: entries) = [] := by
  cases value with
  | text t => cases hvalue
  | falsy | object toS => exact if_neg hkey

/-! ## What the loop leaves -/

theorem writeHeaders'_of_noted {key : JString} (hkey : key = CONTENT_LENGTH ∨ key = HIJACK)
    {σ : Type*} (response : RubyHttpServerResponse σ) (value : HeaderValue)
    (entries : List (JString × HeaderValue)) (r : Response) :
    writeHeaders' response ((key, value) :: entries) r =
      writeHeaders' response entries (note r (key, value)) := by
  rcases hkey with rfl | rfl
  · rfl
  · rfl

theorem writeHeaders'_of_put {key : JString} (hlength : key ≠ CONTENT_LENGTH)
    (hhijack : key ≠ HIJACK) {σ : Type*} (response : RubyHttpServerResponse σ)
    (value : HeaderValue) (entries : List (JString × HeaderValue)) (r : Response) :
    writeHeaders' response ((key, value) :: entries) r =
      response.putHeader key value >>= fun _ =>
        writeHeaders' response entries (note r (key, value)) := by
  rw [writeHeaders', note, if_neg hlength, if_neg hlength]
  by_cases htransfer : key = TRANSFER_ENCODING
  · rw [if_pos htransfer, if_pos htransfer]
  · rw [if_neg htransfer, if_neg htransfer, if_neg hhijack, if_neg hhijack]

/-- **What `write_headers` leaves**: the headers it forwarded, and what it
noted unless it stopped. -/
theorem writeHeaders'_eq (entries : List (JString × HeaderValue)) (r : Response) (s : Sent) :
    writeHeaders' (recording sep decoders) entries r s =
      (if stops entries then .error .typeError else .ok (entries.foldl note r),
        putAll sep (forwarded entries) s) := by
  induction entries generalizing r s with
  | nil => rfl
  | cons e entries ih =>
    obtain ⟨key, value⟩ := e
    by_cases hkey : key = CONTENT_LENGTH ∨ key = HIJACK
    · have hstops : stops ((key, value) :: entries) = stops entries := by
        rcases hkey with rfl | rfl <;> simp [stops]
      rw [writeHeaders'_of_noted hkey, ih, hstops, forwarded_of_noted hkey, List.foldl_cons]
    · obtain ⟨hlength, hhijack⟩ := not_or.mp hkey
      rw [writeHeaders'_of_put hlength hhijack]
      have hstops : ∀ value : HeaderValue, value.isText = false →
          stops ((key, value) :: entries) = true := by
        intro value hvalue
        simp [stops, hlength, hhijack, hvalue]
      cases value with
      | falsy | object toS =>
        rw [hstops _ rfl, forwarded_of_not_text hkey rfl]
        rfl
      | text t =>
        have hstops : stops ((key, .text t) :: entries) = stops entries := by
          simp [stops, HeaderValue.isText]
        rw [Act.bind_of_ok (putHeader_text key t), ih, hstops, forwarded_text hkey]
        rfl

/-! ## The headers that were put -/

/-- The forwarded headers are among the entries, in their order. -/
theorem forwarded_sublist (entries : List (JString × HeaderValue)) :
    ((forwarded entries).map fun h => (h.1, HeaderValue.text h.2)).Sublist entries := by
  induction entries with
  | nil => exact List.Sublist.refl _
  | cons e entries ih =>
    obtain ⟨key, value⟩ := e
    by_cases hkey : key = CONTENT_LENGTH ∨ key = HIJACK
    · rw [forwarded_of_noted hkey]
      exact ih.cons _
    · cases value with
      | falsy | object toS =>
        rw [forwarded_of_not_text hkey rfl]
        exact List.nil_sublist _
      | text t =>
        rw [forwarded_text hkey, List.map_cons]
        exact ih.cons_cons _

/-- What is forwarded has neither of the two names. -/
theorem not_noted_of_mem_forwarded {entries : List (JString × HeaderValue)}
    {h : JString × JString} (hh : h ∈ forwarded entries) :
    ¬ (h.1 = CONTENT_LENGTH ∨ h.1 = HIJACK) := by
  induction entries with
  | nil => cases hh
  | cons e entries ih =>
    obtain ⟨key, value⟩ := e
    by_cases hkey : key = CONTENT_LENGTH ∨ key = HIJACK
    · rw [forwarded_of_noted hkey] at hh
      exact ih hh
    · cases value with
      | falsy | object toS =>
        rw [forwarded_of_not_text hkey rfl] at hh
        cases hh
      | text t =>
        rw [forwarded_text hkey] at hh
        rcases List.mem_cons.mp hh with rfl | hh
        · exact hkey
        · exact ih hh

/-- Where the loop does not stop, the other entries are all forwarded. -/
theorem mem_forwarded {entries : List (JString × HeaderValue)} (hstops : stops entries = false)
    {key t : JString} (hmem : (key, HeaderValue.text t) ∈ entries)
    (hkey : ¬ (key = CONTENT_LENGTH ∨ key = HIJACK)) : (key, t) ∈ forwarded entries := by
  induction entries with
  | nil => cases hmem
  | cons e entries ih =>
    obtain ⟨key', value⟩ := e
    have htail : stops entries = false := (Bool.or_eq_false_iff.mp hstops).2
    by_cases hkey' : key' = CONTENT_LENGTH ∨ key' = HIJACK
    · rw [forwarded_of_noted hkey']
      rcases List.mem_cons.mp hmem with heq | hmem
      · exact absurd ((Prod.mk.inj heq).1 ▸ hkey') hkey
      · exact ih htail hmem
    · cases value with
      | falsy | object toS =>
        obtain ⟨hlength, hhijack⟩ := not_or.mp hkey'
        simp [stops, hlength, hhijack, HeaderValue.isText] at hstops
      | text t' =>
        rw [forwarded_text hkey']
        rcases List.mem_cons.mp hmem with heq | hmem
        · simp only [Prod.mk.injEq, HeaderValue.text.injEq] at heq
          obtain ⟨rfl, rfl⟩ := heq
          exact List.mem_cons_self
        · exact List.mem_cons_of_mem _ (ih htail hmem)

variable {headers : List (JString × JString)} {s : Sent} {name : JString}

theorem values_putAll_of_ne (h : ∀ h ∈ headers, equalsIgnoreCase h.1 name = false) :
    (putAll sep headers s).values name = s.values name := by
  induction headers generalizing s with
  | nil => rfl
  | cons h' headers ih =>
    obtain ⟨hhead, htail⟩ := List.forall_mem_cons.mp h
    exact (ih htail).trans (Sent.values_putHeader_of_ne _ hhead)

/-- **A header has the values that were put**, names being distinct. -/
theorem values_putAll_of_mem
    (hn : headers.Pairwise fun h h' => equalsIgnoreCase h.1 h'.1 = false)
    {h : JString × JString} (hmem : h ∈ headers) (hname : equalsIgnoreCase h.1 name = true) :
    (putAll sep headers s).values name = split sep.chars h.2 := by
  induction headers generalizing s with
  | nil => cases hmem
  | cons h' headers ih =>
    obtain ⟨hhead, htail⟩ := List.pairwise_cons.mp hn
    rcases List.mem_cons.mp hmem with rfl | hmem
    · have hne : ∀ h' ∈ headers, equalsIgnoreCase h'.1 name = false := by
        intro h' hh'
        rw [Bool.eq_false_iff]
        intro htrue
        rw [equalsIgnoreCase_comm] at htrue
        exact absurd (equalsIgnoreCase_trans hname htrue) (by rw [hhead h' hh']; decide)
      exact (values_putAll_of_ne hne).trans (Sent.values_putHeader_self _ hname)
    · exact ih htail hmem

variable (sep) in
/-- Putting headers changes nothing else. -/
theorem putAll_frame (headers : List (JString × JString)) (s : Sent) :
    (putAll sep headers s).status = s.status ∧ (putAll sep headers s).chunked = s.chunked ∧
      (putAll sep headers s).body = s.body := by
  induction headers generalizing s with
  | nil => exact ⟨rfl, rfl, rfl⟩
  | cons h headers ih => exact ih (s.putHeader h.1 (split sep.chars h.2))

end Response

end Jubilee
