import Jubilee.Response.Related
import Mathlib.Data.List.Forall2
import Mathlib.Data.List.Nodup
/-!
# Response — the case of header names

Header names are the same in any case to Vert.x, and `write_headers`
compares them with `Content-Length`, `Transfer-Encoding` and
`rack.hijack` letter by letter. What comes of a name in another case is
followed here through the two runs of `write_headers`.
-/

namespace Jubilee

namespace Response

variable {sep : LineSeparator} {decoders : Decoders}

abbrev Entries := List (JString × HeaderValue)

/-- The same entries in the same order, but for the case of names. -/
def Recased (entries entries' : Entries) : Prop :=
  List.Forall₂ (fun e e' => equalsIgnoreCase e.1 e'.1 = true ∧ e.2 = e'.2) entries entries'

/-- The names are distinct in any case. -/
def Distinct (entries : Entries) : Prop := (entries.map fun e => e.1.map toLowerCase).Nodup

/-! ## The condition -/

/-- A header, by a name in any case, with its value. -/
def Carries (headers : List (JString × JString)) (name t : JString) : Prop :=
  ∃ h ∈ headers, equalsIgnoreCase h.1 name = true ∧ h.2 = t

/-- The result is hijacked. -/
def Hijacks (entries : Entries) : Prop := ∃ value, (HIJACK, value) ∈ entries ∧ value ≠ .falsy

/-- The body is taken for one that is chunked already. -/
def Chunks (entries : Entries) : Prop := (TRANSFER_ENCODING, .text CHUNKED) ∈ entries

/-- The same headers are forwarded until a value is no string, and with
that it ends for both or for none; and unless it ends there or the result
is hijacked, both bodies are taken for chunked or none. -/
structure SpelledAlike (entries entries' : Entries) : Prop where
  forwarded : ∀ name t, Carries (forwarded entries) name t ↔ Carries (forwarded entries') name t
  stops : stops entries = stops entries'
  chunks : Response.stops entries = true ∨ Hijacks entries ∨ (Chunks entries ↔ Chunks entries')

/-! ## Entries and their names -/

theorem Recased.symm {entries entries' : Entries} (h : Recased entries entries') :
    Recased entries' entries :=
  List.Forall₂.flip (h.imp fun _ _ he => ⟨equalsIgnoreCase_comm _ _ ▸ he.1, he.2.symm⟩)

/-- Every entry is in the other list, by a name of the same letters. -/
theorem Recased.exists_mem {entries entries' : Entries} (h : Recased entries entries')
    {e : JString × HeaderValue} (he : e ∈ entries) :
    ∃ e' ∈ entries', equalsIgnoreCase e.1 e'.1 = true ∧ e.2 = e'.2 := by
  induction h with
  | nil => cases he
  | @cons e₁ e₁' entries entries' hhead _ ih =>
    rcases List.mem_cons.mp he with rfl | he
    · exact ⟨e₁', List.mem_cons_self, hhead⟩
    · obtain ⟨e', he', hpair⟩ := ih he
      exact ⟨e', List.mem_cons_of_mem _ he', hpair⟩

/-- What holds of every two entries in one place. -/
theorem Recased.forall₂ {P : JString × HeaderValue → JString × HeaderValue → Prop}
    {entries entries' : Entries} (h : Recased entries entries')
    (hpair : ∀ e ∈ entries, ∀ e' ∈ entries', equalsIgnoreCase e.1 e'.1 = true → e.2 = e'.2 →
      P e e') : List.Forall₂ P entries entries' := by
  rw [List.forall₂_iff_zip]
  refine ⟨h.length_eq, fun {e e'} hmem => ?_⟩
  obtain ⟨hname, hvalue⟩ := List.forall₂_zip h hmem
  obtain ⟨he, he'⟩ := List.of_mem_zip hmem
  exact hpair e he e' he' hname hvalue

/-- The names of the other list are distinct too. -/
theorem Distinct.recased {entries entries' : Entries} (hd : Distinct entries)
    (h : Recased entries entries') : Distinct entries' := by
  have hnames : entries.map (fun e => e.1.map toLowerCase) =
      entries'.map fun e => e.1.map toLowerCase := by
    rw [← List.forall₂_eq_eq_eq, List.forall₂_map_left_iff, List.forall₂_map_right_iff]
    exact h.imp fun e e' he => by simpa [equalsIgnoreCase] using he.1
  unfold Distinct
  rwa [← hnames]

/-- Two entries of one name are one. -/
theorem Distinct.eq {entries : Entries} (hd : Distinct entries) {e e' : JString × HeaderValue}
    (he : e ∈ entries) (he' : e' ∈ entries) (hname : equalsIgnoreCase e.1 e'.1 = true) : e = e' :=
  List.inj_on_of_nodup_map hd he he' (by simpa [equalsIgnoreCase] using hname)

/-- The names of the headers that are forwarded are distinct. -/
theorem Distinct.forwarded {entries : Entries} (hd : Distinct entries) :
    (forwarded entries).Pairwise fun h h' => equalsIgnoreCase h.1 h'.1 = false := by
  have hnodup : ((Response.forwarded entries).map fun h => h.1.map toLowerCase).Nodup := by
    have hsub := (forwarded_sublist entries).map fun e => e.1.map toLowerCase
    rw [List.map_map] at hsub
    exact hsub.nodup hd
  refine (List.pairwise_map.mp hnodup).imp fun hne => ?_
  simpa [equalsIgnoreCase] using hne

/-- A header that is carried is an entry. -/
theorem Carries.mem {entries : Entries} {name t : JString}
    (h : Carries (forwarded entries) name t) :
    ∃ key, (key, HeaderValue.text t) ∈ entries ∧ equalsIgnoreCase key name = true ∧
      ¬ (key = CONTENT_LENGTH ∨ key = HIJACK) := by
  obtain ⟨h, hh, hname, rfl⟩ := h
  have hmem : (h.1, HeaderValue.text h.2) ∈
      (forwarded entries).map fun h => (h.1, HeaderValue.text h.2) := List.mem_map_of_mem hh
  exact ⟨h.1, (forwarded_sublist entries).subset hmem, hname, not_noted_of_mem_forwarded hh⟩

/-! ## The headers the two runs put -/

/-- The same was sent, header names being the same in any case. -/
structure SentAlike (s s' : Sent) : Prop where
  status : s.status = s'.status
  chunked : s.chunked = s'.chunked
  body : s.body = s'.body
  values : ∀ name, s.values name = s'.values name

variable (sep) in
/-- What a header has after headers were put. -/
theorem values_putAll {entries : Entries} (hd : Distinct entries) (s : Sent) (name : JString) :
    (∃ t, Carries (forwarded entries) name t ∧
        (putAll sep (forwarded entries) s).values name = split sep.chars t) ∨
      (∀ t, ¬ Carries (forwarded entries) name t) ∧
        (putAll sep (forwarded entries) s).values name = s.values name := by
  by_cases h : ∃ t, Carries (forwarded entries) name t
  · obtain ⟨t, h, hh, hname, rfl⟩ := h
    exact Or.inl ⟨h.2, ⟨h, hh, hname, rfl⟩, values_putAll_of_mem hd.forwarded hh hname⟩
  · rw [not_exists] at h
    refine Or.inr ⟨h, values_putAll_of_ne fun h' hh' => ?_⟩
    rw [Bool.eq_false_iff]
    exact fun hname => h h'.2 ⟨h', hh', hname, rfl⟩

/-- One value of a header is forwarded. -/
theorem Carries.unique {entries : Entries} (hd : Distinct entries) {name t t' : JString}
    (h : Carries (forwarded entries) name t) (h' : Carries (forwarded entries) name t') :
    t = t' := by
  obtain ⟨key, hmem, hname, -⟩ := h.mem
  obtain ⟨key', hmem', hname', -⟩ := h'.mem
  rw [equalsIgnoreCase_comm] at hname'
  have heq := hd.eq hmem hmem' (equalsIgnoreCase_trans hname hname')
  exact HeaderValue.text.inj (Prod.mk.inj heq).2

/-- **The same headers forwarded** leave the same. -/
theorem SentAlike.putAll {entries entries' : Entries} (hd : Distinct entries)
    (hd' : Distinct entries')
    (hforwarded : ∀ name t,
      Carries (forwarded entries) name t ↔ Carries (forwarded entries') name t)
    {s s' : Sent} (h : SentAlike s s') :
    SentAlike (putAll sep (forwarded entries) s) (putAll sep (forwarded entries') s') := by
  obtain ⟨hstatus, hchunked, hbody⟩ := putAll_frame sep (forwarded entries) s
  obtain ⟨hstatus', hchunked', hbody'⟩ := putAll_frame sep (forwarded entries') s'
  refine ⟨?_, ?_, ?_, fun name => ?_⟩
  · rw [hstatus, hstatus', h.status]
  · rw [hchunked, hchunked', h.chunked]
  · rw [hbody, hbody', h.body]
  · rcases values_putAll sep hd s name with ⟨t, ht, hvalues⟩ | ⟨hnone, hvalues⟩
    · rcases values_putAll sep hd' s' name with ⟨t', ht', hvalues'⟩ | ⟨hnone', -⟩
      · rw [hvalues, hvalues', ht'.unique hd' ((hforwarded name t).mp ht)]
      · exact absurd ((hforwarded name t).mp ht) (hnone' t)
    · rcases values_putAll sep hd' s' name with ⟨t', ht', -⟩ | ⟨-, hvalues'⟩
      · exact absurd ((hforwarded name t').mpr ht') (hnone t')
      · rw [hvalues, hvalues', h.values]

/-- No value is nothing on every platform. -/
theorem exists_split_ne_nil (t : JString) : ∃ sep : LineSeparator, split sep.chars t ≠ [] := by
  cases t with
  | nil => exact ⟨.lf, by decide⟩
  | cons c t =>
    by_cases hc : c = '\n'
    · exact ⟨.cr, split_ne_nil List.mem_cons_self (by rw [hc]; decide)⟩
    · exact ⟨.lf, split_ne_nil List.mem_cons_self hc⟩

/-- Where the headers come out the same on every platform, what is
forwarded of the one list is forwarded of the other. -/
theorem Carries.of_values {entries entries' : Entries} (hd : Distinct entries)
    (hrecased : Recased entries entries') {s : Sent} (hs : ∀ name, s.values name = [])
    (hvalues : ∀ sep name, (Response.putAll sep (forwarded entries) s).values name =
      (Response.putAll sep (forwarded entries') s).values name) {name t : JString}
    (h : Carries (forwarded entries) name t) : Carries (forwarded entries') name t := by
  have hd' := hd.recased hrecased
  obtain ⟨sep, hsplit⟩ := exists_split_ne_nil t
  have hleft : (Response.putAll sep (forwarded entries) s).values name = split sep.chars t := by
    rcases values_putAll sep hd s name with ⟨t₁, ht₁, hleft⟩ | ⟨hnone, -⟩
    · rw [hleft, ht₁.unique hd h]
    · exact absurd h (hnone t)
  rcases values_putAll sep hd' s name with ⟨t', ht', -⟩ | ⟨-, hright⟩
  · -- the entry of the name has one value in both lists
    obtain ⟨key, hmem, hname, -⟩ := h.mem
    obtain ⟨key', hmem', hname', -⟩ := ht'.mem
    obtain ⟨e', he', hkey, hvalue⟩ := hrecased.exists_mem hmem
    rw [equalsIgnoreCase_comm] at hkey hname'
    have heq := hd'.eq he' hmem' (equalsIgnoreCase_trans hkey (equalsIgnoreCase_trans hname hname'))
    rw [heq] at hvalue
    rwa [HeaderValue.text.inj hvalue]
  · rw [hvalues, hright, hs] at hleft
    exact absurd hleft.symm hsplit

/-! ## What the two runs note -/

theorem text_of_not_stops {entries : Entries} (hstops : stops entries = false)
    {e : JString × HeaderValue} (he : e ∈ entries)
    (hkey : ¬ (e.1 = CONTENT_LENGTH ∨ e.1 = HIJACK)) : ∃ t, e.2 = .text t := by
  have hput := List.any_eq_false.mp hstops e he
  obtain ⟨hlength, hhijack⟩ := not_or.mp hkey
  cases hvalue : e.2 with
  | text t => exact ⟨t, rfl⟩
  | falsy | object toS => simp [hlength, hhijack, hvalue, HeaderValue.isText] at hput

/-- **A name that is only noted is only noted in the other run**, where
the other run forwards nothing that this one does not. -/
theorem key_eq_of_noted {entries entries' : Entries} (hd : Distinct entries)
    (hstops' : stops entries' = false)
    (hforwarded : ∀ name t,
      Carries (forwarded entries') name t → Carries (forwarded entries) name t)
    {e e' : JString × HeaderValue} (he : e ∈ entries) (he' : e' ∈ entries')
    (hname : equalsIgnoreCase e.1 e'.1 = true) (hkey : e.1 = CONTENT_LENGTH ∨ e.1 = HIJACK) :
    e'.1 = e.1 := by
  by_cases hkey' : e'.1 = CONTENT_LENGTH ∨ e'.1 = HIJACK
  · have hne : equalsIgnoreCase CONTENT_LENGTH HIJACK = false := by decide
    rcases hkey with hkey | hkey <;> rcases hkey' with hkey' | hkey' <;>
      rw [hkey, hkey'] at hname ⊢
    · rw [hne] at hname
      cases hname
    · rw [equalsIgnoreCase_comm, hne] at hname
      cases hname
  · -- it is forwarded there, and so here, by a name that is this one
    obtain ⟨t, ht⟩ := text_of_not_stops hstops' he' hkey'
    have hcarries : Carries (forwarded entries') e.1 t :=
      ⟨(e'.1, t), mem_forwarded hstops' (ht ▸ he') hkey', equalsIgnoreCase_comm _ _ ▸ hname, rfl⟩
    obtain ⟨key, hmem, hkeyname, hnoted⟩ := (hforwarded e.1 t hcarries).mem
    have heq := hd.eq hmem he hkeyname
    rw [← heq] at hkey
    exact absurd hkey hnoted

/-- A hijack entry is one in the other list. -/
theorem Hijacks.recased {entries entries' : Entries} (hd : Distinct entries)
    (hrecased : Recased entries entries') (hstops' : stops entries' = false)
    (hforwarded : ∀ name t,
      Carries (forwarded entries') name t → Carries (forwarded entries) name t)
    (h : Hijacks entries) : Hijacks entries' := by
  obtain ⟨value, hmem, hne⟩ := h
  obtain ⟨e', he', hname, hvalue⟩ := hrecased.exists_mem hmem
  have hkey := key_eq_of_noted hd hstops' hforwarded hmem he' hname (Or.inr rfl)
  have heq : e' = (HIJACK, value) := Prod.ext hkey hvalue.symm
  exact ⟨value, heq ▸ he', hne⟩

theorem contentLength_note (r : Response) (e : JString × HeaderValue) :
    (note r e).contentLength =
      if e.1 = CONTENT_LENGTH then e.2
      else if e = (TRANSFER_ENCODING, .text CHUNKED) then .falsy
      else r.contentLength := by
  obtain ⟨key, value⟩ := e
  simp only [note, Prod.mk.injEq]
  split_ifs <;> simp_all

theorem chunked_note (r : Response) (e : JString × HeaderValue) :
    (note r e).chunked =
      if e.1 = TRANSFER_ENCODING then decide (e.2 = .text CHUNKED) else r.chunked := by
  have hne : CONTENT_LENGTH ≠ TRANSFER_ENCODING := by decide
  have hne' : HIJACK ≠ TRANSFER_ENCODING := by decide
  unfold note
  split_ifs <;> simp_all

theorem hijack_note (r : Response) (e : JString × HeaderValue) :
    (note r e).hijack = if e.1 = HIJACK then e.2 else r.hijack := by
  have hne : CONTENT_LENGTH ≠ HIJACK := by decide
  have hne' : TRANSFER_ENCODING ≠ HIJACK := by decide
  unfold note
  split_ifs <;> simp_all

theorem status_note (r : Response) (e : JString × HeaderValue) : (note r e).status = r.status := by
  unfold note
  split_ifs <;> rfl

/-- What the entry of a name has noted is there in the end, and without
one what was there before. -/
theorem foldl_note {α : Type*} (field : Response → α) (g : HeaderValue → α) {key : JString}
    (hfield : ∀ r e, field (note r e) = if e.1 = key then g e.2 else field r) {entries : Entries}
    (hn : (entries.map Prod.fst).Nodup) (r : Response) :
    (∃ value, (key, value) ∈ entries ∧ field (entries.foldl note r) = g value) ∨
      key ∉ entries.map Prod.fst ∧ field (entries.foldl note r) = field r := by
  induction entries generalizing r with
  | nil => exact Or.inr ⟨List.not_mem_nil, rfl⟩
  | cons e entries ih =>
    obtain ⟨hkey, hn⟩ := List.nodup_cons.mp hn
    rw [List.foldl_cons]
    rcases ih hn (note r e) with ⟨value, hmem, hvalue⟩ | ⟨hnone, hvalue⟩
    · exact Or.inl ⟨value, List.mem_cons_of_mem _ hmem, hvalue⟩
    · rw [hfield] at hvalue
      by_cases he : e.1 = key
      · rw [if_pos he] at hvalue
        subst he
        exact Or.inl ⟨e.2, List.mem_cons_self, hvalue⟩
      · rw [if_neg he] at hvalue
        refine Or.inr ⟨?_, hvalue⟩
        rw [List.map_cons, List.mem_cons, not_or]
        exact ⟨Ne.symm he, hnone⟩

theorem status_foldl_note (entries : Entries) (r : Response) :
    (entries.foldl note r).status = r.status := by
  induction entries generalizing r with
  | nil => rfl
  | cons e entries ih => rw [List.foldl_cons, ih, status_note]

/-- What is noted alike of each entry is alike in the end. -/
theorem foldl_note_congr {α : Type*} (field : Response → α)
    {P : JString × HeaderValue → JString × HeaderValue → Prop} {entries entries' : Entries}
    (h : List.Forall₂ P entries entries')
    (hstep : ∀ r r' e e', P e e' → field r = field r' → field (note r e) = field (note r' e'))
    {r r' : Response} (hr : field r = field r') :
    field (entries.foldl note r) = field (entries'.foldl note r') := by
  induction h generalizing r r' with
  | nil => exact hr
  | cons he _ ih => exact ih (hstep r r' _ _ he hr)

theorem value_eq_of_mem {entries : Entries} (hn : (entries.map Prod.fst).Nodup) {key : JString}
    {value value' : HeaderValue} (h : (key, value) ∈ entries) (h' : (key, value') ∈ entries) :
    value = value' :=
  (Prod.mk.inj (List.inj_on_of_nodup_map hn h h' rfl)).2

/-- A result is hijacked where its headers say so. -/
theorem hijack_foldl_note {entries : Entries} (hn : (entries.map Prod.fst).Nodup) {r : Response}
    (hr : r.hijack = .falsy) : (entries.foldl note r).hijack ≠ .falsy ↔ Hijacks entries := by
  rcases foldl_note Response.hijack id hijack_note hn r with ⟨value, hmem, hvalue⟩ | ⟨hnone, hvalue⟩
  · rw [hvalue, id]
    constructor
    · exact fun hne => ⟨value, hmem, hne⟩
    · rintro ⟨value', hmem', hne⟩
      rwa [value_eq_of_mem hn hmem hmem']
  · rw [hvalue, hr]
    refine iff_of_false (fun h => h rfl) ?_
    rintro ⟨value, hmem, -⟩
    exact hnone (List.mem_map_of_mem hmem)

/-- The body is taken for chunked where they say so. -/
theorem chunks_foldl_note {entries : Entries} (hn : (entries.map Prod.fst).Nodup) {r : Response}
    (hr : r.chunked = false) : (entries.foldl note r).chunked = true ↔ Chunks entries := by
  rcases foldl_note Response.chunked (fun v => decide (v = .text CHUNKED)) chunked_note hn r with
    ⟨value, hmem, hvalue⟩ | ⟨hnone, hvalue⟩
  · rw [hvalue, decide_eq_true_eq]
    constructor
    · rintro rfl
      exact hmem
    · exact fun hmem' => value_eq_of_mem hn hmem hmem'
  · rw [hvalue, hr]
    exact iff_of_false Bool.false_ne_true fun hmem => hnone (List.mem_map_of_mem hmem)

/-- What the rest of `respond` reads of two responses is the same. -/
structure NotedAlike (r r' : Response) : Prop where
  status : r.status = r'.status
  body : r.body = r'.body
  hijack : r.hijack = r'.hijack
  contentLength : r.hijack = .falsy → r.contentLength = r'.contentLength
  chunked : r.hijack = .falsy → r.chunked = r'.chunked

/-- An entry is spelled as one that is only noted in both lists or in
neither. -/
theorem SpelledAlike.key_iff {entries entries' : Entries} (halike : SpelledAlike entries entries')
    (hd : Distinct entries) (hd' : Distinct entries') (hstops : Response.stops entries = false)
    {e e' : JString × HeaderValue} (he : e ∈ entries) (he' : e' ∈ entries')
    (hname : equalsIgnoreCase e.1 e'.1 = true) {key : JString}
    (hnoted : key = CONTENT_LENGTH ∨ key = HIJACK) : e.1 = key ↔ e'.1 = key := by
  have hstops' : Response.stops entries' = false := halike.stops ▸ hstops
  constructor
  · intro heq
    rw [key_eq_of_noted hd hstops' (fun name t => (halike.forwarded name t).mpr) he he' hname
      (by rwa [heq]), heq]
  · intro heq
    rw [equalsIgnoreCase_comm] at hname
    rw [key_eq_of_noted hd' hstops (fun name t => (halike.forwarded name t).mp) he' he hname
      (by rwa [heq]), heq]

/-- Where both bodies are taken for chunked or none, so it is with the
entries that say so. -/
theorem Distinct.chunked_iff {entries entries' : Entries} (hd : Distinct entries)
    (hd' : Distinct entries') (hchunks : Chunks entries ↔ Chunks entries')
    {e e' : JString × HeaderValue} (he : e ∈ entries) (he' : e' ∈ entries')
    (hname : equalsIgnoreCase e.1 e'.1 = true) :
    e = (TRANSFER_ENCODING, .text CHUNKED) ↔ e' = (TRANSFER_ENCODING, .text CHUNKED) := by
  constructor
  · rintro rfl
    exact hd'.eq he' (hchunks.mp he) (equalsIgnoreCase_comm _ _ ▸ hname)
  · rintro rfl
    exact hd.eq he (hchunks.mpr he') hname

/-- Both are hijacked by the same object, or neither is. -/
theorem SpelledAlike.hijack_eq {entries entries' : Entries} (halike : SpelledAlike entries entries')
    (hd : Distinct entries) (hrecased : Recased entries entries')
    (hstops : Response.stops entries = false) {r r' : Response} (hr : r.hijack = r'.hijack) :
    (entries.foldl note r).hijack = (entries'.foldl note r').hijack := by
  refine foldl_note_congr Response.hijack
    (P := fun e e' => e.2 = e'.2 ∧ (e.1 = HIJACK ↔ e'.1 = HIJACK)) ?_ ?_ hr
  · exact hrecased.forall₂ fun e he e' he' hname hvalue =>
      ⟨hvalue, halike.key_iff hd (hd.recased hrecased) hstops he he' hname (Or.inr rfl)⟩
  · rintro r r' e e' ⟨hvalue, hkey⟩ hr
    simp only [hijack_note, hkey, hvalue, hr]

/-- The same length is noted last. -/
theorem SpelledAlike.contentLength_eq {entries entries' : Entries}
    (halike : SpelledAlike entries entries') (hd : Distinct entries)
    (hrecased : Recased entries entries') (hstops : Response.stops entries = false)
    (hchunks : Chunks entries ↔ Chunks entries') {r r' : Response}
    (hr : r.contentLength = r'.contentLength) :
    (entries.foldl note r).contentLength = (entries'.foldl note r').contentLength := by
  have hd' := hd.recased hrecased
  refine foldl_note_congr Response.contentLength
    (P := fun e e' => e.2 = e'.2 ∧ (e.1 = CONTENT_LENGTH ↔ e'.1 = CONTENT_LENGTH) ∧
      (e = (TRANSFER_ENCODING, .text CHUNKED) ↔ e' = (TRANSFER_ENCODING, .text CHUNKED)))
    ?_ ?_ hr
  · exact hrecased.forall₂ fun e he e' he' hname hvalue =>
      ⟨hvalue, halike.key_iff hd hd' hstops he he' hname (Or.inl rfl),
        hd.chunked_iff hd' hchunks he he' hname⟩
  · rintro r r' e e' ⟨hvalue, hkey, hchunked⟩ hr
    simp only [contentLength_note, hkey, hvalue, hchunked, hr]

/-- **The two runs note the same**, as far as it is read, if they are
spelled alike and do not stop. -/
theorem NotedAlike.foldl_note {headers headers' : Headers} (hd : Distinct headers.entries)
    (hrecased : Recased headers.entries headers'.entries)
    (halike : SpelledAlike headers.entries headers'.entries)
    (hstops : stops headers.entries = false) (status : ℤ) (body : Body) :
    NotedAlike (headers.entries.foldl note (new status headers body))
      (headers'.entries.foldl note (new status headers' body)) := by
  have hchunks : (headers.entries.foldl note (new status headers body)).hijack = .falsy →
      (Chunks headers.entries ↔ Chunks headers'.entries) := by
    intro hfalsy
    refine (halike.chunks.resolve_left (by simp [hstops])).resolve_left fun hhijacks => ?_
    exact (hijack_foldl_note headers.nodup rfl).mpr hhijacks hfalsy
  refine ⟨?_, ?_, halike.hijack_eq hd hrecased hstops rfl, fun hfalsy => ?_, fun hfalsy => ?_⟩
  · rw [status_foldl_note, status_foldl_note]
    rfl
  · rw [body_foldl_note, body_foldl_note]
    rfl
  · exact halike.contentLength_eq hd hrecased hstops (hchunks hfalsy) rfl
  · rw [Bool.eq_iff_iff, chunks_foldl_note headers.nodup rfl, chunks_foldl_note headers'.nodup rfl]
    exact hchunks hfalsy

/-! ## The two runs -/

theorem SentAlike.putHeader {s s' : Sent} (h : SentAlike s s') (name : JString)
    (vs : List JString) : SentAlike (s.putHeader name vs) (s'.putHeader name vs) := by
  refine ⟨h.status, h.chunked, h.body, fun name' => ?_⟩
  cases hname : equalsIgnoreCase name name' with
  | true => rw [Sent.values_putHeader_self vs hname, Sent.values_putHeader_self vs hname]
  | false =>
    rw [Sent.values_putHeader_of_ne vs hname, Sent.values_putHeader_of_ne vs hname, h.values]

theorem respAlike_recorder : RespAlike SentAlike Sent.recorder Sent.recorder where
  setStatusCode _ := .modify fun _ _ h => ⟨rfl, h.chunked, h.body, h.values⟩
  putHeader _ _ := .modify fun _ _ h => h.putHeader _ _
  setChunked _ := .modify fun _ _ h => ⟨h.status, rfl, h.body, h.values⟩

/-- **The body is written alike.** -/
theorem related_writeBody {r r' : Response} (hbody : r.body = r'.body)
    (hlength : r.contentLength = r'.contentLength) (hchunked : r.chunked = r'.chunked) :
    Act.Related SentAlike Eq (writeBody (recording sep decoders) r)
      (writeBody (recording sep decoders) r') := by
  have hsame : writeBody (recording sep decoders) r = writeBody (recording sep decoders) r' := by
    unfold writeBody
    rw [hbody, hlength, hchunked]
  rw [hsame]
  exact respAlike_recorder.writeBody (fun _ => .modify fun _ _ h =>
    ⟨h.status, h.chunked, congrArg (· ++ _) h.body, h.values⟩) r'

/-- **The headers are written alike**, if they are spelled alike. -/
theorem related_writeHeaders {headers headers' : Headers} (hd : Distinct headers.entries)
    (hrecased : Recased headers.entries headers'.entries)
    (halike : SpelledAlike headers.entries headers'.entries) (status : ℤ) (body : Body) :
    Act.Related SentAlike (fun r r' => stops headers.entries = false ∧ NotedAlike r r')
      (writeHeaders (recording sep decoders) (new status headers body))
      (writeHeaders (recording sep decoders) (new status headers' body)) := by
  intro s s' h
  change Act.Alike _ (writeHeaders' _ headers.entries _ s).1
    (writeHeaders' _ headers'.entries _ s').1 ∧ SentAlike (writeHeaders' _ headers.entries _ s).2
      (writeHeaders' _ headers'.entries _ s').2
  rw [writeHeaders'_eq, writeHeaders'_eq, ← halike.stops]
  refine ⟨?_, h.putAll hd (hd.recased hrecased) halike.forwarded⟩
  cases hstops : stops headers.entries with
  | true => exact .error _
  | false => exact .ok ⟨rfl, .foldl_note hd hrecased halike hstops status body⟩

end Response

end Jubilee
