import Mathlib.Algebra.Order.BigOperators.Group.List
import Mathlib.Algebra.Order.Group.Nat
import Mathlib.Data.List.Basic
import Mathlib.Order.Basic
import Mathlib.Tactic.Common
/-!
# UTF-8, and decoding what is not UTF-8

A decoder that refuses nothing replaces what it cannot decode, some bytes
at a time, by the replacement character. `Decodes` says what it may
answer: it leaves open how many bytes, up to three, go with one
replacement, where decoders differ. Bytes that are the encoding of a
string decode to that string (`Decodes.eq_of_encode`), and encoding an
answer never gives fewer bytes (`Decodes.length_le`).
-/

namespace Jubilee

/-- The UTF-8 encoding of a string. -/
def encodeUtf8 (s : List Char) : List UInt8 := s.flatMap String.utf8EncodeChar

@[simp] theorem encodeUtf8_nil : encodeUtf8 [] = [] := rfl

@[simp] theorem encodeUtf8_cons (c : Char) (s : List Char) :
    encodeUtf8 (c :: s) = String.utf8EncodeChar c ++ encodeUtf8 s := rfl

/-- The bytes are the encoding of some string. -/
def IsUtf8 (bs : List UInt8) : Prop := ∃ s, encodeUtf8 s = bs

/-! ## One character -/

/-- The character that the bytes start with, if they start with one. -/
def nextChar? (bs : List UInt8) : Option Char := bs.toByteArray.utf8DecodeChar? 0

theorem nextChar?_encode (c : Char) (bs : List UInt8) :
    nextChar? (String.utf8EncodeChar c ++ bs) = some c := by
  rw [nextChar?, List.toByteArray_append, ByteArray.utf8DecodeChar?_utf8EncodeChar_append]

/-- The bytes start with a character just where its encoding is a prefix. -/
theorem nextChar?_eq_some_iff {bs : List UInt8} {c : Char} :
    nextChar? bs = some c ↔ ∃ rest, bs = String.utf8EncodeChar c ++ rest := by
  constructor
  · intro h
    obtain ⟨l, hl⟩ := ByteArray.exists_of_utf8DecodeChar?_eq_some h
    have hdata := congrArg (fun b => b.data.toList) hl
    exact ⟨l.data.toList, by simpa using hdata⟩
  · rintro ⟨rest, rfl⟩
    exact nextChar?_encode c rest

/-- Encodings of characters are prefix-free. -/
theorem encode_inj {c d : Char} {bs bs' : List UInt8}
    (h : String.utf8EncodeChar c ++ bs = String.utf8EncodeChar d ++ bs') : c = d ∧ bs = bs' := by
  have hc := nextChar?_encode c bs
  rw [h, nextChar?_encode] at hc
  obtain rfl := Option.some.inj hc
  exact ⟨rfl, List.append_cancel_left h⟩

/-! ## Strings -/

/-- `U+FFFD`. -/
def replacement : Char := Char.ofNat 0xFFFD

/-- The bytes may decode to the string: characters are taken where the
bytes start with one, and elsewhere one to three bytes are replaced. -/
inductive Decodes : List UInt8 → List Char → Prop
  | nil : Decodes [] []
  | char (c : Char) {bs : List UInt8} {s : List Char} :
    Decodes bs s → Decodes (String.utf8EncodeChar c ++ bs) (c :: s)
  | malformed (seg : List UInt8) {bs : List UInt8} {s : List Char} :
    seg ≠ [] → seg.length ≤ 3 → nextChar? (seg ++ bs) = none → Decodes bs s →
      Decodes (seg ++ bs) (replacement :: s)

/-- **UTF-8 decodes to what it encodes.** -/
theorem Decodes.eq_of_encode {bs : List UInt8} {s t : List Char} (h : Decodes bs s)
    (ht : encodeUtf8 t = bs) : s = t := by
  induction h generalizing t with
  | nil =>
    cases t with
    | nil => rfl
    | cons c t => simp [String.utf8EncodeChar_ne_nil] at ht
  | @char c bs s _ ih =>
    cases t with
    | nil => exact absurd (List.append_eq_nil_iff.mp ht.symm).1 String.utf8EncodeChar_ne_nil
    | cons d t =>
      obtain ⟨rfl, hrest⟩ := encode_inj ht
      rw [ih hrest]
  | @malformed seg bs s hne _ hnone _ _ =>
    cases t with
    | nil => exact absurd (List.append_eq_nil_iff.mp ht.symm).1 hne
    | cons d t =>
      rw [← ht, encodeUtf8_cons, nextChar?_encode] at hnone
      cases hnone

/-- **Encoding what was decoded never gives fewer bytes.** -/
theorem Decodes.length_le {bs : List UInt8} {s : List Char} (h : Decodes bs s) :
    bs.length ≤ (encodeUtf8 s).length := by
  induction h with
  | nil => exact Nat.le_refl 0
  | char c _ ih =>
    simp only [encodeUtf8_cons, List.length_append]
    omega
  | malformed seg _ hle _ _ ih =>
    have hthree : (String.utf8EncodeChar replacement).length = 3 := by decide
    simp only [encodeUtf8_cons, List.length_append]
    omega

/-- The round trip gives the bytes back just where they are UTF-8. -/
theorem Decodes.encode_eq_iff {bs : List UInt8} {s : List Char} (h : Decodes bs s) :
    encodeUtf8 s = bs ↔ IsUtf8 bs := by
  constructor
  · exact fun he => ⟨s, he⟩
  · rintro ⟨t, ht⟩
    rw [h.eq_of_encode ht, ht]

/-! ## Characters of one byte each -/

/-- Encoding what was decoded byte by byte never gives fewer bytes. -/
theorem length_le_encode_map (f : UInt8 → Char) (bs : List UInt8) :
    bs.length ≤ (encodeUtf8 (bs.map f)).length := by
  induction bs with
  | nil => exact Nat.le_refl 0
  | cons b bs ih =>
    have hpos : 0 < (String.utf8EncodeChar (f b)).length :=
      List.length_pos_iff.mpr String.utf8EncodeChar_ne_nil
    simp only [List.map_cons, encodeUtf8_cons, List.length_append, List.length_cons]
    omega

/-- A decoder of single bytes that is right on ASCII, and answers no ASCII
elsewhere, gives the bytes back just where they are ASCII. -/
theorem encode_map_eq_iff {f : UInt8 → Char}
    (hascii : ∀ b, b < 128 → String.utf8EncodeChar (f b) = [b])
    (hlong : ∀ b, ¬ b < 128 → 2 ≤ (String.utf8EncodeChar (f b)).length) {bs : List UInt8} :
    encodeUtf8 (bs.map f) = bs ↔ ∀ b ∈ bs, b < 128 := by
  induction bs with
  | nil => simp
  | cons b bs ih =>
    rw [List.map_cons, encodeUtf8_cons, List.forall_mem_cons]
    by_cases hb : b < 128
    · rw [hascii b hb, List.singleton_append, List.cons_eq_cons, ih]
      simp [hb]
    · -- two bytes for the first, and for the others no fewer than they were
      constructor
      · intro h
        have hlen := congrArg List.length h
        have hle := length_le_encode_map f bs
        have htwo := hlong b hb
        rw [List.length_append, List.length_cons] at hlen
        omega
      · exact fun h => absurd h.1 hb

/-- A character whose encoding has an ASCII byte is that byte. -/
theorem encode_of_ascii_mem {c : Char} {b : UInt8} (hb : b < 128)
    (h : b ∈ String.utf8EncodeChar c) : String.utf8EncodeChar c = [b] := by
  have hhigh : ∀ k, 128 ≤ k → k < 256 → b ≠ UInt8.ofNat k := by
    rintro k hk hk' rfl
    rw [UInt8.lt_iff_toNat_lt, UInt8.toNat_ofNat', Nat.mod_eq_of_lt hk'] at hb
    exact absurd hb (by simpa using hk)
  unfold String.utf8EncodeChar at h ⊢
  simp only at h ⊢
  split_ifs at h ⊢
  · rw [List.mem_singleton.mp h]
  · simp only [List.mem_cons, List.not_mem_nil, or_false] at h
    rcases h with h | h <;> exact absurd h (hhigh _ (by omega) (by omega))
  · simp only [List.mem_cons, List.not_mem_nil, or_false] at h
    rcases h with h | h | h <;> exact absurd h (hhigh _ (by omega) (by omega))
  · simp only [List.mem_cons, List.not_mem_nil, or_false] at h
    rcases h with h | h | h | h <;> exact absurd h (hhigh _ (by omega) (by omega))

/-- An ASCII byte comes from its own character only. -/
theorem mem_of_mem_encodeUtf8 {c : Char} {b : UInt8} (hb : b < 128)
    (hc : String.utf8EncodeChar c = [b]) {s : List Char} (h : b ∈ encodeUtf8 s) : c ∈ s := by
  obtain ⟨d, hd, hmem⟩ := List.mem_flatMap.mp h
  have henc : String.utf8EncodeChar d ++ [] = String.utf8EncodeChar c ++ [] := by
    rw [encode_of_ascii_mem hb hmem, hc]
  rwa [← (encode_inj henc).1]

/-- The encodings of the first 256 characters. -/
theorem encode_ofNat (n : ℕ) (hn : n < 256) :
    (n < 128 → String.utf8EncodeChar (Char.ofNat n) = [UInt8.ofNat n]) ∧
      (¬ n < 128 → (String.utf8EncodeChar (Char.ofNat n)).length = 2) := by
  revert n
  decide +kernel

/-! ## Piece by piece -/

/-- Where no piece got shorter, the whole is what it was only if every piece
is. -/
theorem flatMap_eq_iff_of_length_le {α β : Type*} {f g : α → List β} {xs : List α}
    (h : ∀ x ∈ xs, (g x).length ≤ (f x).length) :
    xs.flatMap f = xs.flatMap g ↔ ∀ x ∈ xs, f x = g x := by
  induction xs with
  | nil => simp
  | cons x xs ih =>
    obtain ⟨hx, hxs⟩ := List.forall_mem_cons.mp h
    have hle : (xs.flatMap g).length ≤ (xs.flatMap f).length := by
      rw [List.length_flatMap, List.length_flatMap]
      exact List.sum_le_sum hxs
    rw [List.flatMap_cons, List.flatMap_cons, List.forall_mem_cons, ← ih hxs]
    constructor
    · intro heq
      have hlen := congrArg List.length heq
      rw [List.length_append, List.length_append] at hlen
      exact List.append_inj heq (by omega)
    · rintro ⟨hfg, heq⟩
      rw [hfg, heq]

/-! ## A decoder -/

/-- A decoder that refuses nothing. -/
structure Utf8Decoder where
  decode : List UInt8 → List Char
  decodes : ∀ bs, Decodes bs (decode bs)

/-- Decode, replacing each byte that starts no character. The first
argument counts the bytes that belong to a character already taken. -/
def decodeBytewise : ℕ → List UInt8 → List Char
  | _, [] => []
  | k + 1, _ :: bs => decodeBytewise k bs
  | 0, b :: bs =>
    match nextChar? (b :: bs) with
    | some c => c :: decodeBytewise ((String.utf8EncodeChar c).length - 1) bs
    | none => replacement :: decodeBytewise 0 bs

theorem decodes_decodeBytewise (k : ℕ) (bs : List UInt8) :
    Decodes (bs.drop k) (decodeBytewise k bs) := by
  induction bs generalizing k with
  | nil =>
    rw [List.drop_nil, decodeBytewise]
    exact .nil
  | cons b bs ih =>
    cases k with
    | succ k => exact ih k
    | zero =>
      cases hc : nextChar? (b :: bs) with
      | none =>
        simp only [decodeBytewise, hc, List.drop_zero]
        exact .malformed [b] (by simp) (by simp) hc (ih 0)
      | some c =>
        obtain ⟨rest, hrest⟩ := nextChar?_eq_some_iff.mp hc
        have hpos : 0 < (String.utf8EncodeChar c).length :=
          List.length_pos_iff.mpr String.utf8EncodeChar_ne_nil
        have hdrop : bs.drop ((String.utf8EncodeChar c).length - 1) = rest := by
          have := congrArg (List.drop (String.utf8EncodeChar c).length) hrest
          rw [List.drop_left' rfl] at this
          rw [← this, ← Nat.sub_add_cancel hpos, List.drop_succ_cons, Nat.add_sub_cancel]
        have htail := ih ((String.utf8EncodeChar c).length - 1)
        rw [hdrop] at htail
        simp only [decodeBytewise, hc, List.drop_zero]
        rw [hrest]
        exact .char c htail

/-- The decoder that replaces one byte at a time. -/
def bytewise : Utf8Decoder where
  decode := decodeBytewise 0
  decodes := decodes_decodeBytewise 0

end Jubilee
