import Mathlib.Data.List.DropRight
import Mathlib.Data.List.Infix
import Mathlib.Tactic.Common
/-!
# Splitting at a separator

Java's `split` for a separator that is plain text: the pieces between its
occurrences from the left, without the empty pieces at the end. A text
the separator does not occur in is its own only piece.
-/

namespace Jubilee

variable {α : Type*} [DecidableEq α]

/-- The separator occurs. -/
def occurs (sep xs : List α) : Bool := xs.tails.any sep.isPrefixOf

/-- The pieces, after the piece `acc` that is being read. The first
argument counts what is left to pass of an occurrence. -/
def pieces (sep : List α) : ℕ → List α → List α → List (List α)
  | _, acc, [] => [acc]
  | k + 1, acc, _ :: xs => pieces sep k acc xs
  | 0, acc, x :: xs =>
    if sep.isPrefixOf (x :: xs) then acc :: pieces sep (sep.length - 1) [] xs
    else pieces sep 0 (acc ++ [x]) xs

/-- `split`. -/
def split (sep xs : List α) : List (List α) :=
  if occurs sep xs then (pieces sep 0 [] xs).rdropWhile (·.isEmpty) else [xs]

example : split ['\n'] "a\n\nb\n\n".toList = ["a".toList, [], "b".toList] := by decide
example : split ['\r', '\n'] "\r\n".toList = [] := by decide

theorem split_of_not_occurs {sep xs : List α} (h : occurs sep xs = false) :
    split sep xs = [xs] := by
  rw [split, h]
  rfl

/-- A separator does not occur where one of its letters does not. -/
theorem not_occurs_of_not_mem {sep xs : List α} {x : α} (hsep : x ∈ sep) (hxs : x ∉ xs) :
    occurs sep xs = false := by
  unfold occurs
  rw [List.any_eq_false]
  intro ys hys hpre
  have hsub : sep ⊆ ys := (List.isPrefixOf_iff_prefix.mp hpre).subset
  exact hxs (((List.mem_tails _ _).mp hys).subset (hsub hsep))

theorem occurs_of_mem {d : α} {xs : List α} (h : d ∈ xs) : occurs [d] xs = true := by
  obtain ⟨before, after, rfl⟩ := List.append_of_mem h
  have htail : d :: after ∈ (before ++ d :: after).tails :=
    (List.mem_tails _ _).mpr (List.suffix_append before (d :: after))
  exact List.any_eq_true.mpr ⟨_, htail, by simp [List.isPrefixOf]⟩

/-- **The separator occurs in no piece**, where none begins in the piece
that is being read. -/
theorem not_occurs_of_mem_pieces {sep acc xs piece : List α} {k : ℕ} (hsep : sep ≠ [])
    (hk : k = 0 ∨ acc = []) (hacc : ∀ ys, ys ≠ [] → ys <:+ acc → ¬ sep <+: ys ++ xs)
    (hp : piece ∈ pieces sep k acc xs) : occurs sep piece = false := by
  have hread : ∀ acc zs : List α, (∀ ys, ys ≠ [] → ys <:+ acc → ¬ sep <+: ys ++ zs) →
      occurs sep acc = false := by
    intro acc zs hzs
    rw [occurs, List.any_eq_false]
    intro ys hys hpre
    have hpre : sep <+: ys := List.isPrefixOf_iff_prefix.mp hpre
    have hne : ys ≠ [] := by
      rintro rfl
      exact hsep (List.prefix_nil.mp hpre)
    exact hzs ys hne ((List.mem_tails _ _).mp hys) (hpre.trans (List.prefix_append ys zs))
  have hnil : ∀ zs ys : List α, ys ≠ [] → ys <:+ [] → ¬ sep <+: ys ++ zs :=
    fun _ _ hne hys => absurd (List.suffix_nil.mp hys) hne
  induction xs generalizing k acc with
  | nil =>
    have hpiece : piece = acc := by cases k <;> exact List.mem_singleton.mp hp
    rw [hpiece]
    exact hread acc [] hacc
  | cons x xs ih =>
    cases k with
    | succ k =>
      obtain rfl := hk.resolve_left k.succ_ne_zero
      exact ih (Or.inr rfl) (hnil xs) hp
    | zero =>
      rw [pieces] at hp
      split at hp
      · rcases List.mem_cons.mp hp with rfl | hp
        · exact hread piece _ hacc
        · exact ih (Or.inr rfl) (hnil xs) hp
      · rename_i hnot
        refine ih (Or.inl rfl) (fun ys hne hys hpre => ?_) hp
        obtain rfl | ⟨ys', rfl, hys'⟩ := List.suffix_concat_iff.mp hys
        · exact hne rfl
        rw [List.append_assoc, List.singleton_append] at hpre
        by_cases hys'nil : ys' = []
        · subst hys'nil
          exact hnot (List.isPrefixOf_iff_prefix.mpr hpre)
        · exact hacc ys' hys'nil hys' hpre

/-- What is split has the separator in no piece. -/
theorem not_occurs_of_mem_split {sep xs piece : List α} (hsep : sep ≠ [])
    (hp : piece ∈ split sep xs) : occurs sep piece = false := by
  unfold split at hp
  split at hp
  · exact not_occurs_of_mem_pieces hsep (Or.inl rfl)
      (fun _ hne hys => absurd (List.suffix_nil.mp hys) hne)
      ((List.rdropWhile_prefix _ _).subset hp)
  · rename_i hoccurs
    rw [List.mem_singleton.mp hp]
    exact Bool.eq_false_iff.mpr hoccurs

/-- At a single letter the pieces are those of `List.splitOn`. -/
theorem pieces_singleton (d : α) (acc xs : List α) :
    pieces [d] 0 acc xs = (xs.splitOn d).modifyHead (acc ++ ·) := by
  induction xs generalizing acc with
  | nil => simp [pieces]
  | cons x xs ih =>
    rw [pieces, List.splitOn_cons_eq_if_modifyHead]
    by_cases h : x = d
    · subst h
      have hhead : [x].isPrefixOf (x :: xs) = true := by simp [List.isPrefixOf]
      rw [if_pos hhead, if_pos (beq_self_eq_true x), List.length_singleton, ih]
      cases xs.splitOn x <;> simp
    · have hhead : [d].isPrefixOf (x :: xs) = false := by simp [List.isPrefixOf, Ne.symm h]
      rw [hhead, if_neg Bool.false_ne_true, if_neg (by simpa using h), ih,
        List.modifyHead_modifyHead]
      refine congrArg₂ _ (funext fun ys => ?_) rfl
      simp

/-- Every letter but the separator is in a piece. -/
theorem exists_mem_splitOn {d x : α} {xs : List α} (hx : x ∈ xs) (hne : x ≠ d) :
    ∃ piece ∈ xs.splitOn d, x ∈ piece := by
  induction xs with
  | nil => cases hx
  | cons y ys ih =>
    rw [List.splitOn_cons_eq_if_modifyHead]
    by_cases hy : y = d
    · rw [if_pos (by simpa using hy)]
      have hmem : x ∈ ys := List.mem_of_ne_of_mem (fun h => hne (h.trans hy)) hx
      obtain ⟨piece, hpiece, hxp⟩ := ih hmem
      exact ⟨piece, List.mem_cons_of_mem _ hpiece, hxp⟩
    · rw [if_neg (by simpa using hy)]
      obtain ⟨head, tail, hsplit⟩ := List.exists_cons_of_ne_nil (List.splitOn_ne_nil d ys)
      rw [hsplit, List.modifyHead_cons]
      rcases List.mem_cons.mp hx with rfl | hmem
      · exact ⟨x :: head, List.mem_cons_self, List.mem_cons_self⟩
      · obtain ⟨piece, hpiece, hxp⟩ := ih hmem
        rw [hsplit] at hpiece
        rcases List.mem_cons.mp hpiece with rfl | hpiece
        · exact ⟨y :: piece, List.mem_cons_self, List.mem_cons_of_mem _ hxp⟩
        · exact ⟨piece, List.mem_cons_of_mem _ hpiece, hxp⟩

/-- And so splitting leaves something. -/
theorem split_ne_nil {d x : α} {xs : List α} (hx : x ∈ xs) (hne : x ≠ d) : split [d] xs ≠ [] := by
  unfold split
  split
  · rw [pieces_singleton]
    obtain ⟨piece, hpiece, hxp⟩ := exists_mem_splitOn hx hne
    rw [Ne, List.rdropWhile_eq_nil_iff]
    intro hempty
    have hmem : piece ∈ (xs.splitOn d).modifyHead ([] ++ ·) := by
      obtain ⟨head, tail, hsplit⟩ := List.exists_cons_of_ne_nil (List.splitOn_ne_nil d xs)
      rw [hsplit] at hpiece ⊢
      exact hpiece
    rw [List.isEmpty_iff.mp (hempty piece hmem)] at hxp
    cases hxp
  · exact List.cons_ne_nil _ _

/-- **Splitting undoes joining**, but for the empty pieces at the end. -/
theorem split_intercalate {d : α} {xss : List (List α)} (h : ∀ xs ∈ xss, d ∉ xs)
    (hmany : 2 ≤ xss.length) :
    split [d] ([d].intercalate xss) = xss.rdropWhile (·.isEmpty) := by
  obtain ⟨xs, ys, yss, rfl⟩ : ∃ xs ys yss, xss = xs :: ys :: yss := by
    rcases xss with _ | ⟨xs, _ | ⟨ys, yss⟩⟩
    · simp at hmany
    · simp at hmany
    · exact ⟨xs, ys, yss, rfl⟩
  have hmem : d ∈ [d].intercalate (xs :: ys :: yss) := by simp [List.intercalate_cons_cons]
  rw [split, occurs_of_mem hmem, if_pos rfl, pieces_singleton,
    List.splitOn_intercalate d h (List.cons_ne_nil _ _)]
  rfl

end Jubilee
