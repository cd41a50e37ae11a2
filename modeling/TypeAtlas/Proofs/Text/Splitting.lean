import Mathlib.Data.List.Infix
import TypeAtlas.Text.Replace

/-! Splitting a text at a character, and the pieces joined again. -/

namespace TypeAtlas

namespace Text

variable {sep : Char}

theorem split_cons_self (s : List Char) : split sep (sep :: s) = [] :: split sep s := by
  cases h : split sep s with
  | nil => exact absurd h (split_ne_nil sep s)
  | cons piece pieces => simp [split, h]

theorem split_cons_of_ne {c : Char} (hc : c ≠ sep) (s : List Char) :
    ∃ piece pieces, split sep s = piece :: pieces ∧
      split sep (c :: s) = (c :: piece) :: pieces := by
  cases h : split sep s with
  | nil => exact absurd h (split_ne_nil sep s)
  | cons piece pieces => exact ⟨piece, pieces, rfl, by simp [split, h, hc]⟩

theorem split_append_cons (s t : List Char) :
    split sep (s ++ sep :: t) = split sep s ++ split sep t := by
  induction s with
  | nil => exact split_cons_self t
  | cons c s ih =>
    by_cases hc : c = sep
    · subst hc
      rw [List.cons_append, split_cons_self, split_cons_self, ih]
      rfl
    · obtain ⟨piece, pieces, hs, hcons⟩ := split_cons_of_ne hc s
      obtain ⟨piece', pieces', hs', hcons'⟩ := split_cons_of_ne hc (s ++ sep :: t)
      rw [ih, hs] at hs'
      cases hs'
      rw [List.cons_append, hcons', hcons]
      rfl

theorem not_mem_of_mem_split {s piece : List Char} (h : piece ∈ split sep s) : sep ∉ piece := by
  induction s generalizing piece with
  | nil =>
    obtain rfl := List.mem_singleton.mp h
    exact List.not_mem_nil
  | cons c s ih =>
    by_cases hc : c = sep
    · subst hc
      rw [split_cons_self] at h
      rcases List.mem_cons.mp h with rfl | h
      · exact List.not_mem_nil
      · exact ih h
    · obtain ⟨first, pieces, hs, hcons⟩ := split_cons_of_ne hc s
      rw [hcons] at h
      rcases List.mem_cons.mp h with rfl | h
      · have hfirst := ih (hs ▸ List.mem_cons_self)
        exact fun hmem => (List.mem_cons.mp hmem).elim (fun heq => hc heq.symm) hfirst
      · exact ih (hs ▸ List.mem_cons_of_mem first h)

theorem split_of_not_mem {s : List Char} (h : sep ∉ s) : split sep s = [s] := by
  induction s with
  | nil => rfl
  | cons c s ih =>
    have hc : c ≠ sep := fun hc => h (hc ▸ List.mem_cons_self)
    obtain ⟨piece, pieces, hs, hcons⟩ := split_cons_of_ne hc s
    rw [ih fun hmem => h (List.mem_cons_of_mem c hmem)] at hs
    cases hs
    exact hcons

theorem split_intercalate {pieces : List (List Char)} (hne : pieces ≠ [])
    (h : ∀ piece ∈ pieces, sep ∉ piece) : split sep (List.intercalate [sep] pieces) = pieces := by
  induction pieces with
  | nil => exact absurd rfl hne
  | cons piece rest ih =>
    cases rest with
    | nil => simpa using split_of_not_mem (h piece List.mem_cons_self)
    | cons next rest =>
      have hrest := ih (List.cons_ne_nil _ _) fun p hp => h p (List.mem_cons_of_mem _ hp)
      have hfirst := split_of_not_mem (h piece List.mem_cons_self)
      have hcons : List.intercalate [sep] (piece :: next :: rest) =
          piece ++ sep :: List.intercalate [sep] (next :: rest) := by
        simp [List.intercalate]
      rw [hcons, split_append_cons, hrest, hfirst]
      rfl

theorem intercalate_split (sep : Char) (s : List Char) :
    List.intercalate [sep] (split sep s) = s := by
  induction s with
  | nil => rfl
  | cons c s ih =>
    by_cases hc : c = sep
    · subst hc
      rw [split_cons_self, List.intercalate_cons_of_ne_nil (split_ne_nil c s), ih]
      rfl
    · obtain ⟨piece, pieces, hs, hcons⟩ := split_cons_of_ne hc s
      rw [hs] at ih
      rw [hcons, List.intercalate_cons_cons_left, ih]

theorem mem_intercalate {sep c : Char} {pieces : List (List Char)}
    (h : c ∈ List.intercalate [sep] pieces) : c = sep ∨ ∃ piece ∈ pieces, c ∈ piece := by
  induction pieces with
  | nil => cases h
  | cons piece rest ih =>
    by_cases hnil : rest = []
    · subst hnil
      exact .inr ⟨piece, List.mem_cons_self, by simpa using h⟩
    · rw [List.intercalate_cons_of_ne_nil hnil, List.append_assoc, List.mem_append,
        List.mem_append, List.mem_singleton] at h
      rcases h with hpiece | hsep | hrest
      · exact .inr ⟨piece, List.mem_cons_self, hpiece⟩
      · exact .inl hsep
      · rcases ih hrest with hsep | ⟨other, hother, hc⟩
        · exact .inl hsep
        · exact .inr ⟨other, List.mem_cons_of_mem _ hother, hc⟩

end Text

end TypeAtlas
