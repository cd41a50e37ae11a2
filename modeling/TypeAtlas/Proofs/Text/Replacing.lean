import Mathlib.Data.List.Infix
import TypeAtlas.Text.Replace

/-! Replacing a part of a text that begins with a character it does not hold again, such as an
opening brace. Occurrences of such a part never overlap, so they can be counted and replaced one by
one, or only the first of them. -/

namespace TypeAtlas

namespace Text

def occurrences (part s : List Char) : Nat :=
  s.tails.countP part.isPrefixOf

/-- A text with every occurrence of a part replaced, from left to right. -/
inductive Replaced (part new : List Char) : List Char → List Char → Prop
  | nil : Replaced part new [] []
  | part {s out : List Char} (rest : Replaced part new s out) :
    Replaced part new (part ++ s) (new ++ out)
  | keep {x : Char} {s out : List Char} (h : ¬ part <+: x :: s) (rest : Replaced part new s out) :
    Replaced part new (x :: s) (x :: out)

/-- A text and one that has something new in some places of a part, the same places that a template
has. Between these places the two texts are the same. -/
inductive Placed (part new : List Char) : List Char → List Char → List Char → Prop
  | last {gap s : List Char} (h : occurrences part gap = 0) : Placed part new gap s s
  | place {gap u template s filled : List Char} (h : occurrences part gap = 0)
    (rest : Placed part new template s filled) :
    Placed part new (gap ++ (part ++ template)) (u ++ (part ++ s)) (u ++ (new ++ filled))

variable {part new s out u v : List Char} {x : Char}

theorem occurrences_cons (part s : List Char) (x : Char) :
    occurrences part (x :: s) = occurrences part s + if part <+: x :: s then 1 else 0 := by
  simp only [occurrences, List.tails_cons, List.countP_cons, List.isPrefixOf_iff_prefix]

theorem replaceFrom_length (part new u s : List Char) :
    replaceFrom part new u.length (u ++ s) = replaceAll part new s := by
  induction u with
  | nil => rfl
  | cons x u ih => exact ih

theorem replaceAll_cons (h : ¬ part <+: x :: s) :
    replaceAll part new (x :: s) = x :: replaceAll part new s := by
  have hfalse : part.isPrefixOf (x :: s) = false := by
    simpa [← List.isPrefixOf_iff_prefix] using h
  simp [replaceAll, replaceFrom, hfalse]

section Part

variable {c : Char} {tail : List Char}

theorem replaceAll_part (c : Char) (tail new s : List Char) :
    replaceAll (c :: tail) new (c :: tail ++ s) = new ++ replaceAll (c :: tail) new s := by
  have htrue : (c :: tail).isPrefixOf (c :: (tail ++ s)) = true := by
    simp [List.isPrefixOf_iff_prefix]
  have hskip : (c :: tail).length - 1 = tail.length := rfl
  rw [List.cons_append, replaceAll, replaceFrom, if_pos htrue, hskip, replaceFrom_length]

theorem replaced_replaceAll (c : Char) (tail new s : List Char) :
    Replaced (c :: tail) new s (replaceAll (c :: tail) new s) := by
  induction hn : s.length using Nat.strongRecOn generalizing s with
  | ind n ih =>
    cases s with
    | nil => exact .nil
    | cons x s =>
      by_cases h : (c :: tail) <+: x :: s
      · obtain ⟨rest, hrest⟩ := h
        have hlt : rest.length < n := by
          rw [← hn, ← hrest, List.length_append, List.length_cons]
          omega
        rw [← hrest, replaceAll_part]
        exact .part (ih _ hlt rest rfl)
      · rw [replaceAll_cons h]
        exact .keep h (ih _ (by rw [← hn]; simp) s rfl)

variable (hc : c ∉ tail)
include hc

theorem prefix_append_part_iff :
    (c :: tail) <+: x :: (u ++ (c :: tail ++ v)) ↔ (c :: tail) <+: x :: u := by
  constructor
  · intro h
    have hu : x :: u <+: x :: u ++ (c :: tail ++ v) := List.prefix_append _ _
    rcases List.prefix_or_prefix_of_prefix h hu with hle | ⟨rest, hrest⟩
    · exact hle
    · -- what is left of the occurrence begins with its first character, unless nothing is left
      have hboth : x :: u ++ rest <+: x :: u ++ (c :: tail ++ v) := by
        rw [hrest]
        exact h
      have hleft := (List.prefix_append_right_inj _).mp hboth
      cases rest with
      | nil =>
        rw [← hrest, List.append_nil]
      | cons y rest =>
        obtain rfl := (List.cons_prefix_cons.mp hleft).1
        obtain ⟨-, htail⟩ := List.cons.inj hrest
        exact absurd (htail ▸ List.mem_append_right u List.mem_cons_self) hc
  · exact fun h => h.trans (List.prefix_append (x :: u) _)

omit hc in
theorem occurrences_append_of_not_mem (h : c ∉ u) :
    occurrences (c :: tail) (u ++ s) = occurrences (c :: tail) s := by
  induction u with
  | nil => rfl
  | cons y u ih =>
    have hy : ¬ (c :: tail) <+: y :: (u ++ s) := by
      rw [List.cons_prefix_cons]
      rintro ⟨rfl, -⟩
      exact h List.mem_cons_self
    rw [List.cons_append, occurrences_cons, if_neg hy, Nat.add_zero,
      ih fun hu => h (List.mem_cons_of_mem y hu)]

theorem occurrences_append_part (u v : List Char) :
    occurrences (c :: tail) (u ++ (c :: tail ++ v)) =
      occurrences (c :: tail) u + (occurrences (c :: tail) v + 1) := by
  induction u with
  | nil =>
    have hpart : (c :: tail) <+: c :: (tail ++ v) := List.prefix_append (c :: tail) v
    rw [List.nil_append, List.cons_append, occurrences_cons, if_pos hpart,
      occurrences_append_of_not_mem hc]
    simp [occurrences]
  | cons x u ih =>
    simp only [List.cons_append] at ih ⊢
    have hiff := prefix_append_part_iff hc (x := x) (u := u) (v := v)
    rw [List.cons_append] at hiff
    simp only [occurrences_cons, ih, hiff]
    omega

theorem occurrences_part_append (s : List Char) :
    occurrences (c :: tail) (c :: tail ++ s) = occurrences (c :: tail) s + 1 := by
  have h := occurrences_append_part hc [] s
  simpa [occurrences] using h

theorem replaceAll_append_part (u v : List Char) :
    replaceAll (c :: tail) new (u ++ (c :: tail ++ v)) =
      replaceAll (c :: tail) new u ++ (new ++ replaceAll (c :: tail) new v) := by
  have hu := replaced_replaceAll c tail new u
  generalize replaceAll (c :: tail) new u = out at hu
  induction hu with
  | nil => exact replaceAll_part c tail new v
  | @part s out _ ih =>
    rw [List.append_assoc, replaceAll_part, ih, List.append_assoc]
  | @keep x s out h _ ih =>
    have hkeep : ¬ (c :: tail) <+: x :: (s ++ (c :: tail ++ v)) := by
      rwa [prefix_append_part_iff hc]
    rw [List.cons_append, replaceAll_cons hkeep, ih, List.cons_append]

theorem Replaced.length (h : Replaced (c :: tail) new s out) :
    out.length + occurrences (c :: tail) s * (c :: tail).length =
      s.length + occurrences (c :: tail) s * new.length := by
  induction h with
  | nil => simp [occurrences]
  | part _ ih =>
    rw [occurrences_part_append hc, List.length_append, List.length_append, Nat.add_mul,
      Nat.add_mul]
    omega
  | keep h _ ih =>
    rw [occurrences_cons, if_neg h, Nat.add_zero]
    generalize (c :: tail).length = n at ih ⊢
    simp only [List.length_cons]
    omega

theorem Replaced.eq_self (h : Replaced (c :: tail) new s out)
    (hnone : occurrences (c :: tail) s = 0) : out = s := by
  induction h with
  | nil => rfl
  | part _ _ =>
    rw [occurrences_part_append hc] at hnone
    omega
  | keep h _ ih =>
    rw [occurrences_cons, if_neg h] at hnone
    rw [ih hnone]

theorem Replaced.eq_part (h : Replaced (c :: tail) new s out) (hsame : out = s)
    (hsome : occurrences (c :: tail) s ≠ 0) : new = c :: tail := by
  induction h with
  | nil => exact absurd rfl hsome
  | @part s out rest _ =>
    have hlength := (Replaced.part rest).length hc
    rw [hsame] at hlength
    have hnew := Nat.eq_of_mul_eq_mul_left (Nat.pos_of_ne_zero hsome) (Nat.add_left_cancel hlength)
    exact (List.append_inj hsame hnew.symm).1
  | keep h _ ih =>
    rw [occurrences_cons, if_neg h] at hsome
    exact ih (List.cons.inj hsame).2 hsome

omit hc in
theorem replaceAll_self (s : List Char) : replaceAll (c :: tail) (c :: tail) s = s := by
  have h := replaced_replaceAll c tail (c :: tail) s
  generalize replaceAll (c :: tail) (c :: tail) s = out at h
  induction h with
  | nil => rfl
  | part _ ih => rw [ih]
  | keep _ _ ih => rw [ih]

section Placed

variable {template filled : List Char}

theorem Placed.before (h : Placed (c :: tail) new template s filled)
    (hgap : occurrences (c :: tail) (u ++ template) = occurrences (c :: tail) template) :
    Placed (c :: tail) new (u ++ template) (v ++ s) (v ++ filled) := by
  cases h with
  | last h => exact .last (hgap.trans h)
  | @place gap w template s filled h rest =>
    rw [← List.append_assoc, occurrences_append_part hc, occurrences_append_part hc] at hgap
    simp only [← List.append_assoc u, ← List.append_assoc v]
    exact .place (by omega) rest

theorem Placed.occurrences_le (h : Placed (c :: tail) new template s filled) :
    occurrences (c :: tail) template ≤ occurrences (c :: tail) s := by
  induction h with
  | last h => omega
  | place h _ ih =>
    rw [occurrences_append_part hc, occurrences_append_part hc]
    omega

theorem Placed.length (h : Placed (c :: tail) new template s filled) :
    filled.length + occurrences (c :: tail) template * (c :: tail).length =
      s.length + occurrences (c :: tail) template * new.length := by
  induction h with
  | last h => simp [h]
  | place h _ ih =>
    rw [occurrences_append_part hc, h, Nat.zero_add, Nat.add_mul, Nat.add_mul]
    simp only [List.length_append]
    omega

theorem Placed.replaceAll_eq (h : Placed (c :: tail) new template s filled)
    (hsame : occurrences (c :: tail) s = occurrences (c :: tail) template) :
    replaceAll (c :: tail) new s = filled := by
  induction h with
  | @last gap s h => exact (replaced_replaceAll c tail new s).eq_self hc (hsame.trans h)
  | @place gap w template s filled h rest ih =>
    have hle := rest.occurrences_le hc
    rw [occurrences_append_part hc, occurrences_append_part hc] at hsame
    rw [replaceAll_append_part hc, ih (by omega),
      (replaced_replaceAll c tail new w).eq_self hc (by omega)]

omit hc in
theorem Placed.eq_of_part (h : Placed (c :: tail) (c :: tail) template s filled) : filled = s := by
  induction h with
  | last _ => rfl
  | place _ _ ih => rw [ih]

theorem Placed.occurrences_eq_of_length (h : Placed (c :: tail) new template s filled)
    (hnew : new.length = (c :: tail).length) (hne : new ≠ c :: tail)
    (hfilled : replaceAll (c :: tail) new s = filled) :
    occurrences (c :: tail) s = occurrences (c :: tail) template := by
  have hnone : ∀ u, replaceAll (c :: tail) new u = u → occurrences (c :: tail) u = 0 := by
    intro u hu
    by_contra hsome
    exact hne ((replaced_replaceAll c tail new u).eq_part hc hu hsome)
  induction h with
  | @last gap s h => exact (hnone s hfilled).trans h.symm
  | @place gap w template s filled h _ ih =>
    have hlength := (replaced_replaceAll c tail new w).length hc
    rw [hnew] at hlength
    rw [replaceAll_append_part hc] at hfilled
    obtain ⟨hw, hrest⟩ := List.append_inj hfilled (Nat.add_right_cancel hlength)
    rw [occurrences_append_part hc, occurrences_append_part hc, h, hnone w hw,
      ih (List.append_cancel_left hrest)]

theorem Placed.occurrences_eq_of_length_ne (h : Placed (c :: tail) new template s filled)
    (hnew : new.length ≠ (c :: tail).length) (hfilled : replaceAll (c :: tail) new s = filled) :
    occurrences (c :: tail) s = occurrences (c :: tail) template := by
  have hall := (replaced_replaceAll c tail new s).length hc
  have hplaces := h.length hc
  obtain ⟨more, hmore⟩ := Nat.exists_eq_add_of_le (h.occurrences_le hc)
  rw [hfilled, hmore, Nat.add_mul, Nat.add_mul] at hall
  have hzero : more = 0 := by
    by_contra hpos
    have heq : more * new.length = more * (c :: tail).length := by omega
    exact hnew (Nat.eq_of_mul_eq_mul_left (Nat.pos_of_ne_zero hpos) heq)
  rw [hmore, hzero, Nat.add_zero]

/-- Replacing all occurrences replaces those in the places of the template and no others, exactly if
there are no others or nothing new comes in their place. -/
theorem Placed.replaceAll_eq_iff (h : Placed (c :: tail) new template s filled) :
    replaceAll (c :: tail) new s = filled ↔
      new = c :: tail ∨ occurrences (c :: tail) s = occurrences (c :: tail) template := by
  constructor
  · intro hfilled
    by_cases hne : new = c :: tail
    · exact .inl hne
    · by_cases hnew : new.length = (c :: tail).length
      · exact .inr (h.occurrences_eq_of_length hc hnew hne hfilled)
      · exact .inr (h.occurrences_eq_of_length_ne hc hnew hfilled)
  · rintro (rfl | hsame)
    · rw [replaceAll_self, h.eq_of_part]
    · exact h.replaceAll_eq hc hsame

end Placed

end Part

theorem replaceFirst_cons (h : ¬ part <+: x :: s) :
    replaceFirst part new (x :: s) = x :: replaceFirst part new s := by
  have hfalse : part.isPrefixOf (x :: s) = false := by
    simpa [← List.isPrefixOf_iff_prefix] using h
  simp [replaceFirst, hfalse]

theorem replaceFirst_of_begins (h : part <+: x :: s) :
    replaceFirst part new (x :: s) = new ++ (x :: s).drop part.length := by
  rw [replaceFirst, if_pos (List.isPrefixOf_iff_prefix.mpr h)]

theorem mem_replaceFirst {c : Char} (h : c ∈ replaceFirst part new s) : c ∈ new ∨ c ∈ s := by
  induction s with
  | nil => cases h
  | cons x s ih =>
    by_cases hpart : part <+: x :: s
    · rw [replaceFirst_of_begins hpart, List.mem_append] at h
      exact h.imp_right List.mem_of_mem_drop
    · rw [replaceFirst_cons hpart, List.mem_cons] at h
      rcases h with rfl | hrest
      · exact .inr List.mem_cons_self
      · exact (ih hrest).imp_right (List.mem_cons_of_mem x)

theorem replaceFirst_of_not_occurs (h : ¬ part <:+: s) : replaceFirst part new s = s := by
  induction s with
  | nil => rfl
  | cons x s ih =>
    rw [List.infix_cons_iff, not_or] at h
    rw [replaceFirst_cons h.1, ih h.2]

theorem exists_first (hne : part ≠ []) (h : part <:+: s) :
    ∃ u v, s = u ++ (part ++ v) ∧ ¬ part <:+: u := by
  induction s with
  | nil => exact absurd (List.infix_nil.mp h) hne
  | cons x s ih =>
    by_cases hpart : part <+: x :: s
    · obtain ⟨v, hv⟩ := hpart
      exact ⟨[], v, hv.symm, fun hnil => hne (List.infix_nil.mp hnil)⟩
    · obtain ⟨u, v, rfl, hu⟩ := ih ((List.infix_cons_iff.mp h).resolve_left hpart)
      refine ⟨x :: u, v, rfl, fun hcons => ?_⟩
      rcases List.infix_cons_iff.mp hcons with hfront | hrest
      · exact hpart (hfront.trans (List.prefix_append (x :: u) _))
      · exact hu hrest

theorem replaceFirst_append_part {c : Char} {tail : List Char} (hc : c ∉ tail)
    (h : ¬ (c :: tail) <:+: u) :
    replaceFirst (c :: tail) new (u ++ (c :: tail ++ v)) = u ++ (new ++ v) := by
  induction u with
  | nil =>
    have hpart : (c :: tail) <+: c :: (tail ++ v) := List.prefix_append (c :: tail) v
    rw [List.nil_append, List.cons_append, replaceFirst_of_begins hpart, ← List.cons_append,
      List.drop_left, List.nil_append]
  | cons x u ih =>
    rw [List.infix_cons_iff, not_or] at h
    rw [List.cons_append, replaceFirst_cons ((prefix_append_part_iff hc).not.mpr h.1), ih h.2,
      List.cons_append]

theorem replaceFirst_append_of_occurs (hne : part ≠ []) (h : part <:+: u) :
    replaceFirst part new (u ++ v) = replaceFirst part new u ++ v := by
  induction u with
  | nil => exact absurd (List.infix_nil.mp h) hne
  | cons x u ih =>
    by_cases hpart : part <+: x :: u
    · have hlonger : part <+: x :: (u ++ v) := hpart.trans (List.prefix_append (x :: u) v)
      have hdrop : (x :: u ++ v).drop part.length = (x :: u).drop part.length ++ v :=
        List.drop_append_of_le_length hpart.length_le
      rw [List.cons_append, replaceFirst_of_begins hlonger, replaceFirst_of_begins hpart,
        ← List.cons_append, hdrop, List.append_assoc]
    · have hrest := (List.infix_cons_iff.mp h).resolve_left hpart
      have hlonger : ¬ part <+: x :: (u ++ v) := by
        intro hprefix
        refine hpart (List.prefix_of_prefix_length_le hprefix (List.prefix_append (x :: u) v) ?_)
        exact hrest.length_le.trans (Nat.le_succ _)
      rw [List.cons_append, replaceFirst_cons hlonger, replaceFirst_cons hpart, ih hrest,
        List.cons_append]

section Separated

variable {sep : Char} (hsep : sep ∉ part)
include hsep

theorem prefix_append_cons_iff : part <+: u ++ sep :: v ↔ part <+: u := by
  constructor
  · intro h
    rcases List.prefix_or_prefix_of_prefix h (List.prefix_append u (sep :: v)) with hshort | hlong
    · exact hshort
    · obtain ⟨rest, rfl⟩ := hlong
      have hrest := (List.prefix_append_right_inj u).mp h
      cases rest with
      | nil => rw [List.append_nil]
      | cons y rest =>
        obtain rfl := (List.cons_prefix_cons.mp hrest).1
        exact absurd (List.mem_append_right u List.mem_cons_self) hsep
  · exact fun h => h.trans (List.prefix_append u _)

theorem replaceFirst_append_cons (hne : part ≠ []) (h : ¬ part <:+: u) :
    replaceFirst part new (u ++ sep :: v) = u ++ sep :: replaceFirst part new v := by
  induction u with
  | nil =>
    have hpart : ¬ part <+: sep :: v := fun hpart =>
      hne (List.prefix_nil.mp ((prefix_append_cons_iff hsep (u := [])).mp hpart))
    exact replaceFirst_cons hpart
  | cons x u ih =>
    rw [List.infix_cons_iff, not_or] at h
    have hpart : ¬ part <+: x :: (u ++ sep :: v) := fun hpart =>
      h.1 ((prefix_append_cons_iff hsep (u := x :: u)).mp hpart)
    rw [List.cons_append, replaceFirst_cons hpart, ih h.2, List.cons_append]

end Separated

end Text

end TypeAtlas
