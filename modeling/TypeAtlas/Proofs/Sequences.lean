import Mathlib.Data.List.Forall2
import Mathlib.Data.List.Sort

/-! Lists of computations that end with the first error, lists with named or numbered entries, and
what the front of a list with a property is. -/

namespace TypeAtlas

section Outcomes

variable {ε α β : Type}

theorem bind_eq_ok_iff {x : Except ε α} {f : α → Except ε β} {b : β} :
    x >>= f = .ok b ↔ ∃ a, x = .ok a ∧ f a = .ok b := by
  cases x with
  | error e => simp [bind, Except.bind]
  | ok a => simp [bind, Except.bind]

theorem bind_eq_error_iff {x : Except ε α} {f : α → Except ε β} {e : ε} :
    x >>= f = .error e ↔ x = .error e ∨ ∃ a, x = .ok a ∧ f a = .error e := by
  cases x with
  | error e' => simp [bind, Except.bind]
  | ok a => simp [bind, Except.bind]

theorem mapM_eq_ok_iff {f : α → Except ε β} {l : List α} {holds : α → Prop} {value : α → β}
    (h : ∀ x ∈ l, ∀ y, f x = .ok y ↔ holds x ∧ y = value x) {ys : List β} :
    l.mapM f = .ok ys ↔ (∀ x ∈ l, holds x) ∧ ys = l.map value := by
  induction l generalizing ys with
  | nil => simp [pure, Except.pure, eq_comm]
  | cons x l ih =>
    have hx := h x List.mem_cons_self
    have hl : ∀ ys, l.mapM f = .ok ys ↔ (∀ x ∈ l, holds x) ∧ ys = l.map value :=
      fun ys => ih fun y hy => h y (List.mem_cons_of_mem x hy)
    rw [List.mapM_cons, bind_eq_ok_iff]
    simp only [bind_eq_ok_iff, hx, hl, pure, Except.pure, Except.ok.injEq]
    constructor
    · rintro ⟨_, ⟨hh, rfl⟩, _, ⟨hall, rfl⟩, rfl⟩
      exact ⟨List.forall_mem_cons.mpr ⟨hh, hall⟩, rfl⟩
    · rintro ⟨hall, rfl⟩
      have hh := List.forall_mem_cons.mp hall
      exact ⟨_, ⟨hh.1, rfl⟩, _, ⟨hh.2, rfl⟩, rfl⟩

theorem mapM_map_eq_ok {f : β → Except ε α} {g : α → β} (h : ∀ x, f (g x) = .ok x) (l : List α) :
    (l.map g).mapM f = .ok l := by
  induction l with
  | nil => rfl
  | cons x l ih =>
    rw [List.map_cons, List.mapM_cons, h, ih]
    rfl

theorem mapM_cons_ok_iff {f : α → Except ε β} {x : α} {l : List α} :
    (∃ ys, (x :: l).mapM f = .ok ys) ↔ (∃ y, f x = .ok y) ∧ ∃ ys, l.mapM f = .ok ys := by
  rw [List.mapM_cons]
  simp only [bind_eq_ok_iff, pure, Except.pure, Except.ok.injEq]
  constructor
  · rintro ⟨_, y, hy, ys, hys, -⟩
    exact ⟨⟨y, hy⟩, ys, hys⟩
  · rintro ⟨⟨y, hy⟩, ys, hys⟩
    exact ⟨_, y, hy, ys, hys, rfl⟩

theorem mapM_cons_error_iff {f : α → Except ε β} {x : α} {l : List α} {e : ε} :
    (x :: l).mapM f = .error e ↔ f x = .error e ∨ (∃ y, f x = .ok y) ∧ l.mapM f = .error e := by
  rw [List.mapM_cons]
  simp only [bind_eq_error_iff, pure, Except.pure, reduceCtorEq, and_false, exists_false, or_false,
    exists_and_right]

theorem exists_error_of_mapM {f : α → Except ε β} {l : List α} {e : ε}
    (h : l.mapM f = .error e) : ∃ x ∈ l, f x = .error e := by
  induction l with
  | nil => cases h
  | cons x l ih =>
    rcases mapM_cons_error_iff.mp h with hx | ⟨-, hl⟩
    · exact ⟨x, List.mem_cons_self, hx⟩
    · obtain ⟨y, hy, he⟩ := ih hl
      exact ⟨y, List.mem_cons_of_mem x hy, he⟩

theorem bind_flatten_ok {f : α → Except ε (List β)} {l : List α} {holds : β → Prop}
    (h : ∀ x ∈ l, ∃ ys, f x = .ok ys ∧ ∀ y ∈ ys, holds y) :
    ∃ ys, (do return (← l.mapM f).flatten) = Except.ok (ε := ε) ys ∧ ∀ y ∈ ys, holds y := by
  induction l with
  | nil => exact ⟨[], rfl, by simp⟩
  | cons x l ih =>
    obtain ⟨first, hfirst, hholds⟩ := h x List.mem_cons_self
    obtain ⟨rest, hrest, hall⟩ := ih fun y hy => h y (List.mem_cons_of_mem x hy)
    obtain ⟨parts, hparts, hflatten⟩ := bind_eq_ok_iff.mp hrest
    refine ⟨first ++ rest, ?_, List.forall_mem_append.mpr ⟨hholds, hall⟩⟩
    cases hflatten
    simp only [List.mapM_cons, hfirst, hparts, bind, Except.bind, pure, Except.pure,
      List.flatten_cons]

end Outcomes

section Fronts

variable {α : Type} {p : α → Bool} {l rest : List α}

theorem takeWhile_append_eq (h : ∀ x ∈ l, p x = true) (hrest : ∀ x ∈ rest.head?, p x = false) :
    (l ++ rest).takeWhile p = l := by
  rw [List.takeWhile_append_of_pos h]
  cases rest with
  | nil => simp
  | cons x rest => simp [hrest x rfl]

theorem dropWhile_append_eq (h : ∀ x ∈ l, p x = true) (hrest : ∀ x ∈ rest.head?, p x = false) :
    (l ++ rest).dropWhile p = rest := by
  rw [List.dropWhile_append_of_pos h]
  cases rest with
  | nil => rfl
  | cons x rest => simp [hrest x rfl]

end Fronts

theorem exists_right_of_forall₂ {α β : Type} {R : α → β → Prop} {l : List α} {l' : List β}
    (h : List.Forall₂ R l l') {a : α} (ha : a ∈ l) : ∃ b ∈ l', R a b := by
  induction h with
  | nil => cases ha
  | cons hab _ ih =>
    rcases List.mem_cons.mp ha with rfl | ha
    · exact ⟨_, List.mem_cons_self, hab⟩
    · obtain ⟨b, hb, hr⟩ := ih ha
      exact ⟨b, List.mem_cons_of_mem _ hb, hr⟩

theorem exists_left_of_forall₂ {α β : Type} {R : α → β → Prop} {l : List α} {l' : List β}
    (h : List.Forall₂ R l l') {b : β} (hb : b ∈ l') : ∃ a ∈ l, R a b :=
  exists_right_of_forall₂ h.flip hb

theorem flatten_map_filter_singleton {α : Type} (keep : α → Bool) (l : List α) :
    (l.map fun x => [x].filter keep).flatten = l.filter keep := by
  induction l with
  | nil => rfl
  | cons x l ih =>
    rw [List.map_cons, List.flatten_cons, ih, ← List.filter_append]
    rfl

theorem lookup_eq_some_iff_mem {β : Type} {entries : List (String × β)}
    (h : (entries.map Prod.fst).Nodup) {key : String} {value : β} :
    entries.lookup key = some value ↔ (key, value) ∈ entries := by
  induction entries with
  | nil => simp
  | cons entry rest ih =>
    obtain ⟨first, value'⟩ := entry
    obtain ⟨hfirst, hrest⟩ := List.nodup_cons.mp h
    have hnew : ∀ value, (first, value) ∉ rest := fun value hmem =>
      hfirst (List.mem_map.mpr ⟨_, hmem, rfl⟩)
    by_cases hkey : key = first
    · subst hkey
      simp [hnew, eq_comm]
    · have hbeq : (key == first) = false := beq_eq_false_iff_ne.mpr hkey
      simp [List.lookup_cons, hbeq, hkey, ih hrest]

theorem pairwise_zipIdx {α : Type} (l : List α) (k : Nat) :
    (l.zipIdx k).Pairwise fun a b => a.2 < b.2 := by
  induction l generalizing k with
  | nil => exact .nil
  | cons x l ih =>
    exact List.pairwise_cons.mpr ⟨fun b hb => List.le_snd_of_mem_zipIdx hb, ih (k + 1)⟩

end TypeAtlas
