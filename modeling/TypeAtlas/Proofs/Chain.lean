import Mathlib.Data.Fintype.Pigeonhole
import Mathlib.Logic.Relation

/-! Chains of a given number of steps. A circle of steps can be followed for any number of them, and
what can be reached at all is reached in fewer steps than there are places. -/

namespace TypeAtlas

variable {α β : Type}

inductive Chain (step : α → α → Prop) : Nat → α → α → Prop
  | nil {a : α} : Chain step 0 a a
  | cons {n : Nat} {a b c : α} (first : step a b) (rest : Chain step n b c) :
    Chain step (n + 1) a c

theorem Chain.shorten {step : α → α → Prop} {n : Nat} {a b : α} (h : Chain step (n + 1) a b) :
    ∃ c, Chain step n a c := by
  induction n generalizing a with
  | zero => exact ⟨a, .nil⟩
  | succ n ih =>
    cases h with
    | cons first rest =>
      obtain ⟨c, hc⟩ := ih rest
      exact ⟨c, .cons first hc⟩

theorem Chain.append {step : α → α → Prop} {m n : Nat} {a b c : α} (h : Chain step m a b)
    (h' : Chain step n b c) : Chain step (m + n) a c := by
  induction h with
  | nil => rwa [Nat.zero_add]
  | @cons m a d b first _ ih =>
    rw [Nat.add_right_comm]
    exact .cons first (ih h')

theorem Chain.split {step : α → α → Prop} {m n : Nat} {a c : α} (h : Chain step (m + n) a c) :
    ∃ b, Chain step m a b ∧ Chain step n b c := by
  induction m generalizing a with
  | zero => exact ⟨a, .nil, by rwa [Nat.zero_add] at h⟩
  | succ m ih =>
    rw [Nat.add_right_comm] at h
    cases h with
    | cons first rest =>
      obtain ⟨b, hm, hn⟩ := ih rest
      exact ⟨b, .cons first hm, hn⟩

theorem reflTransGen_iff_chain {step : α → α → Prop} {a b : α} :
    Relation.ReflTransGen step a b ↔ ∃ n, Chain step n a b := by
  constructor
  · intro h
    induction h using Relation.ReflTransGen.head_induction_on with
    | refl => exact ⟨0, .nil⟩
    | head first _ ih =>
      obtain ⟨n, hn⟩ := ih
      exact ⟨n + 1, .cons first hn⟩
  · rintro ⟨n, h⟩
    induction h with
    | nil => exact .refl
    | cons first _ ih => exact .head first ih

section Numbered

variable {step : α → α → Prop} {number : α → Nat} {size n : Nat} {a b : α}

theorem Chain.number_lt (hstep : ∀ x y, step x y → number x < size) (hb : number b < size)
    (h : Chain step n a b) : number a < size := by
  cases h with
  | nil => exact hb
  | cons first _ => exact hstep _ _ first

theorem Chain.exists_shorter (hinj : Function.Injective number)
    (hstep : ∀ x y, step x y → number x < size) (hb : number b < size) (hn : size ≤ n)
    (h : Chain step n a b) : ∃ m < n, Chain step m a b := by
  have hplace : ∀ i : Fin (size + 1), ∃ x, Chain step i a x ∧ Chain step (n - i) x b := by
    intro i
    have hi : n = i + (n - i) := by omega
    rw [hi] at h
    exact h.split
  choose place hto hfrom using hplace
  have hlt : ∀ i, number (place i) < size := fun i => (hfrom i).number_lt hstep hb
  obtain ⟨i, j, hne, hsame⟩ := Fintype.exists_ne_map_eq_of_card_lt
    (fun i => (⟨number (place i), hlt i⟩ : Fin size)) (by simp)
  have hplaces : place i = place j := hinj (Fin.mk.inj hsame)
  rcases Nat.lt_or_gt_of_ne (Fin.val_ne_of_ne hne) with hij | hij
  · exact ⟨i + (n - j), by omega, (hto i).append (hplaces ▸ hfrom j)⟩
  · exact ⟨j + (n - i), by omega, (hto j).append (hplaces ▸ hfrom i)⟩

theorem Chain.exists_lt (hinj : Function.Injective number)
    (hstep : ∀ x y, step x y → number x < size) (hb : number b < size)
    (h : Chain step n a b) : ∃ m < size, Chain step m a b := by
  induction n using Nat.strongRecOn with
  | ind n ih =>
    by_cases hn : n < size
    · exact ⟨n, hn, h⟩
    · obtain ⟨m, hm, hshorter⟩ := h.exists_shorter hinj hstep hb (Nat.le_of_not_lt hn)
      exact ih m hm hshorter

end Numbered

theorem exists_chain_of_cycle {step : α → α → Prop} {a c : α} (n : Nat)
    (h : Relation.ReflTransGen step a c) (cycle : Relation.TransGen step c c) :
    ∃ b, Chain step n a b := by
  induction n generalizing a with
  | zero => exact ⟨a, .nil⟩
  | succ n ih =>
    have hnext : ∃ b, step a b ∧ Relation.ReflTransGen step b c := by
      rcases h.cases_head with rfl | hstep
      · exact Relation.TransGen.head'_iff.mp cycle
      · exact hstep
    obtain ⟨b, hstep, hrest⟩ := hnext
    obtain ⟨e, he⟩ := ih hrest
    exact ⟨e, .cons hstep he⟩

end TypeAtlas
