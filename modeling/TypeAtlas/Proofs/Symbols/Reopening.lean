import TypeAtlas.Proofs.Symbols.Log

/-! When two declarations of a name have a symbol in common. A name stands for one symbol at a time,
and a declaration without a flag of that symbol gives the name a new one, for good. -/

namespace TypeAtlas

theorem or_and_eq_zero_iff {a b g : UInt32} :
    (a ||| b) &&& g = 0 ↔ a &&& g = 0 ∧ b &&& g = 0 := by
  simp only [← UInt32.toBitVec_inj, UInt32.toBitVec_and, UInt32.toBitVec_or, UInt32.toBitVec_zero,
    BitVec.and_or_distrib_right, BitVec.or_eq_zero_iff]

namespace Binding

/-- The flags of the symbol of a name after one more declaration of that name. -/
def hold (held flags : UInt32) : UInt32 :=
  if held &&& flags = 0 then flags else held ||| flags

def heldFlags (flags : List UInt32) : UInt32 :=
  flags.foldl hold 0

def flagsOf (name : String) (l : List Binding) : List UInt32 :=
  (l.filter (·.isOfFile name)).map flags

/-- Each later declaration has a flag in common with what the symbol of the name has by then. -/
def Joins (flags later : List UInt32) : Prop :=
  ∀ pre g post, later = pre ++ g :: post → heldFlags (flags ++ pre) &&& g ≠ 0

theorem heldFlags_append (flags : List UInt32) (g : UInt32) :
    heldFlags (flags ++ [g]) = hold (heldFlags flags) g := by
  simp [heldFlags]

theorem flagsOf_append (name : String) (l : List Binding) (c : Binding) :
    flagsOf name (l ++ [c]) =
      if c.isOfFile name then flagsOf name l ++ [c.flags] else flagsOf name l := by
  by_cases h : c.isOfFile name = true <;> simp [flagsOf, h]

theorem joins_nil (flags : List UInt32) : Joins flags [] := by
  intro pre g post h
  simp at h

theorem joins_append_iff {flags later : List UInt32} {g : UInt32} :
    Joins flags (later ++ [g]) ↔ Joins flags later ∧ heldFlags (flags ++ later) &&& g ≠ 0 := by
  constructor
  · intro h
    refine ⟨fun pre g' post hlater => h pre g' (post ++ [g]) ?_, h later g [] rfl⟩
    simp [hlater]
  · rintro ⟨h, hg⟩ pre g' post hlater
    rcases List.eq_nil_or_concat post with rfl | ⟨post, y, rfl⟩
    · obtain ⟨rfl, hlast⟩ := List.append_inj' hlater rfl
      obtain rfl : g = g' := by simpa using hlast
      exact hg
    · have hsplit : later ++ [g] = (pre ++ g' :: post) ++ [y] := by simpa using hlater
      exact h pre g' post (List.append_inj' hsplit rfl).1

theorem hold_and_ne_zero {held f g : UInt32} (h : f &&& g ≠ 0) : hold held f &&& g ≠ 0 := by
  unfold hold
  split_ifs
  · exact h
  · exact fun hzero => h (or_and_eq_zero_iff.mp hzero).2

theorem Joins.heldFlags_and_ne_zero {flags later : List UInt32} {g : UInt32}
    (h : Joins flags later) (hg : heldFlags flags &&& g ≠ 0) :
    heldFlags (flags ++ later) &&& g ≠ 0 := by
  induction later using List.reverseRecOn with
  | nil => simpa using hg
  | append_singleton later f ih =>
    obtain ⟨hlater, hf⟩ := joins_append_iff.mp h
    rw [← List.append_assoc, heldFlags_append, hold, if_neg hf]
    exact fun hzero => ih hlater (or_and_eq_zero_iff.mp hzero).1

end Binding

namespace Bindings

variable {b : Bindings} {log : List Answered}

def held (b : Bindings) (name : String) : UInt32 :=
  (((b.fileLocals.get? name).bind b.symbol?).map Symbol.flags).getD 0

theorem mergeTarget?_eq_none_iff {flags : UInt32} {name : String} :
    b.mergeTarget? flags name = none ↔ b.held name &&& flags = 0 := by
  cases hlocal : b.fileLocals.get? name with
  | none => simp [mergeTarget?, held, hlocal]
  | some s => cases hs : b.symbol? s <;> simp [mergeTarget?, held, hlocal, hs, Symbol.hasAnyFlag]

theorem Recorded.held_apply (h : b.Recorded log) (hsize : b.symbols.size < 4294967295)
    (c : Binding) (name : String) :
    (b.apply c).1.held name =
      if c.isOfFile name then Binding.hold (b.held name) c.flags else b.held name := by
  have hlocal := b.fileLocals_apply c name
  by_cases hfile : c.isOfFile name = true
  · rw [if_pos hfile] at hlocal ⊢
    have hsymbol := symbol?_apply hsize c (b.apply c).2
    rw [if_pos rfl] at hsymbol
    obtain ⟨rfl, -⟩ := Binding.name_of_isOfFile hfile
    rcases b.apply_cases c with ⟨hnew, hmerge⟩ | ⟨-, hmerge⟩
    · rw [hnew, b.symbol?_next, ← hnew] at hsymbol
      rw [Binding.hold, if_pos (mergeTarget?_eq_none_iff.mp (hmerge hfile))]
      simp [held, hlocal, hsymbol, Binding.flags_fresh]
    · have hheld := mergeTarget?_eq_none_iff.not.mp (Option.ne_none_iff_exists'.mpr ⟨_, hmerge⟩)
      obtain ⟨hs, x, hx, -⟩ := mergeTarget?_eq_some_iff.mp hmerge
      rw [hx] at hsymbol
      rw [Binding.hold, if_neg hheld]
      simp [held, hlocal, hsymbol, hs, hx, Symbol.flags_declare]
  · rw [if_neg hfile] at hlocal ⊢
    cases hs : b.fileLocals.get? name with
    | none => simp [held, hlocal, hs]
    | some s =>
      have hlast := hs
      rw [h.fileLocal] at hlast
      obtain ⟨d, hd, hmem⟩ := Answered.mem_of_lastSymbol? hlast
      have hne : s ≠ (b.apply c).2 := by
        intro heq
        rcases b.apply_cases c with ⟨hnew, -⟩ | ⟨hsame, hmerge⟩
        · exact h.not_mem_of_next hmem (heq.trans hnew)
        · have hname := (h.of_mergeTarget hmerge hmem heq).1
          rw [← hname, (Binding.name_of_isOfFile hd).1] at hsame
          exact hfile hsame
      simp [held, hlocal, hs, symbol?_apply hsize, hne]

theorem held_bound {l : List Binding} (hsize : (bound l).symbols.size < 4294967295)
    (name : String) : (bound l).held name = Binding.heldFlags (Binding.flagsOf name l) := by
  induction l using List.reverseRecOn with
  | nil => rfl
  | append_singleton l c ih =>
    rw [bound_append_singleton] at hsize ⊢
    have hlt := Nat.lt_of_le_of_lt ((bound l).size_le_apply c) hsize
    rw [(recorded_bound hlt).held_apply hlt, Binding.flagsOf_append, ih hlt]
    split_ifs
    · rw [Binding.heldFlags_append]
    · rfl

theorem Recorded.index_lt_of_fileLocal (h : b.Recorded log) {name : String} {s : SymbolId}
    (hs : b.fileLocals.get? name = some (some s)) : s.index < b.symbols.size := by
  rw [h.fileLocal] at hs
  obtain ⟨c, -, hmem⟩ := Answered.mem_of_lastSymbol? hs
  obtain ⟨x, hx, -⟩ := h.exists_symbol hmem
  exact (Array.getElem?_eq_some_iff.mp hx).1

/-- The symbol of a name is only ever replaced by newer ones, and stays as long as all declarations
of the name join it. -/
theorem standing_bound {early : List Binding} {name : String} {s : SymbolId}
    (hs : (bound early).fileLocals.get? name = some (some s)) {l : List Binding}
    (hsize : (bound (early ++ l)).symbols.size < 4294967295) :
    ∃ t : SymbolId, (bound (early ++ l)).fileLocals.get? name = some (some t) ∧
      s.index ≤ t.index ∧
      (t = s ↔ Binding.Joins (Binding.flagsOf name early) (Binding.flagsOf name l)) := by
  induction l using List.reverseRecOn with
  | nil =>
    rw [List.append_nil]
    exact ⟨s, hs, Nat.le_refl _, iff_of_true rfl (Binding.joins_nil _)⟩
  | append_singleton l c ih =>
    rw [← List.append_assoc, bound_append_singleton] at hsize ⊢
    have hlt := Nat.lt_of_le_of_lt ((bound (early ++ l)).size_le_apply c) hsize
    obtain ⟨t, ht, hle, hiff⟩ := ih hlt
    have hheld := held_bound hlt name
    have hflags : Binding.flagsOf name (early ++ l) =
        Binding.flagsOf name early ++ Binding.flagsOf name l := by simp [Binding.flagsOf]
    rw [hflags] at hheld
    rw [fileLocals_apply, Binding.flagsOf_append]
    by_cases hfile : c.isOfFile name = true
    · rw [if_pos hfile, if_pos hfile, Binding.joins_append_iff, ← hheld]
      obtain ⟨rfl, -⟩ := Binding.name_of_isOfFile hfile
      rcases (bound (early ++ l)).apply_cases c with ⟨hnew, hmerge⟩ | ⟨-, hmerge⟩
      · have hzero := mergeTarget?_eq_none_iff.mp (hmerge hfile)
        have hindex := (recorded_bound hlt).index_lt_of_fileLocal ht
        rw [hnew, next_eq hlt]
        refine ⟨⟨_, hlt⟩, rfl, Nat.le_of_lt (Nat.lt_of_le_of_lt hle hindex),
          iff_of_false ?_ fun h => h.2 hzero⟩
        rintro rfl
        exact absurd hle (Nat.not_le.mpr hindex)
      · have hnonzero := mergeTarget?_eq_none_iff.not.mp (Option.ne_none_iff_exists'.mpr ⟨_, hmerge⟩)
        have hsame := (mergeTarget?_eq_some_iff.mp hmerge).1
        exact ⟨t, hsame ▸ ht, hle, hiff.trans (and_iff_left hnonzero).symm⟩
    · rw [if_neg hfile, if_neg hfile]
      exact ⟨t, ht, hle, hiff⟩

theorem size_bound_le_append (l l' : List Binding) :
    (bound l).symbols.size ≤ (bound (l ++ l')).symbols.size := by
  induction l' using List.reverseRecOn with
  | nil => simp
  | append_singleton l' c ih =>
    rw [← List.append_assoc, bound_append_singleton]
    exact Nat.le_trans ih ((bound (l ++ l')).size_le_apply c)

theorem exists_answer (hsize : b.symbols.size < 4294967295) (c : Binding) :
    ∃ s, (b.apply c).2 = some s := by
  have hsymbol := symbol?_apply hsize c (b.apply c).2
  rw [if_pos rfl] at hsymbol
  cases hs : (b.apply c).2 with
  | none =>
    rw [hs] at hsymbol
    cases hsymbol
  | some s => exact ⟨s, rfl⟩

theorem fileLocal_bound_append (l : List Binding) (n : NodeRef) (f : UInt32) (name : String) :
    (bound (l ++ [.ofFile n f name])).fileLocals.get? name =
      some ((bound l).declare n f name).2 := by
  rw [bound_append_singleton, fileLocals_apply, if_pos (by simp [Binding.isOfFile])]
  rfl

/-- Two declarations of a name with a flag in common have the same symbol exactly if every
declaration of that name between them joins the symbol that the name stands for by then. What else
is declared does not matter. -/
theorem declared_again_same_iff {before between : List Binding} {n m : NodeRef} {f g : UInt32}
    {name : String} (hcommon : f &&& g ≠ 0)
    (hsize : (bound (before ++ .ofFile n f name :: between ++ [.ofFile m g name])).symbols.size <
      4294967295) :
    ((bound (before ++ .ofFile n f name :: between)).declare m g name).2 =
        ((bound before).declare n f name).2 ↔
      Binding.Joins (Binding.flagsOf name before ++ [f]) (Binding.flagsOf name between) := by
  have hfirst := fileLocal_bound_append before n f name
  have hlast := fileLocal_bound_append (before ++ .ofFile n f name :: between) m g name
  have hlist : before ++ .ofFile n f name :: between ++ [.ofFile m g name] =
      (before ++ [.ofFile n f name]) ++ (between ++ [.ofFile m g name]) := by simp
  have hflags : ∀ l k h, Binding.flagsOf name (l ++ [.ofFile k h name]) =
      Binding.flagsOf name l ++ [h] := by
    simp [Binding.flagsOf_append, Binding.isOfFile, Binding.flags]
  rw [hlist] at hsize hlast
  have hbefore : (bound before).symbols.size < 4294967295 := by
    have hle := size_bound_le_append before [.ofFile n f name]
    have hle' := size_bound_le_append (before ++ [.ofFile n f name]) (between ++ [.ofFile m g name])
    omega
  obtain ⟨s, hs⟩ := exists_answer hbefore (.ofFile n f name)
  change ((bound before).declare n f name).2 = some s at hs
  rw [hs] at hfirst ⊢
  obtain ⟨t, ht, -, hiff⟩ := standing_bound hfirst hsize
  rw [hlast, Option.some.injEq] at ht
  rw [hflags, hflags, Binding.joins_append_iff] at hiff
  rw [ht, Option.some.injEq, hiff, and_iff_left_iff_imp]
  intro hjoins
  refine hjoins.heldFlags_and_ne_zero ?_
  rw [Binding.heldFlags_append]
  exact Binding.hold_and_ne_zero hcommon

/-- Declarations that join an interface of their name, and others. -/
def withModule : List Binding :=
  [.ofFile (Row.ofIndex 2) 0x440 "A", .ofMember (Row.ofIndex 0) (Row.ofIndex 3) 0x4 "A",
    .ofFile (Row.ofIndex 4) 0x400 "A", .ofFile (Row.ofIndex 5) 0x20 "B"]

theorem withModule_same :
    SymbolFlags.interface &&& 0x60 ≠ 0 ∧
    (bound ([] ++ .ofFile (Row.ofIndex 1) SymbolFlags.interface "A" :: withModule ++
      [.ofFile (Row.ofIndex 6) 0x60 "A"])).symbols.size < 4294967295 ∧
    ((bound ([] ++ .ofFile (Row.ofIndex 1) SymbolFlags.interface "A" :: withModule)).declare
      (Row.ofIndex 6) 0x60 "A").2 =
        ((bound []).declare (Row.ofIndex 1) SymbolFlags.interface "A").2 := by
  have hcommon : SymbolFlags.interface &&& 0x60 ≠ 0 := by decide
  have hsize : (bound ([] ++ .ofFile (Row.ofIndex 1) SymbolFlags.interface "A" :: withModule ++
      [.ofFile (Row.ofIndex 6) 0x60 "A"])).symbols.size < 4294967295 := by decide
  refine ⟨hcommon, hsize, (declared_again_same_iff hcommon hsize).mpr ?_⟩
  have hflags : Binding.flagsOf "A" withModule = [] ++ [0x440] ++ [0x400] := by decide
  rw [hflags, Binding.joins_append_iff, Binding.joins_append_iff]
  exact ⟨⟨Binding.joins_nil _, by decide⟩, by decide⟩

/-- A class between two declarations of an interface of its name parts them. -/
theorem class_parts_interfaces : ¬ ∀ (before between : List Binding) (n m : NodeRef)
    (f g : UInt32) (name : String), f &&& g ≠ 0 →
      (bound (before ++ .ofFile n f name :: between ++ [.ofFile m g name])).symbols.size <
        4294967295 →
      ((bound (before ++ .ofFile n f name :: between)).declare m g name).2 =
        ((bound before).declare n f name).2 := by
  intro h
  have hsame := h [] [.ofFile (Row.ofIndex 2) SymbolFlags.classLike "A"] (Row.ofIndex 1)
    (Row.ofIndex 3) SymbolFlags.interface SymbolFlags.interface "A" (by decide) (by decide)
  revert hsame
  decide

end Bindings

end TypeAtlas
