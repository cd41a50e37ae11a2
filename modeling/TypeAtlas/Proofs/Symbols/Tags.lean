import TypeAtlas.Proofs.Symbols.Log
import TypeAtlas.Symbols.Context

/-! Tags of symbols. Assigning tags numbers the untagged symbols above all tags there are, and
along a run that starts without symbols no two symbols ever get the same tag. -/

namespace TypeAtlas

/-- The tags of symbols in the order of the symbols, with none for those that have no tag yet. -/
abbrev Tags := List (Option UInt32)

namespace Tags

def largest (tags : Tags) : UInt32 :=
  tags.foldl (fun largest t => max largest (t.getD 0)) 0

def untagged (tags : Tags) : Nat :=
  tags.count none

def free (tags : Tags) (i : Nat) : UInt32 :=
  tags.largest + 1 + .ofNat (untagged (tags.take i))

def assigned (tags : Tags) : Tags :=
  tags.mapIdx fun i t => t.or (some (tags.free i))

variable {tags : Tags} {i j : Nat} {t : UInt32}

theorem foldl_max_le_iff (tags : Tags) (m : UInt32) (n : Nat) :
    (tags.foldl (fun largest t => max largest (t.getD 0)) m).toNat ≤ n ↔
      m.toNat ≤ n ∧ ∀ t, some t ∈ tags → t.toNat ≤ n := by
  induction tags generalizing m with
  | nil => simp
  | cons t tags ih =>
    rw [List.foldl_cons, ih, UInt32.toNat_max, Nat.max_le]
    cases t <;> simp [and_assoc]

theorem largest_le_iff {n : Nat} :
    tags.largest.toNat ≤ n ↔ ∀ t, some t ∈ tags → t.toNat ≤ n := by
  rw [largest, foldl_max_le_iff]
  simp

theorem toNat_le_largest (h : tags[i]? = some (some t)) : t.toNat ≤ tags.largest.toNat :=
  largest_le_iff.mp (Nat.le_refl _) t (List.mem_of_getElem? h)

theorem untagged_take_lt (h : tags[i]? = some none) (hij : i < j) :
    untagged (tags.take i) < untagged (tags.take j) := by
  have hsucc : untagged (tags.take (i + 1)) = untagged (tags.take i) + 1 := by
    simp [untagged, List.take_add_one, h]
  have hle : untagged (tags.take (i + 1)) ≤ untagged (tags.take j) :=
    (List.take_prefix_take_left (by omega)).sublist.count_le none
  omega

theorem untagged_take_lt_untagged (h : tags[i]? = some none) :
    untagged (tags.take i) < untagged tags := by
  obtain ⟨hi, -⟩ := List.getElem?_eq_some_iff.mp h
  have hlt := untagged_take_lt h hi
  rwa [List.take_length] at hlt

theorem toNat_free (hroom : tags.largest.toNat + tags.untagged < 4294967295)
    (h : tags[i]? = some none) :
    (tags.free i).toNat = tags.largest.toNat + 1 + untagged (tags.take i) := by
  have hlt := untagged_take_lt_untagged h
  rw [free, UInt32.toNat_add, UInt32.toNat_add, UInt32.toNat_ofNat']
  simp
  omega

theorem largest_lt_free (hroom : tags.largest.toNat + tags.untagged < 4294967295)
    (h : tags[i]? = some none) : tags.largest.toNat < (tags.free i).toNat := by
  rw [toNat_free hroom h]
  omega

theorem free_lt_free (hroom : tags.largest.toNat + tags.untagged < 4294967295)
    (hi : tags[i]? = some none) (hj : tags[j]? = some none) (hij : i < j) :
    (tags.free i).toNat < (tags.free j).toNat := by
  have hlt := untagged_take_lt hi hij
  rw [toNat_free hroom hi, toNat_free hroom hj]
  omega

theorem getElem?_assigned (tags : Tags) (i : Nat) :
    tags.assigned[i]? = tags[i]?.map fun t => t.or (some (tags.free i)) :=
  List.getElem?_mapIdx ..

theorem assigned_of_tagged (h : tags[i]? = some (some t)) : tags.assigned[i]? = some (some t) := by
  simp [getElem?_assigned, h]

theorem assigned_of_untagged (h : tags[i]? = some none) :
    tags.assigned[i]? = some (some (tags.free i)) := by
  simp [getElem?_assigned, h]

theorem tag_of_assigned (h : tags.assigned[i]? = some (some t)) :
    tags[i]? = some (some t) ∨ tags[i]? = some none ∧ t = tags.free i := by
  rw [getElem?_assigned] at h
  obtain ⟨u, hu, hor⟩ := Option.map_eq_some_iff.mp h
  cases u with
  | none => exact .inr ⟨hu, by simpa using hor.symm⟩
  | some u => exact .inl (by simpa [hu] using hor)

theorem untagged_assigned (tags : Tags) : tags.assigned.untagged = 0 := by
  refine List.count_eq_zero.mpr fun h => ?_
  obtain ⟨i, hi⟩ := List.getElem?_of_mem h
  rw [getElem?_assigned] at hi
  obtain ⟨u, -, hor⟩ := Option.map_eq_some_iff.mp hi
  cases u <;> cases hor

/-- No two symbols have one tag, and the tags that are left are enough for all symbols. -/
structure Numbered (tags : Tags) : Prop where
  positive : ∀ (i : Nat) (t : UInt32), tags[i]? = some (some t) → 1 ≤ t.toNat
  distinct : ∀ (i j : Nat) (t : UInt32), tags[i]? = some (some t) → tags[j]? = some (some t) → i = j
  room : tags.largest.toNat + tags.untagged ≤ tags.length

theorem numbered_nil : Numbered [] where
  positive _ _ h := by cases h
  distinct _ _ _ h := by cases h
  room := Nat.le_refl 0

theorem getElem?_append_none :
    (tags ++ [none])[i]? = some (some t) ↔ tags[i]? = some (some t) := by
  rw [List.getElem?_append]
  split
  · rfl
  · rename_i hi
    rw [List.getElem?_eq_none (Nat.le_of_not_lt hi)]
    cases hj : i - tags.length <;> simp

theorem Numbered.append_none (h : tags.Numbered) : Numbered (tags ++ [none]) where
  positive i t ht := h.positive i t (getElem?_append_none.mp ht)
  distinct i j t hi hj :=
    h.distinct i j t (getElem?_append_none.mp hi) (getElem?_append_none.mp hj)
  room := by
    have hlargest : (largest (tags ++ [none])).toNat = tags.largest.toNat := by
      simp [largest, UInt32.toNat_max]
    have huntagged : untagged (tags ++ [none]) = tags.untagged + 1 := by simp [untagged]
    have hroom := h.room
    rw [hlargest, huntagged, List.length_append, List.length_singleton]
    omega

theorem Numbered.assigned (h : tags.Numbered) (hsize : tags.length < 4294967295) :
    tags.assigned.Numbered := by
  have hroom : tags.largest.toNat + tags.untagged < 4294967295 :=
    Nat.lt_of_le_of_lt h.room hsize
  refine ⟨fun i t hi => ?_, fun i j t hi hj => ?_, ?_⟩
  · rcases tag_of_assigned hi with hold | ⟨hnone, rfl⟩
    · exact h.positive i t hold
    · exact Nat.lt_of_le_of_lt (Nat.zero_le _) (largest_lt_free hroom hnone)
  · rcases tag_of_assigned hi with hiold | ⟨hinone, rfl⟩
    · rcases tag_of_assigned hj with hjold | ⟨hjnone, rfl⟩
      · exact h.distinct i j t hiold hjold
      · exact absurd (toNat_le_largest hiold) (Nat.not_le.mpr (largest_lt_free hroom hjnone))
    · rcases tag_of_assigned hj with hjold | ⟨hjnone, hfree⟩
      · exact absurd (toNat_le_largest hjold) (Nat.not_le.mpr (largest_lt_free hroom hinone))
      · by_contra hne
        rcases Nat.lt_or_gt_of_ne hne with hlt | hlt
        · have hnew := free_lt_free hroom hinone hjnone hlt
          rw [← hfree] at hnew
          exact absurd hnew (Nat.lt_irrefl _)
        · have hnew := free_lt_free hroom hjnone hinone hlt
          rw [← hfree] at hnew
          exact absurd hnew (Nat.lt_irrefl _)
  · have hlength : tags.assigned.length = tags.length := List.length_mapIdx
    rw [untagged_assigned, hlength, Nat.add_zero]
    refine largest_le_iff.mpr fun t ht => ?_
    obtain ⟨i, hi⟩ := List.getElem?_of_mem ht
    have hfit := h.room
    rcases tag_of_assigned hi with hold | ⟨hnone, rfl⟩
    · have := toNat_le_largest hold
      omega
    · have := untagged_take_lt_untagged hnone
      rw [toNat_free hroom hnone]
      omega

end Tags

def Symbol.tagIfNone (t : UInt32) (x : Symbol) : Symbol :=
  { x with tag := x.tag.or (some t) }

theorem Symbol.tagIfNone_of_tagged {t u : UInt32} {x : Symbol} (h : x.tag = some u) :
    tagIfNone t x = x := by
  cases x
  simp only at h
  simp [tagIfNone, h]

namespace Bindings

variable {b : Bindings}

def tags (b : Bindings) : Tags :=
  b.symbols.toList.map Symbol.tag

theorem getElem?_tags (b : Bindings) (i : Nat) : b.tags[i]? = b.symbols[i]?.map Symbol.tag := by
  simp [tags]

theorem length_tags (b : Bindings) : b.tags.length = b.symbols.size := by
  simp [tags]

theorem largestTag_eq (b : Bindings) : b.largestTag = b.tags.largest := by
  rw [largestTag, ← Array.foldl_toList, tags, Tags.largest, List.foldl_map]

theorem getElem?_tagFrom (next : UInt32) (l : List Symbol) (i : Nat) :
    (tagFrom next l)[i]? =
      l[i]?.map (Symbol.tagIfNone (next + .ofNat (Tags.untagged ((l.map Symbol.tag).take i)))) := by
  induction l generalizing next i with
  | nil => rfl
  | cons x l ih =>
    cases h : x.tag with
    | some t =>
      cases i with
      | zero => simp [tagFrom, h, Symbol.tagIfNone_of_tagged h]
      | succ i => simp [tagFrom, h, ih, Tags.untagged]
    | none =>
      cases i with
      | zero => simp [tagFrom, h, Tags.untagged, Symbol.tagIfNone]
      | succ i =>
        have hnext (k : Nat) : next + 1 + UInt32.ofNat k = next + UInt32.ofNat (k + 1) := by
          rw [UInt32.ofNat_add, UInt32.add_assoc, UInt32.add_comm 1]
          rfl
        simp [tagFrom, h, ih, Tags.untagged, hnext]

theorem getElem?_assignTags (b : Bindings) (i : Nat) :
    b.assignTags.symbols[i]? = b.symbols[i]?.map (Symbol.tagIfNone (b.tags.free i)) := by
  simp only [assignTags, List.getElem?_toArray, getElem?_tagFrom, Array.getElem?_toList,
    largestTag_eq, tags, Tags.free]

theorem tags_assignTags (b : Bindings) : b.assignTags.tags = b.tags.assigned := by
  refine List.ext_getElem? fun i => ?_
  rw [getElem?_tags, getElem?_assignTags, Tags.getElem?_assigned, getElem?_tags, Option.map_map,
    Option.map_map]
  rfl

theorem assignTags_assignTags (b : Bindings) : b.assignTags.assignTags = b.assignTags := by
  have hsymbols : b.assignTags.assignTags.symbols = b.assignTags.symbols := by
    refine Array.ext_getElem? fun i => ?_
    rw [getElem?_assignTags, getElem?_assignTags, Option.map_map]
    refine congrArg (Option.map · _) (funext fun x => ?_)
    cases h : x.tag <;> simp [Symbol.tagIfNone, h]
  exact congrArg (fun symbols => { b with symbols }) hsymbols

/-- The untagged symbols of `b` have got tags in `b'`, ascending and above those that there are,
and nothing else is different. -/
structure Tagged (b b' : Bindings) : Prop where
  nodeSymbols : b'.nodeSymbols = b.nodeSymbols
  fileLocals : b'.fileLocals = b.fileLocals
  size : b'.symbols.size = b.symbols.size
  kept : ∀ (i : Nat) (x : Symbol) (t : UInt32), b.symbols[i]? = some x → x.tag = some t →
    b'.symbols[i]? = some x
  given : ∀ (i : Nat) (x : Symbol), b.symbols[i]? = some x → x.tag = none →
    ∃ t, b'.symbols[i]? = some { x with tag := some t } ∧
      ∀ y ∈ b.symbols, ∀ u, y.tag = some u → u < t
  ascending : ∀ (i j : Nat) (t u : UInt32), i < j → b.tags[i]? = some none → b.tags[j]? = some none →
    b'.tags[i]? = some (some t) → b'.tags[j]? = some (some u) → t < u

theorem tagged_assignTags (hroom : b.largestTag.toNat + b.tags.untagged < 4294967295) :
    b.Tagged b.assignTags := by
  rw [largestTag_eq] at hroom
  refine ⟨rfl, rfl, ?_, ?_, ?_, ?_⟩
  · rw [← length_tags, tags_assignTags, ← length_tags]
    exact List.length_mapIdx
  · intro i x t hx ht
    rw [getElem?_assignTags, hx, Option.map_some, Symbol.tagIfNone_of_tagged ht]
  · intro i x hx ht
    have hnone : b.tags[i]? = some none := by rw [getElem?_tags, hx, Option.map_some, ht]
    refine ⟨b.tags.free i, ?_, ?_⟩
    · rw [getElem?_assignTags, hx, Option.map_some, Symbol.tagIfNone, ht]
      rfl
    · intro y hy u hu
      obtain ⟨j, hj⟩ := Array.getElem?_of_mem hy
      have hold : b.tags[j]? = some (some u) := by rw [getElem?_tags, hj, Option.map_some, hu]
      exact Nat.lt_of_le_of_lt (Tags.toNat_le_largest hold) (Tags.largest_lt_free hroom hnone)
  · intro i j t u hij hi hj ht hu
    rw [tags_assignTags, Tags.assigned_of_untagged hi] at ht
    rw [tags_assignTags, Tags.assigned_of_untagged hj] at hu
    cases ht
    cases hu
    exact Tags.free_lt_free hroom hi hj hij

theorem tags_push (b : Bindings) (x : Symbol) : (b.push x).tags = b.tags ++ [x.tag] := by
  simp [tags, push]

theorem tag_declare (x : Symbol) (n : NodeRef) (flags : UInt32) :
    (x.declare n flags).tag = x.tag := by
  cases n <;> rfl

theorem tags_record (b : Bindings) (s : SymbolRef) (n : NodeRef) (flags : UInt32) :
    (b.record s n flags).tags = b.tags := by
  have hsymbols : (b.record s n flags).symbols = (b.modify s (·.declare n flags)).symbols := by
    cases n <;> rfl
  refine List.ext_getElem? fun i => ?_
  rw [getElem?_tags, getElem?_tags, hsymbols]
  cases s with
  | none => rfl
  | some s =>
    rw [modify, Array.getElem?_modify]
    split
    · rw [Option.map_map]
      exact congrArg (Option.map · _) (funext fun x => tag_declare x n flags)
    · rfl

theorem tags_apply (b : Bindings) (c : Binding) :
    (b.apply c).1.tags = b.tags ∨ (b.apply c).1.tags = b.tags ++ [none] := by
  cases c with
  | ofFile n flags name =>
    cases h : b.mergeTarget? flags name with
    | none =>
      refine .inr ?_
      rw [apply, declare_of_new n h, tags_record]
      exact tags_push b _
    | some s =>
      refine .inl ?_
      rw [apply, declare_of_merge n h, tags_record]
  | ofMember owner n flags name =>
    refine .inr ?_
    rw [apply, declareMember, tags_record]
    exact tags_push b _

/-- A step of a run that declares and tags symbols. -/
inductive Change where
  | declare (c : Binding)
  | alloc (flags : UInt32) (name : String)
  | assignTags

def change (b : Bindings) : Change → Bindings
  | .declare c => (b.apply c).1
  | .alloc flags name => (b.alloc flags name).1
  | .assignTags => b.assignTags

def changed (l : List Change) : Bindings :=
  l.foldl change empty

theorem changed_append_singleton (l : List Change) (c : Change) :
    changed (l ++ [c]) = (changed l).change c := by
  simp [changed]

theorem tags_change (b : Bindings) (c : Change) :
    (b.change c).tags = b.tags ∨ (b.change c).tags = b.tags ++ [none] ∨
      (b.change c).tags = b.tags.assigned := by
  cases c with
  | declare c =>
    rcases b.tags_apply c with hsame | hnew
    · exact .inl hsame
    · exact .inr (.inl hnew)
  | alloc flags name => exact .inr (.inl (b.tags_push _))
  | assignTags => exact .inr (.inr b.tags_assignTags)

theorem length_tags_le_change (b : Bindings) (c : Change) :
    b.tags.length ≤ (b.change c).tags.length := by
  rcases b.tags_change c with h | h | h <;> simp [h, Tags.assigned]

theorem numbered_change (h : b.tags.Numbered) (hsize : b.tags.length < 4294967295)
    (c : Change) : (b.change c).tags.Numbered := by
  rcases b.tags_change c with hsame | hnew | hassigned
  · rwa [hsame]
  · rw [hnew]
    exact h.append_none
  · rw [hassigned]
    exact h.assigned hsize

theorem numbered_changed {l : List Change} (hsize : (changed l).tags.length < 4294967295) :
    (changed l).tags.Numbered := by
  induction l using List.reverseRecOn with
  | nil => exact Tags.numbered_nil
  | append_singleton l c ih =>
    rw [changed_append_singleton] at hsize ⊢
    have hlt := Nat.lt_of_le_of_lt ((changed l).length_tags_le_change c) hsize
    exact numbered_change (ih hlt) hlt c

theorem getElem?_tags_change {i : Nat} {t : UInt32} (h : b.tags[i]? = some (some t))
    (c : Change) : (b.change c).tags[i]? = some (some t) := by
  rcases b.tags_change c with hsame | hnew | hassigned
  · rwa [hsame]
  · rwa [hnew, Tags.getElem?_append_none]
  · rw [hassigned, Tags.assigned_of_tagged h]

theorem getElem?_tags_changed_append {l : List Change} {i : Nat} {t : UInt32}
    (h : (changed l).tags[i]? = some (some t)) (l' : List Change) :
    (changed (l ++ l')).tags[i]? = some (some t) := by
  induction l' using List.reverseRecOn with
  | nil => rwa [List.append_nil]
  | append_singleton l' c ih =>
    rw [← List.append_assoc, changed_append_singleton]
    exact getElem?_tags_change ih c

def ownTag? (b : Bindings) (s : SymbolRef) : Option UInt32 :=
  (b.symbol? s).bind Symbol.tag

theorem ownTag?_eq_some_iff {s : SymbolRef} {t : UInt32} :
    b.ownTag? s = some t ↔ ∃ id, s = some id ∧ b.tags[id.index]? = some (some t) := by
  cases s with
  | none => simp [ownTag?, symbol?]
  | some id => simp [ownTag?, symbol?, getElem?_tags, Option.bind_eq_some_iff]

theorem toString_toNat_inj {t u : UInt32} : toString t.toNat = toString u.toNat ↔ t = u := by
  constructor
  · intro h
    have hdigits := congrArg (fun s : String => Nat.ofDigitChars 10 s.toList 0) h
    simpa [Nat.repr, Nat.ofDigitChars_ten_toDigits, UInt32.toNat_inj] using hdigits
  · rintro rfl
    rfl

theorem identity?_of_ownTag {s : SymbolRef} {t : UInt32} (h : b.ownTag? s = some t)
    (hpos : 1 ≤ t.toNat) : b.identity? s = some (toString t.toNat) := by
  obtain ⟨x, hx, ht⟩ := Option.bind_eq_some_iff.mp h
  have hne : t ≠ 0 := by
    rintro rfl
    exact absurd hpos (by decide)
  simp [identity?, hx, tagOf?, ht, hne]

theorem one_le_ownTag (h : b.tags.Numbered) {s : SymbolRef} {t : UInt32}
    (ht : b.ownTag? s = some t) : 1 ≤ t.toNat := by
  obtain ⟨id, rfl, hid⟩ := ownTag?_eq_some_iff.mp ht
  exact h.positive _ _ hid

theorem ownTag?_inj (h : b.tags.Numbered) {s s' : SymbolRef} {t : UInt32}
    (ht : b.ownTag? s = some t) (ht' : b.ownTag? s' = some t) : s = s' := by
  obtain ⟨⟨i, hi⟩, rfl, hid⟩ := ownTag?_eq_some_iff.mp ht
  obtain ⟨⟨j, hj⟩, rfl, hid'⟩ := ownTag?_eq_some_iff.mp ht'
  obtain rfl : i = j := h.distinct i j t hid hid'
  rfl

theorem exists_ownTag_assignTags {s : SymbolRef} (hs : (b.assignTags.symbol? s).isSome) :
    ∃ t, b.assignTags.ownTag? s = some t := by
  obtain ⟨x, hx⟩ := Option.isSome_iff_exists.mp hs
  cases s with
  | none => cases hx
  | some id =>
    have hassigned := hx
    simp only [symbol?, Option.bind_some, getElem?_assignTags] at hassigned
    obtain ⟨y, -, rfl⟩ := Option.map_eq_some_iff.mp hassigned
    refine ⟨y.tag.getD (b.tags.free id.index), ?_⟩
    rw [ownTag?, hx]
    cases h : y.tag <;> simp [Symbol.tagIfNone, h]

theorem exists_identity_assignTags (h : b.assignTags.tags.Numbered) {s : SymbolRef}
    (hs : (b.assignTags.symbol? s).isSome) : ∃ t, b.assignTags.ownTag? s = some t ∧
      b.assignTags.identity? s = some (toString t.toNat) := by
  obtain ⟨t, ht⟩ := exists_ownTag_assignTags hs
  exact ⟨t, ht, identity?_of_ownTag ht (one_le_ownTag h ht)⟩

theorem isSome_symbol_of_identity {s : SymbolRef} {text : String}
    (h : b.identity? s = some text) : (b.symbol? s).isSome := by
  obtain ⟨x, hx, -⟩ := Option.bind_eq_some_iff.mp h
  exact Option.isSome_of_eq_some hx

theorem identity?_assignTags_inj (h : b.assignTags.tags.Numbered)
    {s s' : SymbolRef} {text : String} (hs : b.assignTags.identity? s = some text)
    (hs' : b.assignTags.identity? s' = some text) : s = s' := by
  obtain ⟨t, ht, hid⟩ := exists_identity_assignTags h (isSome_symbol_of_identity hs)
  obtain ⟨t', ht', hid'⟩ := exists_identity_assignTags h (isSome_symbol_of_identity hs')
  rw [hs] at hid
  rw [hs', hid] at hid'
  obtain rfl := toString_toNat_inj.mp (Option.some.inj hid')
  exact ownTag?_inj h ht ht'

/-- Assigning tags keeps all tags there are and numbers the other symbols above them. So along a
run without too many symbols, tags are positive, never shared and never changed, and after every
assignment all symbols are told apart by their identities. -/
theorem assignTags_numbers_symbols :
    (∀ b : Bindings, b.largestTag.toNat + b.tags.untagged < 4294967295 →
      b.Tagged b.assignTags ∧ b.assignTags.assignTags = b.assignTags) ∧
    ∀ l : List Change, (changed l).symbols.size < 4294967295 →
      (∀ s t, (changed l).ownTag? s = some t → 1 ≤ t.toNat) ∧
      (∀ s s' t, (changed l).ownTag? s = some t → (changed l).ownTag? s' = some t → s = s') ∧
      (∀ before after, l = before ++ after → ∀ s t,
        (changed before).ownTag? s = some t → (changed l).ownTag? s = some t) ∧
      ∀ before, l = before ++ [.assignTags] →
        (∀ s, ((changed l).symbol? s).isSome → ((changed l).identity? s).isSome) ∧
        ∀ s s' text, (changed l).identity? s = some text → (changed l).identity? s' = some text →
          s = s' := by
  refine ⟨fun b hroom => ⟨tagged_assignTags hroom, b.assignTags_assignTags⟩, fun l hsize => ?_⟩
  rw [← length_tags] at hsize
  have h := numbered_changed hsize
  refine ⟨fun s t => one_le_ownTag h, fun s s' t => ownTag?_inj h, ?_, ?_⟩
  · rintro before after rfl s t ht
    obtain ⟨id, rfl, hid⟩ := ownTag?_eq_some_iff.mp ht
    exact ownTag?_eq_some_iff.mpr ⟨id, rfl, getElem?_tags_changed_append hid after⟩
  · rintro before rfl
    rw [changed_append_singleton] at h ⊢
    refine ⟨fun s hs => ?_, fun s s' text => identity?_assignTags_inj h⟩
    obtain ⟨t, -, hid⟩ := exists_identity_assignTags h hs
    exact Option.isSome_of_eq_some hid

/-- Symbols with and without tags, where a tag is zero and the largest one is not the last. -/
def gapped : Bindings :=
  { symbols := #[{ flags := SymbolFlags.classLike, name := "A", tag := some 7 },
      { flags := SymbolFlags.property, name := "m" },
      { flags := SymbolFlags.interface, name := "I", tag := some 0 },
      { flags := SymbolFlags.property, name := "m" }] }

/-- Tags are assigned once with one symbol and once more with four. -/
def taggedTwice : List Change :=
  [.declare (.ofFile (Row.ofIndex 1) SymbolFlags.classLike "A"), .assignTags,
    .declare (.ofMember (Row.ofIndex 0) (Row.ofIndex 2) SymbolFlags.property "m"),
    .alloc SymbolFlags.property "m",
    .declare (.ofFile (Row.ofIndex 3) SymbolFlags.interface "A"), .assignTags]

theorem gapped_taggedTwice_numbered :
    gapped.largestTag.toNat + gapped.tags.untagged < 4294967295 ∧
    gapped.Tagged gapped.assignTags ∧ gapped.assignTags.assignTags = gapped.assignTags ∧
    (changed taggedTwice).symbols.size < 4294967295 ∧
    (changed taggedTwice).ownTag? (Row.ofIndex 0) = some 1 ∧
    (changed taggedTwice).identity? (Row.ofIndex 1) ≠
      (changed taggedTwice).identity? (Row.ofIndex 2) := by
  obtain ⟨hstate, hrun⟩ := assignTags_numbers_symbols
  have hroom : gapped.largestTag.toNat + gapped.tags.untagged < 4294967295 := by decide
  have hsize : (changed taggedTwice).symbols.size < 4294967295 := by decide
  obtain ⟨htagged, hagain⟩ := hstate gapped hroom
  obtain ⟨-, -, hkept, hidentity⟩ := hrun taggedTwice hsize
  obtain ⟨hpresent, hdistinct⟩ := hidentity (taggedTwice.take 5) rfl
  refine ⟨hroom, htagged, hagain, hsize, ?_, fun hsame => ?_⟩
  · exact hkept (taggedTwice.take 2) (taggedTwice.drop 2) rfl _ _ (by decide)
  · obtain ⟨text, htext⟩ := Option.isSome_iff_exists.mp (hpresent (Row.ofIndex 1) (by decide))
    have heq := hdistinct _ _ text htext (hsame.symm.trans htext)
    revert heq
    decide

end Bindings

end TypeAtlas
