import TypeAtlas.Files.FileTree

/-! The locations of all files, and those that a walk from file to file has not visited yet. -/

namespace TypeAtlas

namespace FileTree

theorem mem_filesIn_of_mem_filesAt {enter : Location → Bool} {base x : Location} {name : String}
    {t : FileTree} {entries : List (String × FileTree)} (h : entries.lookup name = some t)
    (hx : x ∈ filesAt enter (base ++ [name]) t) : x ∈ filesIn enter base entries := by
  induction entries with
  | nil => simp at h
  | cons entry rest ih =>
    obtain ⟨key, first⟩ := entry
    rw [filesIn, List.mem_append]
    by_cases hk : name = key
    · subst hk
      simp only [List.lookup_cons, beq_self_eq_true, Option.some.injEq] at h
      exact .inl (h ▸ hx)
    · have : (name == key) = false := by simpa using hk
      rw [List.lookup_cons, this] at h
      exact .inr (ih h)

/-- Without a restriction the search finds every file. -/
theorem mem_filesAt_of_get? {location : Location} :
    ∀ (base : Location) {t : FileTree} {contents : ByteArray},
      t.get? location = some (.file contents) →
        base ++ location ∈ filesAt (fun _ => true) base t := by
  induction location with
  | nil =>
    intro base t contents h
    simp only [get?, Option.some.injEq] at h
    simp [h, filesAt]
  | cons name location ih =>
    intro base t contents h
    simp only [get?] at h
    obtain ⟨t', ht', h'⟩ := Option.bind_eq_some_iff.1 h
    cases t with
    | file => simp [entries] at ht'
    | directory entries =>
      have found := ih (base ++ [name]) h'
      rw [List.append_assoc, List.singleton_append] at found
      rw [filesAt, if_pos rfl]
      exact mem_filesIn_of_mem_filesAt ht' found

end FileTree

/-- Marking a member that is still unmarked leaves fewer members unmarked. -/
theorem length_filter_not_mem_cons_lt {α : Type} [BEq α] [LawfulBEq α] {x : α}
    {marked all : List α} (hx : x ∈ all) (hm : x ∉ marked) :
    (all.filter (· ∉ x :: marked)).length < (all.filter (· ∉ marked)).length := by
  have hsub : all.filter (· ∉ x :: marked) = (all.filter (· ∉ marked)).filter (· != x) := by
    rw [List.filter_filter]
    congr 1
    funext y
    by_cases y = x <;> simp_all
  rw [hsub]
  refine Nat.lt_of_le_of_ne (List.length_filter_le ..) fun h => ?_
  have hall := List.length_filter_eq_length_iff.1 h
  simpa using hall x (by simp [hx, hm])

namespace Files

variable (files : Files)

def locations : List Location :=
  FileTree.filesAt (fun _ => true) [] files.root

def unvisited (visited : List Location) : List Location :=
  files.locations.filter (· ∉ visited)

theorem mem_locations_of_readText {path text : String} {location : Location}
    (hl : files.locate path = .ok location) (ht : files.readText path = .ok text) :
    location ∈ files.locations := by
  simp only [readText, find, hl, bind, Except.bind] at ht
  cases h : files.root.get? location with
  | none => simp [h] at ht
  | some t =>
    cases t with
    | directory => simp [h, pure, Except.pure] at ht
    | file contents => exact FileTree.mem_filesAt_of_get? [] h

theorem unvisited_cons_lt {visited : List Location} {location : Location}
    (h : location ∈ files.locations) (hv : location ∉ visited) :
    (files.unvisited (location :: visited)).length < (files.unvisited visited).length :=
  length_filter_not_mem_cons_lt h hv

end Files

end TypeAtlas
