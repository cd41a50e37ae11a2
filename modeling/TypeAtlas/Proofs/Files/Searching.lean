import TypeAtlas.Proofs.Files.Following

/-! Searching a directory. A search finds a file exactly when it enters every directory on the way
to it. -/

namespace TypeAtlas

/-- A name that something in a directory can have. -/
structure IsFileName (name : String) : Prop where
  ne_empty : name ≠ ""
  ne_dot : name ≠ "."
  ne_dots : name ≠ ".."
  not_mem_slash : '/' ∉ name.toList

instance : DecidablePred IsFileName := fun name =>
  decidable_of_iff (name ≠ "" ∧ name ≠ "." ∧ name ≠ ".." ∧ '/' ∉ name.toList)
    ⟨fun ⟨hempty, hdot, hdots, hslash⟩ => ⟨hempty, hdot, hdots, hslash⟩,
      fun h => ⟨h.ne_empty, h.ne_dot, h.ne_dots, h.not_mem_slash⟩⟩

namespace FileTree

/-- In every directory each name is there once. -/
inductive WellNamed : FileTree → Prop
  | file (contents : ByteArray) : WellNamed (.file contents)
  | directory {entries : List (String × FileTree)} (distinct : (entries.map Prod.fst).Nodup)
    (names : ∀ e ∈ entries, IsFileName e.1) (below : ∀ e ∈ entries, WellNamed e.2) :
    WellNamed (.directory entries)

def HasFile (t : FileTree) (location : Location) : Prop :=
  ∃ contents, t.get? location = some (.file contents)

theorem WellNamed.isFileName_head {t : FileTree} (h : t.WellNamed) {name : String}
    {rest : Location} (hfile : t.HasFile (name :: rest)) : IsFileName name := by
  obtain ⟨contents, hget⟩ := hfile
  obtain ⟨t', hlookup, -⟩ := Option.bind_eq_some_iff.mp hget
  cases h with
  | file => cases hlookup
  | directory distinct names => exact names _ ((lookup_eq_some_iff_mem distinct).mp hlookup)

theorem of_get?_single {name key : String} {below t : FileTree} {rest : Location}
    (h : (directory [(key, below)]).get? (name :: rest) = some t) :
    name = key ∧ below.get? rest = some t := by
  obtain ⟨below', hlookup, hrest⟩ := Option.bind_eq_some_iff.mp h
  have hentry := (lookup_eq_some_iff_mem (by simp [entries])).mp hlookup
  obtain ⟨rfl, rfl⟩ := Prod.mk.inj (List.mem_singleton.mp hentry)
  exact ⟨rfl, hrest⟩

theorem filesIn_eq_flatMap (enter : Location → Bool) (base : Location)
    (entries : List (String × FileTree)) :
    filesIn enter base entries = entries.flatMap fun e => filesAt enter (base ++ [e.1]) e.2 := by
  induction entries with
  | nil => rfl
  | cons entry rest ih => rw [filesIn, ih, List.flatMap_cons]

theorem WellNamed.mem_filesAt_iff {t : FileTree} (h : t.WellNamed) {enter : Location → Bool}
    {base location : Location} :
    location ∈ filesAt enter base t ↔ ∃ rest, location = base ++ rest ∧ t.HasFile rest ∧
      ∀ above, above <+: rest → above ≠ rest → enter (base ++ above) = true := by
  induction h generalizing base with
  | file contents =>
    rw [filesAt, List.mem_singleton]
    constructor
    · rintro rfl
      refine ⟨[], (List.append_nil _).symm, ⟨contents, rfl⟩, fun above hway hne => ?_⟩
      exact absurd (List.prefix_nil.mp hway) hne
    · rintro ⟨rest, rfl, ⟨contents', hget⟩, -⟩
      cases rest with
      | nil => exact List.append_nil base
      | cons => cases hget
  | @directory entries distinct names below ih =>
    constructor
    · intro hmem
      rw [filesAt] at hmem
      split at hmem
      · rename_i henter
        rw [filesIn_eq_flatMap] at hmem
        obtain ⟨⟨name, t⟩, hentry, hmem⟩ := List.mem_flatMap.mp hmem
        obtain ⟨rest, rfl, ⟨contents, hget⟩, hways⟩ := (ih _ hentry).mp hmem
        have hlookup := (lookup_eq_some_iff_mem distinct).mpr hentry
        refine ⟨name :: rest, by simp, ⟨contents, ?_⟩, fun above hway hne => ?_⟩
        · simp only [get?, FileTree.entries, hlookup, Option.bind_some, hget]
        · rcases List.prefix_cons_iff.mp hway with rfl | ⟨above, rfl, hrest⟩
          · simpa using henter
          · simpa using hways above hrest fun heq => hne (heq ▸ rfl)
      · cases hmem
    · rintro ⟨rest, rfl, ⟨contents, hget⟩, hways⟩
      cases rest with
      | nil => cases hget
      | cons name rest =>
        obtain ⟨t, hlookup, hget⟩ := Option.bind_eq_some_iff.mp hget
        have hentry := (lookup_eq_some_iff_mem distinct).mp hlookup
        have henter : enter base = true := by
          simpa using hways [] List.nil_prefix (List.cons_ne_nil name rest).symm
        rw [filesAt, if_pos henter, filesIn_eq_flatMap]
        refine List.mem_flatMap.mpr ⟨_, hentry, (ih _ hentry).mpr ?_⟩
        refine ⟨rest, by simp, ⟨contents, hget⟩, fun above hway hne => ?_⟩
        simpa using hways (name :: above) (List.cons_prefix_cons.mpr ⟨rfl, hway⟩) (by simpa)

end FileTree

end TypeAtlas
