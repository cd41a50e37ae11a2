import TypeAtlas.Proofs.Files.Following

/-! The names between the slashes of a path, and the directories that a path lies in by them. -/

namespace TypeAtlas

namespace Path

/-- The names between the slashes of a path, empty ones among them. -/
def pieces (path : String) : List String :=
  (Text.split '/' path.toList).map String.ofList

/-- A path is that of a directory, or it begins with it and goes on below. -/
def LiesIn (directory : List String) (path : String) : Prop :=
  directory <+: pieces path

variable {directory names : List String} {path : String}

theorem map_toList_pieces (path : String) :
    (pieces path).map String.toList = Text.split '/' path.toList := by
  simp [pieces, Function.comp_def]

theorem intercalate_pieces (path : String) : "/".intercalate (pieces path) = path := by
  refine String.toList_injective ?_
  rw [String.toList_intercalate, map_toList_pieces]
  exact Text.intercalate_split '/' path.toList

theorem pieces_intercalate (hne : names ≠ []) (h : ∀ name ∈ names, '/' ∉ name.toList) :
    pieces ("/".intercalate names) = names := by
  have hsplit : Text.split '/' ("/".intercalate names).toList = names.map String.toList := by
    rw [String.toList_intercalate]
    exact Text.split_intercalate (by simpa using hne) (by simpa using h)
  rw [pieces, hsplit]
  simp [Function.comp_def]

theorem pieces_append_slash (front rest : String) :
    pieces (front ++ "/" ++ rest) = pieces front ++ pieces rest := by
  have htext : (front ++ "/" ++ rest).toList = front.toList ++ '/' :: rest.toList := by simp
  rw [pieces, htext, Text.split_append_cons, List.map_append]
  rfl

theorem liesIn_iff (hne : directory ≠ []) (h : ∀ name ∈ directory, '/' ∉ name.toList) :
    LiesIn directory path ↔ path = "/".intercalate directory ∨
      ∃ rest, path = "/".intercalate directory ++ "/" ++ rest := by
  constructor
  · rintro ⟨rest, hrest⟩
    have hpath := intercalate_pieces path
    rw [← hrest] at hpath
    by_cases hnil : rest = []
    · subst hnil
      rw [List.append_nil] at hpath
      exact .inl hpath.symm
    · rw [String.intercalate_append_of_ne_nil hne hnil] at hpath
      exact .inr ⟨_, hpath.symm⟩
  · rintro (rfl | ⟨rest, rfl⟩)
    · exact ⟨[], by rw [List.append_nil, pieces_intercalate hne h]⟩
    · rw [LiesIn, pieces_append_slash, pieces_intercalate hne h]
      exact List.prefix_append _ _

theorem normalize_of_not_mem (h : '\\' ∉ path.toList) : normalize path = path := by
  have hmap : path.toList.map (fun c => if c = '\\' then '/' else c) = path.toList := by
    have hsame : ∀ c ∈ path.toList, (if c = '\\' then '/' else c) = c := by
      intro c hc
      refine if_neg ?_
      rintro rfl
      exact h hc
    rw [List.map_congr_left hsame, List.map_id']
  rw [normalize, hmap, String.ofList_toList]

theorem normalize_append (front rest : String) :
    normalize (front ++ rest) = normalize front ++ normalize rest := by
  simp [normalize]

theorem normalize_join_inj {path' : String} (h : isAbsolute path = false)
    (h' : isAbsolute path' = false) (directory : String)
    (heq : normalize (join directory path) = normalize (join directory path')) :
    normalize path = normalize path' := by
  obtain ⟨front, hjoin⟩ : ∃ front, ∀ path, isAbsolute path = false →
      join directory path = front ++ path := by
    by_cases hend : (directory.isEmpty || directory.toList.getLast? = some '/') = true
    · exact ⟨directory, fun path hpath => by simp [join, hpath, hend]⟩
    · exact ⟨directory ++ "/", fun path hpath => by simp [join, hpath, hend]⟩
  rw [hjoin _ h, hjoin _ h', normalize_append, normalize_append] at heq
  have htext := congrArg String.toList heq
  rw [String.toList_append, String.toList_append] at htext
  exact String.toList_injective (List.append_cancel_left htext)

end Path

end TypeAtlas
