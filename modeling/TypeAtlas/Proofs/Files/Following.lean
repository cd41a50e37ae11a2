import TypeAtlas.Files.Path
import TypeAtlas.Files.Locations
import TypeAtlas.Proofs.Sequences
import TypeAtlas.Proofs.Text.Splitting

/-! Following paths by the names in them. A path that begins in the directory of another one leads
to where its names lead from the location of that directory, however the two are spelled. -/

namespace TypeAtlas

namespace Path

def names (path : List Char) : List (List Char) :=
  (Text.split '/' path).filter fun c => !isEmptyComponent c

theorem components_eq_map_names (path : String) :
    components path = (names path.toList).map String.ofList :=
  rfl

theorem names_append_slash (s t : List Char) : names (s ++ '/' :: t) = names s ++ names t := by
  rw [names, Text.split_append_cons, List.filter_append]
  rfl

theorem names_slash (s : List Char) : names ('/' :: s) = names s :=
  names_append_slash [] s

theorem names_intercalate {pieces : List (List Char)} (h : ∀ piece ∈ pieces, '/' ∉ piece) :
    names (List.intercalate ['/'] pieces) = pieces.filter fun c => !isEmptyComponent c := by
  cases pieces with
  | nil => rfl
  | cons piece rest => rw [names, Text.split_intercalate (List.cons_ne_nil _ _) h]

theorem names_join (directory : String) {path : String} (h : isAbsolute path = false) :
    names (join directory path).toList = names directory.toList ++ names path.toList := by
  rw [join, h, if_neg Bool.false_ne_true]
  split
  · rename_i hdirectory
    rw [String.toList_append]
    rcases Bool.or_eq_true_iff.mp hdirectory with hempty | hend
    · rw [String.isEmpty_iff.mp hempty]
      rfl
    · obtain ⟨s, hs⟩ := List.getLast?_eq_some_iff.mp (of_decide_eq_true hend)
      have hnil : names (s ++ ['/']) = names s := by
        rw [names_append_slash]
        exact List.append_nil _
      rw [hs, hnil, List.append_assoc]
      exact names_append_slash s path.toList
  · rw [String.toList_append, String.toList_append, List.append_assoc]
    exact names_append_slash directory.toList path.toList

theorem isAbsolute_join (directory : String) {path : String} (h : isAbsolute path = false) :
    isAbsolute (join directory path) = isAbsolute directory := by
  rw [join, h, if_neg Bool.false_ne_true]
  cases hd : directory.toList with
  | nil =>
    obtain rfl : directory = "" := String.toList_eq_nil_iff.mp hd
    simpa [isAbsolute] using h
  | cons c rest =>
    split <;> simp [isAbsolute, hd]

theorem names_drop_anchor (s : List Char) : names (s.drop (anchor s).length) = names s := by
  unfold anchor
  split
  · rename_i rest
    exact (names_slash rest).symm
  · rfl
  · rename_i rest
    exact (names_slash rest).trans (names_append_slash ['.'] rest).symm
  · rfl

theorem filter_dropWhile_not {α : Type} (p : α → Bool) (l : List α) :
    (l.dropWhile p).filter (fun x => !p x) = l.filter fun x => !p x := by
  induction l with
  | nil => rfl
  | cons x l ih => cases h : p x <;> simp [h, ih]

theorem names_eq_trailing (s : List Char) :
    names s = ((trailing s).filter fun c => !isEmptyComponent c).reverse := by
  rw [trailing, filter_dropWhile_not, List.filter_reverse, List.reverse_reverse,
    ← names_drop_anchor]
  rfl

theorem kept_prefix {s : List Char} {last : List Char} {above : List (List Char)}
    (h : trailing s = last :: above) :
    (above.dropWhile isEmptyComponent).reverse <+: Text.split '/' (s.drop (anchor s).length) := by
  rw [← List.reverse_suffix, List.reverse_reverse]
  have hsuffix : last :: above <:+ (Text.split '/' (s.drop (anchor s).length)).reverse :=
    h ▸ List.dropWhile_suffix isEmptyComponent
  exact (List.dropWhile_suffix _).trans ((List.suffix_cons last above).trans hsuffix)

theorem isEmptyComponent_head_dropWhile {l above : List (List Char)} {last : List Char}
    (h : l.dropWhile isEmptyComponent = last :: above) : isEmptyComponent last = false := by
  have hhead := List.head?_dropWhile_not isEmptyComponent l
  rw [h] at hhead
  simpa using hhead

theorem names_anchor_append {s last : List Char} {above kept : List (List Char)}
    (h : trailing s = last :: above) (hkept : (above.dropWhile isEmptyComponent).reverse = kept) :
    names (anchor s ++ List.intercalate ['/'] kept) = names (List.intercalate ['/'] kept) := by
  have hprefix := hkept ▸ kept_prefix h
  unfold anchor at hprefix ⊢
  split at hprefix
  · exact names_slash _
  · cases h
  · rename_i rest
    change kept <+: Text.split '/' ('/' :: rest) at hprefix
    rw [Text.split_cons_self] at hprefix
    cases kept with
    | nil => rfl
    | cons first more =>
      obtain ⟨rfl, hmore⟩ := List.cons_prefix_cons.mp hprefix
      cases more with
      | nil =>
        have hlast := isEmptyComponent_head_dropWhile
          (List.reverse_eq_iff.mp hkept : above.dropWhile isEmptyComponent = [[]])
        cases hlast
      | cons next more =>
        have hcons : List.intercalate ['/'] ([] :: next :: more) =
            '/' :: List.intercalate ['/'] (next :: more) := by
          simp [List.intercalate]
        rw [hcons, names_slash]
        exact names_append_slash ['.'] _
  · rfl

theorem head?_anchor_append {s last : List Char} {above kept : List (List Char)}
    (h : trailing s = last :: above) (hkept : (above.dropWhile isEmptyComponent).reverse = kept) :
    (anchor s ++ List.intercalate ['/'] kept).head? = some '/' ↔ s.head? = some '/' := by
  have hprefix := hkept ▸ kept_prefix h
  unfold anchor at hprefix ⊢
  split at hprefix
  · simp
  · simp
  · simp
  · rename_i hslash _ _
    cases s with
    | nil => cases h
    | cons c rest =>
      have hc : c ≠ '/' := fun hc => hslash rest (hc ▸ rfl)
      obtain ⟨piece, pieces, -, hcons⟩ := Text.split_cons_of_ne hc rest
      change kept <+: Text.split '/' (c :: rest) at hprefix
      rw [hcons] at hprefix
      cases kept with
      | nil => simpa using hc
      | cons first more =>
        obtain ⟨rfl, -⟩ := List.cons_prefix_cons.mp hprefix
        cases more <;> simp [List.intercalate, hc]

theorem names_of_parent? {path directory : String} (h : parent? path = some directory)
    (hnames : names path.toList ≠ []) :
    ∃ last, names path.toList = names directory.toList ++ [last] ∧
      isAbsolute directory = isAbsolute path := by
  have htrailing := names_eq_trailing path.toList
  cases ht : trailing path.toList with
  | nil => exact absurd (by rw [htrailing, ht]; rfl) hnames
  | cons last above =>
    obtain ⟨kept, hkept⟩ : ∃ kept, (above.dropWhile isEmptyComponent).reverse = kept := ⟨_, rfl⟩
    have hdirectory : directory.toList = anchor path.toList ++ List.intercalate ['/'] kept := by
      simp only [parent?, ht, hkept] at h
      rw [← Option.some.inj h, String.toList_ofList]
    have hpieces : ∀ piece ∈ kept, '/' ∉ piece := fun piece hp =>
      Text.not_mem_of_mem_split ((hkept ▸ kept_prefix ht).subset hp)
    have hlast : isEmptyComponent last = false := isEmptyComponent_head_dropWhile ht
    refine ⟨last, ?_, ?_⟩
    · rw [hdirectory, names_anchor_append ht hkept, names_intercalate hpieces, ← hkept,
        List.filter_reverse, filter_dropWhile_not, htrailing, ht,
        List.filter_cons_of_pos (by simp [hlast]), List.reverse_cons]
    · simp only [isAbsolute, hdirectory, head?_anchor_append ht hkept]

end Path

namespace FileTree

theorem get?_append (t : FileTree) (a b : Location) :
    t.get? (a ++ b) = (t.get? a).bind fun t => t.get? b := by
  induction a generalizing t with
  | nil => rfl
  | cons name a ih =>
    cases h : t.entries.lookup name with
    | none => simp [get?, h]
    | some t' => simp [get?, h, ih]

theorem get?_dropLast {t : FileTree} {location : Location} {entries : List (String × FileTree)}
    (h : t.get? location = some (.directory entries)) :
    ∃ above, t.get? location.dropLast = some (.directory above) := by
  rcases List.eq_nil_or_concat location with rfl | ⟨above, name, rfl⟩
  · exact ⟨entries, h⟩
  · rw [List.concat_eq_append] at h ⊢
    rw [List.dropLast_concat]
    rw [get?_append] at h
    obtain ⟨t', ht', hname⟩ := Option.bind_eq_some_iff.mp h
    cases t' with
    | file contents => cases hname
    | directory entries => exact ⟨entries, ht'⟩

end FileTree

namespace Files

section Definitions

variable (files : Files)

/-- Where the names in a path lead from a location, or from the root if the path is absolute. -/
def follow (start : Location) (path : String) : Except FileFault Location :=
  (Path.components path).foldlM files.step (if Path.isAbsolute path then [] else start)

def IsFile (location : Location) : Prop :=
  ∃ contents, files.root.get? location = some (.file contents)

end Definitions

variable {files : Files}

theorem directory_of_step {location location' : Location} {component : String}
    (h : files.step location component = .ok location') :
    ∃ entries, files.root.get? location = some (.directory entries) := by
  unfold step at h
  split at h
  · exact ⟨_, ‹_›⟩
  · cases h
  · cases h

theorem step_isEmptyComponent {location location' : Location} {component : List Char}
    (hempty : Path.isEmptyComponent component = true)
    (h : files.step location (String.ofList component) = .ok location') : location' = location := by
  obtain ⟨entries, hdirectory⟩ := directory_of_step h
  have hname : String.ofList component = "" ∨ String.ofList component = "." := by
    rcases Bool.or_eq_true_iff.mp hempty with hnil | hdot
    · exact .inl (congrArg String.ofList (List.isEmpty_iff.mp hnil))
    · exact .inr (congrArg String.ofList (of_decide_eq_true hdot))
  simp only [step, hdirectory] at h
  rw [if_pos (by simpa using hname)] at h
  exact (Except.ok.inj h).symm

theorem IsFile.dropLast_of_step {location directory : Location} {name : String}
    (hfile : files.IsFile location) (h : files.step directory name = .ok location) :
    location.dropLast = directory := by
  obtain ⟨contents, hfile⟩ := hfile
  obtain ⟨entries, hdirectory⟩ := directory_of_step h
  simp only [step, hdirectory] at h
  split at h
  · cases h
    cases hfile.symm.trans hdirectory
  · split at h
    · cases h
      obtain ⟨above, habove⟩ := FileTree.get?_dropLast hdirectory
      cases hfile.symm.trans habove
    · split at h
      · cases h
      · split at h
        · cases h
          exact List.dropLast_concat
        · cases h

theorem foldlM_step_filter {start location : Location} {components : List (List Char)}
    (h : (components.map String.ofList).foldlM files.step start = .ok location) :
    ((components.filter fun c => !Path.isEmptyComponent c).map String.ofList).foldlM files.step
      start = .ok location := by
  induction components generalizing start with
  | nil => exact h
  | cons c components ih =>
    rw [List.map_cons, List.foldlM_cons, bind_eq_ok_iff] at h
    obtain ⟨next, hnext, hrest⟩ := h
    cases hc : Path.isEmptyComponent c with
    | true =>
      rw [step_isEmptyComponent hc hnext] at hrest
      rw [List.filter_cons_of_neg (by simp [hc])]
      exact ih hrest
    | false =>
      rw [List.filter_cons_of_pos (by simp [hc]), List.map_cons, List.foldlM_cons, hnext]
      exact ih hrest

theorem directory_of_foldlM_step {start location : Location} {components : List (List Char)}
    (hempty : ∀ c ∈ components, Path.isEmptyComponent c = true) (hne : components ≠ [])
    (h : (components.map String.ofList).foldlM files.step start = .ok location) :
    ∃ entries, files.root.get? location = some (.directory entries) := by
  induction components generalizing start with
  | nil => exact absurd rfl hne
  | cons c components ih =>
    rw [List.map_cons, List.foldlM_cons, bind_eq_ok_iff] at h
    obtain ⟨next, hnext, hrest⟩ := h
    cases components with
    | nil =>
      cases hrest
      rw [step_isEmptyComponent (hempty c List.mem_cons_self) hnext]
      exact directory_of_step hnext
    | cons d components =>
      exact ih (fun c hc => hempty c (List.mem_cons_of_mem _ hc)) (List.cons_ne_nil d _) hrest

theorem locate_eq_ok {path : String} {location : Location} (h : files.locate path = .ok location) :
    ((Text.split '/' path.toList).map String.ofList).foldlM files.step
      (if Path.isAbsolute path then [] else files.current) = .ok location := by
  simpa [resolve, Path.isAbsolute] using files.resolve_of_locate h

theorem follow_of_locate {path : String} {location : Location}
    (h : files.locate path = .ok location) : files.follow files.current path = .ok location :=
  foldlM_step_filter (locate_eq_ok h)

theorem names_ne_nil_of_locate {path : String} {location : Location}
    (h : files.locate path = .ok location) (hfile : files.IsFile location) :
    Path.names path.toList ≠ [] := by
  intro hnames
  obtain ⟨contents, hfile⟩ := hfile
  have hempty : ∀ c ∈ Text.split '/' path.toList, Path.isEmptyComponent c = true := by
    simpa [Path.names] using hnames
  obtain ⟨entries, hdirectory⟩ :=
    directory_of_foldlM_step hempty (Text.split_ne_nil '/' path.toList) (locate_eq_ok h)
  cases hfile.symm.trans hdirectory

theorem follow_parent? {start location : Location} {path directory : String}
    (hparent : Path.parent? path = some directory) (hnames : Path.names path.toList ≠ [])
    (hfile : files.IsFile location) (h : files.follow start path = .ok location) :
    files.follow start directory = .ok location.dropLast := by
  obtain ⟨last, hlast, habsolute⟩ := Path.names_of_parent? hparent hnames
  rw [follow, Path.components_eq_map_names, hlast, List.map_append, List.foldlM_append,
    bind_eq_ok_iff, ← habsolute] at h
  obtain ⟨above, habove, hstep⟩ := h
  rw [List.map_singleton, List.foldlM_cons, bind_eq_ok_iff] at hstep
  obtain ⟨next, hnext, hnil⟩ := hstep
  cases hnil
  rw [hfile.dropLast_of_step hnext]
  exact habove

theorem follow_join {start above : Location} {directory path : String}
    (h : files.follow start directory = .ok above) :
    files.follow start (Path.join directory path) = files.follow above path := by
  cases hpath : Path.isAbsolute path with
  | true => simp [Path.join, follow, hpath]
  | false =>
    have hcomponents : Path.components (Path.join directory path) =
        Path.components directory ++ Path.components path := by
      simp only [Path.components_eq_map_names, Path.names_join directory hpath, List.map_append]
    rw [follow, Path.isAbsolute_join directory hpath, hcomponents, List.foldlM_append]
    change (files.follow start directory >>= _) = _
    rw [h, follow, hpath]
    rfl

end Files

end TypeAtlas
