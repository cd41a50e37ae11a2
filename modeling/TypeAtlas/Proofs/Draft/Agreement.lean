import TypeAtlas.Proofs.Draft.ByName

/-! When the types of a draft agree with its symbols. The types go by name alone, the symbols also
by class and interface, so the two part where a name changes between classes and interfaces: what
is declared after the change has another symbol than the type of its name. -/

namespace TypeAtlas

namespace Arena

def memberNodes (a : Arena) (n : NodeRef) : NodeList :=
  ((a.content? n).map Content.memberNodes).getD []

end Arena

namespace Program

section Definitions

variable (p : Program)

/-- A reference has a type, of the symbol that its name stands for in the file. -/
def ReferenceAgrees (name : String) (reference : NodeRef) : Prop :=
  ∃ type s, p.types.typeAt? reference = some type ∧ p.types.declaringSymbol? type = some s ∧
    p.bindings.fileLocals.get? name = some s

/-- A property of a type is a member of the symbol of that type. -/
def PropertyAgrees (entry : TypeEntry) (property : SymbolRef) : Prop :=
  ∃ x, p.bindings.symbol? property = some x ∧ x.flags = SymbolFlags.property ∧
    entry.symbol = some x.parent

/-- A member is a property of the type of its parent. -/
def MemberAgrees (name : String) (member : NodeRef) : Prop :=
  ∃ s x, p.bindings.nodeSymbol? member = some s ∧ p.bindings.symbol? s = some x ∧ x.name = name ∧
    ∃ entry ∈ p.types.types, entry.symbol = some x.parent ∧ s ∈ entry.properties

/-- The types agree with the symbols, for declarations with their nodes. -/
structure Agrees (calls : List Declaration) (nodes : NodeList) : Prop where
  references : List.Forall₂ (fun c n => List.Forall₂ (fun name r =>
      Declaration.declarationsOf calls name ≠ [] → p.ReferenceAgrees name r)
    c.targets (p.heritageReferences n)) calls nodes
  properties : ∀ entry ∈ p.types.types, ∀ s ∈ entry.properties, p.PropertyAgrees entry s
  members : List.Forall₂ (fun c n =>
    List.Forall₂ p.MemberAgrees c.spec.members (p.arena.memberNodes n)) calls nodes

end Definitions

end Program

namespace Declaration

variable (calls : List Declaration)

/-- The declarations of a name from the first change between classes and interfaces on. -/
def late (name : String) : List Declaration :=
  match declarationsOf calls name with
  | [] => []
  | c :: rest => rest.dropWhile fun c' => c'.isClass = c.isClass

/-- Nothing depends on a name that changes: no reference names it, and it gets no members after the
change. -/
def InStep : Prop :=
  ∀ name, ∀ c ∈ late calls name, c.spec.members = [] ∧ ∀ c' ∈ calls, name ∉ c'.targets

end Declaration

theorem Made.symbol_getLast?_iff {first : Made} {early late : List Made}
    (hearly : ∀ y ∈ early, y.symbol = first.symbol) (hlate : ∀ y ∈ late, y.symbol ≠ first.symbol) :
    (first :: (early ++ late)).getLast?.map Made.symbol = some first.symbol ↔ late = [] := by
  rcases List.eq_nil_or_concat late with rfl | ⟨late, z, rfl⟩
  · have hlast := List.getLast?_eq_some_getLast (List.cons_ne_nil first early)
    have hsame : ((first :: early).getLast (List.cons_ne_nil first early)).symbol =
        first.symbol := by
      rcases List.mem_cons.mp (List.getLast_mem (List.cons_ne_nil first early)) with heq | hmem
      · rw [heq]
      · exact hearly _ hmem
    rw [List.append_nil, hlast, Option.map_some, hsame]
    simp
  · have hlast : (first :: (early ++ (late ++ [z]))).getLast? = some z := by
      rw [← List.append_assoc, ← List.cons_append, List.getLast?_concat]
    have hz := hlate z (by simp)
    rw [List.concat_eq_append, hlast]
    simp [hz]

namespace Draft

namespace Reflects

variable {d : Draft} {made : List Made}

theorem memberNodes_finish (h : Reflects d made) {x : Made} (hx : x ∈ made) :
    d.finish.arena.memberNodes x.node = x.members := by
  obtain ⟨content, hcontent, hmembers, -⟩ := (h.carries x hx).content
  rw [Arena.memberNodes, (grown_finish h.balanced).content hcontent]
  exact hmembers

theorem exists_parts (h : Reflects d made) {name : String} {first : Made} {rest : List Made}
    (hnamed : Made.named made name = first :: rest) :
    ∃ early late, rest = early ++ late ∧ (∀ y ∈ early, y.symbol = first.symbol) ∧
      (∀ y ∈ late, y.symbol ≠ first.symbol) ∧
      late.map Made.declaration = Declaration.late (made.map Made.declaration) name := by
  have hfirst : (Made.named made name).head? = some first := by
    rw [hnamed]
    rfl
  obtain ⟨early, late, hsplit, hearly, hlate, hchange⟩ := h.bound.divided name first hfirst
  cases early with
  | nil =>
    rw [hnamed, List.nil_append] at hsplit
    exact absurd rfl (hchange first (by rw [← hsplit]; rfl))
  | cons y early =>
    rw [hnamed, List.cons_append, List.cons.injEq] at hsplit
    obtain ⟨rfl, rfl⟩ := hsplit
    have hearly := fun y hy => hearly y (List.mem_cons_of_mem _ hy)
    refine ⟨early, late, rfl, fun y hy => (hearly y hy).2, hlate, ?_⟩
    have hpos : ∀ y ∈ early, decide (y.declaration.isClass = first.declaration.isClass) = true :=
      fun y hy => decide_eq_true (hearly y hy).1
    rw [Declaration.late, ← Made.map_named, hnamed]
    change _ = List.dropWhile _ (List.map Made.declaration (early ++ late))
    rw [List.dropWhile_map]
    congr 1
    refine Eq.trans ?_ (List.dropWhile_append_of_pos hpos).symm
    cases late with
    | nil => rfl
    | cons y late =>
      exact (List.dropWhile_cons_of_neg (by simpa using hchange y rfl)).symm

theorem mem_late_of_symbol_ne (h : Reflects d made) {name : String} {first : Made}
    {rest : List Made} (hnamed : Made.named made name = first :: rest) {y : Made}
    (hy : y ∈ Made.named made name) (hne : y.symbol ≠ first.symbol) :
    y.declaration ∈ Declaration.late (made.map Made.declaration) name := by
  obtain ⟨early, late, rfl, hearly, -, hlate⟩ := h.exists_parts hnamed
  rw [hnamed] at hy
  rcases List.mem_cons.mp hy with rfl | hy
  · exact absurd rfl hne
  · rcases List.mem_append.mp hy with hy | hy
    · exact absurd (hearly y hy) hne
    · exact hlate ▸ List.mem_map_of_mem hy

theorem referenceAgrees_iff (h : Reflects d made) {r : PendingReference} (hr : r ∈ d.pending)
    (hsize : d.arena.nodes.size < 4294967295) {first : Made} {rest : List Made}
    (hnamed : Made.named made r.target = first :: rest) :
    d.finish.ReferenceAgrees r.target r.reference ↔
      Declaration.late (made.map Made.declaration) r.target = [] := by
  obtain ⟨early, late, rfl, hearly, hlate, hmap⟩ := h.exists_parts hnamed
  obtain ⟨id, hid, hentry⟩ := h.exists_entry hr (typeOf_cons hnamed) hsize
  have hsymbol : d.finish.types.declaringSymbol? id = some first.symbol := by
    rw [TypeTable.declaringSymbol?, hentry]
    rfl
  have hlocal := h.bound.locals r.target
  rw [hnamed] at hlocal
  have hagrees : d.finish.ReferenceAgrees r.target r.reference ↔
      ((first :: (early ++ late)).getLast?.map Made.symbol) = some first.symbol := by
    rw [← hlocal]
    constructor
    · rintro ⟨type, s, htype, hs, hfile⟩
      obtain rfl := Option.some.inj (hid.symm.trans htype)
      obtain rfl := Option.some.inj (hsymbol.symm.trans hs)
      exact hfile
    · exact fun hfile => ⟨id, first.symbol, hid, hsymbol, hfile⟩
  rw [hagrees, ← hmap, List.map_eq_nil_iff]
  exact Made.symbol_getLast?_iff hearly hlate

theorem propertyAgrees_iff (h : Reflects d made) {y : Made} (hy : y ∈ made) {s : SymbolRef}
    (hs : s ∈ y.memberSymbols) {type : DeclaredType} :
    d.finish.PropertyAgrees (entryOf type) s ↔ y.symbol = type.symbol := by
  obtain ⟨m, -, name, hsymbol, -⟩ := h.exists_member hy hs
  constructor
  · rintro ⟨x, hx, -, hparent⟩
    obtain rfl := Option.some.inj (hsymbol.symm.trans hx)
    exact (Option.some.inj hparent).symm
  · exact fun heq => ⟨_, hsymbol, rfl, congrArg some heq.symm⟩

theorem forall₂_memberAgrees (h : Reflects d made) {x : Made} (hx : x ∈ made) {type : DeclaredType}
    (htype : typeOf (Made.named made x.declaration.name) = some type)
    (hsymbol : x.declaration.spec.members = [] ∨ x.symbol = type.symbol) :
    List.Forall₂ d.finish.MemberAgrees x.declaration.spec.members x.members := by
  have hlength := h.length x hx
  refine List.forall₂_iff_zip.mpr ⟨hlength.symm, fun {name m} hmem => ?_⟩
  have hpair : (m, name) ∈ x.members.zip x.declaration.spec.members := by
    rw [← List.zip_swap]
    exact List.mem_map.mpr ⟨(name, m), hmem, rfl⟩
  obtain ⟨s, hs, hdata, hnode⟩ := exists_right_of_forall₂ (h.bound.members x hx) hpair
  have hsymbol : x.symbol = type.symbol :=
    hsymbol.resolve_left (List.ne_nil_of_mem (List.of_mem_zip hmem).1)
  refine ⟨s, _, hnode, hdata, rfl, entryOf type, h.mem_types_iff.mpr ⟨_, type, htype, rfl⟩,
    congrArg some hsymbol.symm, ?_⟩
  obtain ⟨first, -, rfl⟩ := Option.map_eq_some_iff.mp htype
  exact List.mem_flatMap.mpr ⟨x, Made.mem_named_iff.mpr ⟨hx, rfl⟩, hs⟩

theorem inStep_of_agrees (h : Reflects d made) (hsize : d.arena.nodes.size < 4294967295)
    (hagrees : d.finish.Agrees (made.map Made.declaration) (made.map Made.node)) :
    Declaration.InStep (made.map Made.declaration) := by
  obtain ⟨hreferences, hproperties, -⟩ := hagrees
  rw [List.forall₂_map_left_iff, List.forall₂_map_right_iff, List.forall₂_same] at hreferences
  intro name c hc
  cases hnamed : Made.named made name with
  | nil =>
    rw [Declaration.late, ← Made.map_named, hnamed] at hc
    cases hc
  | cons first rest =>
    obtain ⟨early, late, rfl, -, hlate, hmap⟩ := h.exists_parts hnamed
    refine ⟨?_, fun c' hc' hname => ?_⟩
    · rw [← hmap] at hc
      obtain ⟨y, hy, rfl⟩ := List.mem_map.mp hc
      have hmem : y ∈ Made.named made name := by simp [hnamed, hy]
      have hymade := (Made.mem_named_iff.mp hmem).1
      rw [← h.symbolNames_memberSymbols hymade]
      cases hmembers : y.memberSymbols with
      | nil => rfl
      | cons s rest =>
        have hs : s ∈ y.memberSymbols := hmembers ▸ List.mem_cons_self
        have hentry := h.mem_types_iff.mpr ⟨name, _, typeOf_cons hnamed, rfl⟩
        have hproperty := hproperties _ hentry s (List.mem_flatMap.mpr ⟨y, hnamed ▸ hmem, hs⟩)
        exact absurd ((h.propertyAgrees_iff hymade hs).mp hproperty) (hlate y hy)
    · obtain ⟨x, hx, rfl⟩ := List.mem_map.mp hc'
      have hall := hreferences x hx
      rw [h.heritageReferences_finish hx, ← h.targets x hx, List.forall₂_map_left_iff,
        List.forall₂_map_right_iff, List.forall₂_same] at hall
      rw [← h.targets x hx] at hname
      obtain ⟨r, hr, rfl⟩ := List.mem_map.mp hname
      have hreference := hall r hr (by simp [← Made.map_named, hnamed])
      rw [(h.referenceAgrees_iff (h.mem_pending hx hr) hsize hnamed).mp hreference] at hc
      cases hc

theorem agrees_of_inStep (h : Reflects d made) (hsize : d.arena.nodes.size < 4294967295)
    (hstep : Declaration.InStep (made.map Made.declaration)) :
    d.finish.Agrees (made.map Made.declaration) (made.map Made.node) := by
  have hsymbol : ∀ {name type x}, typeOf (Made.named made name) = some type →
      x ∈ Made.named made name → x.declaration.spec.members = [] ∨ x.symbol = type.symbol := by
    intro name type x htype hx
    obtain ⟨first, hfirst, rfl⟩ := Option.map_eq_some_iff.mp htype
    obtain ⟨rest, hnamed⟩ := List.head?_eq_some_iff.mp hfirst
    by_cases hne : x.symbol = first.symbol
    · exact .inr hne
    · exact .inl (hstep name _ (h.mem_late_of_symbol_ne hnamed hx hne)).1
  refine ⟨?_, ?_, ?_⟩
  · rw [List.forall₂_map_left_iff, List.forall₂_map_right_iff, List.forall₂_same]
    intro x hx
    rw [h.heritageReferences_finish hx, ← h.targets x hx, List.forall₂_map_left_iff,
      List.forall₂_map_right_iff, List.forall₂_same]
    intro r hr hdeclared
    rw [← Made.map_named] at hdeclared
    obtain ⟨first, rest, hnamed⟩ :=
      List.exists_cons_of_ne_nil (mt List.map_eq_nil_iff.mpr hdeclared)
    refine (h.referenceAgrees_iff (h.mem_pending hx hr) hsize hnamed).mpr ?_
    refine List.eq_nil_iff_forall_not_mem.mpr fun c hc => ?_
    apply (hstep r.target c hc).2 x.declaration (List.mem_map_of_mem hx)
    rw [← h.targets x hx]
    exact List.mem_map_of_mem hr
  · intro entry hentry s hs
    obtain ⟨name, type, htype, rfl⟩ := h.mem_types_iff.mp hentry
    obtain ⟨first, hfirst, rfl⟩ := Option.map_eq_some_iff.mp htype
    obtain ⟨x, hx, hs⟩ := List.mem_flatMap.mp hs
    have hxmade := (Made.mem_named_iff.mp hx).1
    refine (h.propertyAgrees_iff hxmade hs).mpr ((hsymbol htype hx).resolve_left fun hnone => ?_)
    have hlength := (h.bound.members x hxmade).length_eq
    rw [hnone, List.zip_nil_right] at hlength
    rw [List.eq_nil_of_length_eq_zero hlength.symm] at hs
    cases hs
  · rw [List.forall₂_map_left_iff, List.forall₂_map_right_iff, List.forall₂_same]
    intro x hx
    have hnamed : x ∈ Made.named made x.declaration.name := Made.mem_named_iff.mpr ⟨hx, rfl⟩
    obtain ⟨first, hfirst⟩ :=
      Option.isSome_iff_exists.mp (List.isSome_head?.mpr (List.ne_nil_of_mem hnamed))
    have htype : typeOf (Made.named made x.declaration.name) = some _ :=
      Option.map_eq_some_iff.mpr ⟨first, hfirst, rfl⟩
    rw [h.memberNodes_finish hx]
    exact h.forall₂_memberAgrees hx htype (hsymbol htype hnamed)

end Reflects

/-- The types agree with the symbols exactly when nothing depends on a name that changes between
classes and interfaces. -/
theorem agrees_iff_inStep (fileName : String) (calls : List Declaration)
    (hnodes : (build fileName calls).1.arena.nodes.size < 4294967295)
    (hsymbols : (build fileName calls).1.bindings.symbols.size < 4294967295) :
    (build fileName calls).1.Agrees calls (build fileName calls).2 ↔
      Declaration.InStep calls := by
  obtain ⟨d, made, h, hsize, hp, rfl, hmade⟩ := exists_reflects fileName calls hnodes hsymbols
  rw [hp, ← hmade]
  exact ⟨h.inStep_of_agrees hsize, h.agrees_of_inStep hsize⟩

/-- A class and an interface of one name, and a class that refers to that name. -/
def changedName : List Declaration :=
  [⟨true, { name := "A" }⟩, ⟨false, { name := "A" }⟩, ⟨true, { name := "B", bases := ["A"] }⟩]

theorem changedName_agrees_iff :
    (build "a.ts" changedName).1.Agrees changedName (build "a.ts" changedName).2 ↔
      Declaration.InStep changedName :=
  agrees_iff_inStep "a.ts" changedName (by decide) (by decide)

/-- The reference of `B` has the type of the class, and the file knows the interface by that
name. -/
theorem changedName_not_agrees :
    ¬ (build "a.ts" changedName).1.Agrees changedName (build "a.ts" changedName).2 := by
  rintro ⟨hreferences, -, -⟩
  have hlast := hreferences.get (i := 2) (by decide) (by decide)
  obtain ⟨type, s, htype, hs, hfile⟩ :=
    hlast.get (i := 0) (by decide) (by decide) (List.cons_ne_nil _ _)
  have hsymbol := congrArg (Option.bind · (build "a.ts" changedName).1.types.declaringSymbol?) htype
  have hsame := hsymbol.trans (hs.trans hfile.symm)
  exact absurd hsame (by decide)

end Draft

end TypeAtlas
