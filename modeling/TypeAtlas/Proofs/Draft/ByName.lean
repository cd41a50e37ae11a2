import TypeAtlas.Proofs.Chain
import TypeAtlas.Proofs.Draft.Finish
import TypeAtlas.Proofs.Heritage.FirstFailure

/-! Inheritance told by names alone. In a draft that declares no name both as a class and as an
interface, a declaration inherits what the declarations of its target names inherit, and then the
exported members of these names. -/

namespace TypeAtlas

namespace Declaration

section Definitions

variable (calls : List Declaration)

def declarationsOf (name : String) : List Declaration :=
  calls.filter (·.name = name)

/-- No name is declared both as a class and as an interface. -/
def Unmixed : Prop :=
  ∀ c ∈ calls, ∀ c' ∈ calls, c.name = c'.name → c.isClass = c'.isClass

instance : Decidable (Unmixed calls) :=
  inferInstanceAs (Decidable (∀ c ∈ calls, ∀ c' ∈ calls, c.name = c'.name → c.isClass = c'.isClass))

/-- A name stands for its first class, or for all its interfaces. -/
def standsFor (name : String) : List Declaration :=
  match declarationsOf calls name with
  | [] => []
  | c :: rest => if c.isClass then [c] else c :: rest

/-- The members of all declarations of a name that export theirs. -/
def own (name : String) : List String :=
  (declarationsOf calls name).flatMap fun c => if c.spec.exportContext then c.spec.members else []

/-- One step by name, from a declaration to one that a target of it stands for. -/
def Leads (c c' : Declaration) : Prop :=
  ∃ name ∈ c.targets, c' ∈ standsFor calls name

/-- All names that can be reached are declared, and no way along them is too long. -/
structure Resolvable (c : Declaration) : Prop where
  declared : ∀ c', Relation.ReflTransGen (Leads calls) c c' →
    ∀ name ∈ c'.targets, declarationsOf calls name ≠ []
  shallow : ∀ last, ¬ Chain (Leads calls) (maxHeritageDepth + 1) c last

def inheritsWithin : Nat → Declaration → List String
  | 0, _ => []
  | budget + 1, c => c.targets.flatMap fun name =>
    (standsFor calls name).flatMap (inheritsWithin budget) ++ own calls name

def inherits (c : Declaration) : List String :=
  inheritsWithin calls (maxHeritageDepth + 1) c

def ResolvableWithin : Nat → Declaration → Prop
  | 0, _ => False
  | budget + 1, c => ∀ name ∈ c.targets, declarationsOf calls name ≠ [] ∧
    ∀ c' ∈ standsFor calls name, ResolvableWithin budget c'

end Definitions

variable {calls : List Declaration}

theorem resolvableWithin_iff {budget : Nat} {c : Declaration} :
    ResolvableWithin calls budget c ↔
      (∀ c', Relation.ReflTransGen (Leads calls) c c' →
        ∀ name ∈ c'.targets, declarationsOf calls name ≠ []) ∧
      ∀ last, ¬ Chain (Leads calls) budget c last := by
  induction budget generalizing c with
  | zero =>
    simp only [ResolvableWithin, false_iff, not_and, not_forall, not_not]
    exact fun _ => ⟨c, .nil⟩
  | succ budget ih =>
    constructor
    · intro h
      refine ⟨fun c' hreach name hname => ?_, fun last hchain => ?_⟩
      · rcases hreach.cases_head with rfl | ⟨b, ⟨target, htarget, hb⟩, hrest⟩
        · exact (h name hname).1
        · exact (ih.mp ((h target htarget).2 b hb)).1 c' hrest name hname
      · cases hchain with
        | cons hfirst hrest =>
          obtain ⟨target, htarget, hb⟩ := hfirst
          exact (ih.mp ((h target htarget).2 _ hb)).2 last hrest
    · rintro ⟨hdeclared, hshallow⟩ name hname
      refine ⟨hdeclared c .refl name hname, fun c' hc' => ih.mpr ?_⟩
      have hstep : Leads calls c c' := ⟨name, hname, hc'⟩
      exact ⟨fun e he => hdeclared e (.head hstep he),
        fun last hchain => hshallow last (.cons hstep hchain)⟩

theorem resolvable_iff {c : Declaration} :
    Resolvable calls c ↔ ResolvableWithin calls (maxHeritageDepth + 1) c :=
  Iff.trans ⟨fun h => ⟨h.declared, h.shallow⟩, fun h => ⟨h.1, h.2⟩⟩ resolvableWithin_iff.symm

theorem inheritsWithin_succ_of_shallow {budget : Nat} {c : Declaration}
    (h : ∀ last, ¬ Chain (Leads calls) budget c last) :
    inheritsWithin calls (budget + 1) c = inheritsWithin calls budget c := by
  induction budget generalizing c with
  | zero => exact absurd .nil (h c)
  | succ budget ih =>
    rw [inheritsWithin, inheritsWithin]
    apply List.flatMap_congr
    intro name hname
    have hbelow : ∀ c' ∈ standsFor calls name,
        inheritsWithin calls (budget + 1) c' = inheritsWithin calls budget c' :=
      fun c' hc' => ih fun last hchain => h last (.cons ⟨name, hname, hc'⟩ hchain)
    rw [List.flatMap_congr hbelow]

theorem Resolvable.step {c c' : Declaration} (h : Resolvable calls c) (hstep : Leads calls c c') :
    Resolvable calls c' := by
  refine ⟨fun e he => h.declared e (.head hstep he), fun last hchain => ?_⟩
  obtain ⟨e, he⟩ := (Chain.cons hstep hchain).shorten
  exact h.shallow e he

theorem Resolvable.of_reach {c c' : Declaration} (h : Resolvable calls c)
    (hreach : Relation.ReflTransGen (Leads calls) c c') : Resolvable calls c' := by
  induction hreach with
  | refl => exact h
  | tail _ hstep ih => exact ih.step hstep

theorem Resolvable.inherits_eq {c : Declaration} (h : Resolvable calls c) :
    inherits calls c = c.targets.flatMap fun name =>
      (standsFor calls name).flatMap (inherits calls) ++ own calls name := by
  rw [inherits, inheritsWithin]
  apply List.flatMap_congr
  intro name hname
  have hbelow : ∀ c' ∈ standsFor calls name,
      inheritsWithin calls maxHeritageDepth c' = inherits calls c' := by
    intro c' hc'
    exact (inheritsWithin_succ_of_shallow fun last hchain =>
      h.shallow last (.cons ⟨name, hname, hc'⟩ hchain)).symm
  rw [List.flatMap_congr hbelow]

end Declaration

namespace Made

def standing (made : List Made) (name : String) : List Made :=
  match named made name with
  | [] => []
  | z :: rest => if z.declaration.isClass then [z] else z :: rest

theorem map_named (made : List Made) (name : String) :
    (named made name).map declaration =
      Declaration.declarationsOf (made.map declaration) name := by
  rw [Declaration.declarationsOf, List.filter_map]
  rfl

theorem map_standing (made : List Made) (name : String) :
    (standing made name).map declaration = Declaration.standsFor (made.map declaration) name := by
  rw [Declaration.standsFor, ← map_named, standing]
  cases named made name with
  | nil => rfl
  | cons z rest => cases hkind : z.declaration.isClass <;> simp [hkind]

theorem mem_of_mem_standing {made : List Made} {name : String} {x : Made}
    (h : x ∈ standing made name) : x ∈ made := by
  have hnamed : x ∈ named made name := by
    rw [standing] at h
    cases hl : named made name with
    | nil => simp [hl] at h
    | cons z rest =>
      cases hkind : z.declaration.isClass
      · simpa [hl, hkind] using h
      · have hx : x = z := by simpa [hl, hkind] using h
        exact hx ▸ List.mem_cons_self
  exact (mem_named_iff.mp hnamed).1

end Made

theorem Bound.symbol_eq_iff {b : Bindings} {made : List Made} (h : Bound b made)
    (hunmixed : Declaration.Unmixed (made.map Made.declaration)) {x z : Made} (hx : x ∈ made)
    (hz : z ∈ made) : x.symbol = z.symbol ↔ x.declaration.name = z.declaration.name := by
  refine ⟨fun hsymbol => (h.same_of_symbol hx hz hsymbol).1, fun hname => ?_⟩
  have hx' := Made.mem_named_iff.mpr ⟨hx, hname⟩
  have hz' := Made.mem_named_iff.mpr ⟨hz, rfl⟩
  obtain ⟨first, hfirst⟩ :=
    Option.isSome_iff_exists.mp (List.isSome_head?.mpr (List.ne_nil_of_mem hx'))
  obtain ⟨early, late, hsplit, hearly, -, hchange⟩ := h.divided z.declaration.name first hfirst
  have hsame : ∀ w ∈ Made.named made z.declaration.name,
      w.declaration.isClass = first.declaration.isClass := by
    intro w hw
    obtain ⟨hw, hwname⟩ := Made.mem_named_iff.mp hw
    obtain ⟨hmem, hfname⟩ := Made.mem_named_iff.mp (List.mem_of_head? hfirst)
    exact hunmixed _ (List.mem_map_of_mem hw) _ (List.mem_map_of_mem hmem)
      (hwname.trans hfname.symm)
  have hlate : late = [] := by
    cases late with
    | nil => rfl
    | cons w rest =>
      exact absurd (hsame w (by simp [hsplit])) (hchange w rfl)
  rw [hsplit, hlate, List.append_nil] at hx' hz'
  rw [(hearly x hx').2, (hearly z hz').2]

theorem Bound.nodesOf_eq {b : Bindings} {made : List Made} (h : Bound b made)
    (hunmixed : Declaration.Unmixed (made.map Made.declaration)) {z : Made} (hz : z ∈ made) :
    Made.nodesOf made z.symbol = (Made.named made z.declaration.name).map Made.node := by
  rw [Made.nodesOf, Made.named]
  congr 1
  apply List.filter_congr
  intro x hx
  rw [decide_eq_decide]
  exact h.symbol_eq_iff hunmixed hx hz

namespace Program

theorem symbolNames_append (p : Program) (l l' : List SymbolRef) :
    p.symbolNames (l ++ l') = p.symbolNames l ++ p.symbolNames l' := by
  simp [symbolNames]

theorem symbolNames_flatMap {α : Type} (p : Program) (l : List α) (f : α → List SymbolRef) :
    p.symbolNames (l.flatMap f) = l.flatMap fun x => p.symbolNames (f x) := by
  simp [symbolNames, List.filterMap_flatMap, List.map_flatMap]

end Program

namespace Draft

namespace Reflects

variable {d : Draft} {made : List Made}

theorem bases_symbolOf (h : Reflects d made)
    (hunmixed : Declaration.Unmixed (made.map Made.declaration)) {name : String} {z : Made}
    {rest : List Made} (hnamed : Made.named made name = z :: rest) :
    (Made.symbolOf made z).bases = (Made.standing made name).map Made.node := by
  obtain ⟨hz, hname⟩ := Made.mem_named_iff.mp (hnamed ▸ List.mem_cons_self)
  have hnodes := h.bound.nodesOf_eq hunmixed hz
  rw [hname, hnamed] at hnodes
  obtain ⟨n, hn⟩ := Option.isSome_iff_exists.mp (h.isSome_node hz)
  rw [Symbol.bases, Made.symbolOf, Made.standing, hnamed, hnodes]
  cases hkind : z.declaration.isClass <;> simp [hkind, hn]

theorem exists_names (h : Reflects d made) {r : PendingReference} (hr : r ∈ d.pending) {z : Made}
    {rest : List Made} (hnamed : Made.named made r.target = z :: rest)
    (hsize : d.arena.nodes.size < 4294967295) :
    ∃ id, d.finish.Names r.reference id (Made.symbolOf made z) ∧
      d.finish.types.properties id =
        (Made.named made r.target).flatMap Made.memberSymbols := by
  obtain ⟨id, hid, hentry⟩ := h.exists_entry hr (typeOf_cons hnamed) hsize
  have hz := (Made.mem_named_iff.mp (hnamed ▸ List.mem_cons_self)).1
  refine ⟨id, ⟨hid, z.symbol, ?_, h.bound.symbols z hz⟩, ?_⟩
  · rw [TypeTable.declaringSymbol?, hentry]
    rfl
  · rw [TypeTable.properties, hentry]
    rfl

theorem bases_reference (h : Reflects d made)
    (hunmixed : Declaration.Unmixed (made.map Made.declaration)) {r : PendingReference}
    (hr : r ∈ d.pending) (hsize : d.arena.nodes.size < 4294967295) :
    d.finish.bases r.reference = (Made.standing made r.target).map Made.node := by
  cases hnamed : Made.named made r.target with
  | nil =>
    have hnone := h.typeAt?_eq_none hr hnamed
    rw [Made.standing, hnamed]
    simp [Program.bases, hnone]
  | cons z rest =>
    obtain ⟨id, hnames, -⟩ := h.exists_names hr hnamed hsize
    rw [hnames.bases_eq, h.bases_symbolOf hunmixed hnamed]

theorem settled_iff (h : Reflects d made) {r : PendingReference} (hr : r ∈ d.pending)
    (hsize : d.arena.nodes.size < 4294967295) :
    d.finish.Settled r.reference ↔ Made.named made r.target ≠ [] := by
  constructor
  · rintro ⟨type, symbol, ⟨htype, -⟩, -⟩ hnone
    rw [h.typeAt?_eq_none hr hnone] at htype
    cases htype
  · intro hsome
    obtain ⟨z, rest, hnamed⟩ := List.exists_cons_of_ne_nil hsome
    obtain ⟨id, hnames, hproperties⟩ := h.exists_names hr hnamed hsize
    refine ⟨id, _, hnames, fun s hs => ?_⟩
    rw [hproperties] at hs
    obtain ⟨x, hx, hs⟩ := List.mem_flatMap.mp hs
    obtain ⟨m, -, name, hsymbol, -⟩ := h.exists_member (Made.mem_named_iff.mp hx).1 hs
    exact Option.isSome_of_eq_some hsymbol

theorem exportedMembers_reference (h : Reflects d made) {r : PendingReference}
    (hr : r ∈ d.pending) (hsize : d.arena.nodes.size < 4294967295) :
    d.finish.exportedMembers r.reference =
      ((Made.named made r.target).flatMap Made.memberSymbols).filter d.finish.isExportedMember := by
  cases hnamed : Made.named made r.target with
  | nil =>
    rw [Program.exportedMembers, h.typeAt?_eq_none hr hnamed]
    rfl
  | cons z rest =>
    obtain ⟨id, hnames, hproperties⟩ := h.exists_names hr hnamed hsize
    rw [hnames.exportedMembers_eq, hproperties, hnamed]

theorem symbolNames_exported (h : Reflects d made) {x : Made} (hx : x ∈ made)
    (hsize : d.arena.nodes.size < 4294967295) :
    d.finish.symbolNames (x.memberSymbols.filter d.finish.isExportedMember) =
      if x.declaration.spec.exportContext then x.declaration.spec.members else [] := by
  have hall := fun s (hs : s ∈ x.memberSymbols) => h.isExportedMember_finish hx hs hsize
  cases hexport : x.declaration.spec.exportContext with
  | true =>
    rw [List.filter_eq_self.mpr fun s hs => (hall s hs).trans hexport,
      h.symbolNames_memberSymbols hx]
    rfl
  | false =>
    rw [List.filter_eq_nil_iff.mpr fun s hs => by simp [hall s hs, hexport]]
    rfl

theorem symbolNames_exportedMembers (h : Reflects d made) {r : PendingReference}
    (hr : r ∈ d.pending) (hsize : d.arena.nodes.size < 4294967295) :
    d.finish.symbolNames (d.finish.exportedMembers r.reference) =
      Declaration.own (made.map Made.declaration) r.target := by
  rw [Declaration.own, ← Made.map_named, List.flatMap_map, h.exportedMembers_reference hr hsize,
    List.filter_flatMap, Program.symbolNames_flatMap]
  apply List.flatMap_congr
  intro x hx
  exact h.symbolNames_exported (Made.mem_named_iff.mp hx).1 hsize

theorem mem_pending (h : Reflects d made) {x : Made} (hx : x ∈ made) {r : PendingReference}
    (hr : r ∈ x.pending) : r ∈ d.pending := by
  rw [h.pending]
  exact List.mem_flatMap.mpr ⟨x, hx, hr⟩

theorem passable_iff (h : Reflects d made)
    (hunmixed : Declaration.Unmixed (made.map Made.declaration))
    (hsize : d.arena.nodes.size < 4294967295) {budget : Nat} {x : Made} (hx : x ∈ made) :
    d.finish.Passable budget x.node ↔
      Declaration.ResolvableWithin (made.map Made.declaration) budget x.declaration := by
  induction budget generalizing x with
  | zero => exact Iff.rfl
  | succ budget ih =>
    rw [Program.Passable, Declaration.ResolvableWithin, h.references_finish hx,
      ← h.targets x hx, List.forall_mem_map, List.forall_mem_map]
    refine forall₂_congr fun r hr => ?_
    have hr := h.mem_pending hx hr
    rw [h.settled_iff hr hsize, h.bases_reference hunmixed hr hsize, ← Made.map_standing,
      ← Made.map_named, List.forall_mem_map, List.forall_mem_map]
    refine and_congr (by simp) (forall₂_congr fun z hz => ?_)
    exact ih (Made.mem_of_mem_standing hz)

theorem symbolNames_membersAlong (h : Reflects d made)
    (hunmixed : Declaration.Unmixed (made.map Made.declaration))
    (hsize : d.arena.nodes.size < 4294967295) (budget : Nat) {x : Made} (hx : x ∈ made) :
    d.finish.symbolNames (d.finish.membersAlong (d.finish.paths budget x.node)) =
      Declaration.inheritsWithin (made.map Made.declaration) budget x.declaration := by
  induction budget generalizing x with
  | zero => rfl
  | succ budget ih =>
    rw [Program.membersAlong_paths_succ, h.references_finish hx, List.flatMap_map,
      Program.symbolNames_flatMap, Declaration.inheritsWithin, ← h.targets x hx, List.flatMap_map]
    apply List.flatMap_congr
    intro r hr
    have hr := h.mem_pending hx hr
    rw [Program.symbolNames_append, h.symbolNames_exportedMembers hr hsize,
      h.bases_reference hunmixed hr hsize, List.flatMap_map, Program.symbolNames_flatMap,
      ← Made.map_standing, List.flatMap_map]
    congr 1
    apply List.flatMap_congr
    intro z hz
    exact ih (Made.mem_of_mem_standing hz)

theorem error_kind (h : Reflects d made)
    (hunmixed : Declaration.Unmixed (made.map Made.declaration))
    (hsize : d.arena.nodes.size < 4294967295) {budget : Nat} {x : Made} (hx : x ∈ made)
    {e : HeritageError} (he : d.finish.inheritedWithin budget x.node = .error e) :
    (∃ r, e = .unresolvedType r) ∨ ∃ last, e = .tooDeep maxHeritageDepth last := by
  induction budget generalizing x with
  | zero => exact .inr ⟨x.node, (Except.error.inj he).symm⟩
  | succ budget ih =>
    rw [Program.inheritedWithin_succ, bind_eq_error_iff] at he
    obtain ⟨reference, hreference, he⟩ : ∃ reference ∈ d.finish.heritageReferences x.node,
        d.finish.passedOn budget reference = .error e := by
      rcases he with he | ⟨members, -, he⟩
      · exact exists_error_of_mapM he
      · cases he
    rw [h.heritageReferences_finish hx] at hreference
    obtain ⟨r, hr, rfl⟩ := List.mem_map.mp hreference
    have hr := h.mem_pending hx hr
    by_cases hnamed : Made.named made r.target = []
    · have hfail : d.finish.declaredType r.reference = .error (.unresolvedType r.reference) := by
        simp [Program.declaredType, Program.typeOf, h.typeAt?_eq_none hr hnamed, bind, Except.bind]
      rw [Program.passedOn, hfail] at he
      exact .inl ⟨r.reference, (Except.error.inj he).symm⟩
    · obtain ⟨type, symbol, hnames, hheld⟩ := (h.settled_iff hr hsize).mpr hnamed
      have hbases := hnames.bases_eq.symm.trans (h.bases_reference hunmixed hr hsize)
      rw [Program.passedOn, Program.declaredType_eq_ok_iff.mpr hnames] at he
      change (symbol.bases.mapM (d.finish.inheritedWithin budget) >>= _) = _ at he
      rw [bind_eq_error_iff] at he
      rcases he with he | ⟨inherited, -, he⟩
      · rw [hbases] at he
        obtain ⟨base, hbase, he⟩ := exists_error_of_mapM he
        obtain ⟨z, hz, rfl⟩ := List.mem_map.mp hbase
        exact ih (Made.mem_of_mem_standing hz) he
      · -- all members are known, so no property of the type can fail
        rcases bind_eq_error_iff.mp he with he | ⟨own, -, he⟩
        · obtain ⟨s, hs, he⟩ := exists_error_of_mapM he
          rw [Program.exportedProperty_eq_ok_iff.mpr ⟨hheld s hs, rfl⟩] at he
          cases he
        · cases he

end Reflects

/-- What a declaration inherits, told by names: its members come from the names in its heritage
clauses, and the query fails where a name is not declared or a way along them is too long. -/
structure InheritsByName (calls : List Declaration) (p : Program) (c : Declaration)
    (n : NodeRef) : Prop where
  found : Declaration.Resolvable calls c →
    (∃ members, p.inherited n = .ok members ∧
      p.symbolNames members = Declaration.inherits calls c) ∧
    ∀ c', Relation.ReflTransGen (Declaration.Leads calls) c c' →
      Declaration.inherits calls c' = c'.targets.flatMap fun name =>
        (Declaration.standsFor calls name).flatMap (Declaration.inherits calls) ++
          Declaration.own calls name
  failed : ¬ Declaration.Resolvable calls c → ∃ e, p.inherited n = .error e ∧
    ((∃ r, e = .unresolvedType r) ∨ ∃ last, e = .tooDeep maxHeritageDepth last)

theorem inherited_by_name (fileName : String) (calls : List Declaration)
    (hunmixed : Declaration.Unmixed calls)
    (hnodes : (build fileName calls).1.arena.nodes.size < 4294967295)
    (hsymbols : (build fileName calls).1.bindings.symbols.size < 4294967295) :
    List.Forall₂ (InheritsByName calls (build fileName calls).1) calls
      (build fileName calls).2 := by
  obtain ⟨d, made, h, hsize, hp, rfl, hmade⟩ := exists_reflects fileName calls hnodes hsymbols
  rw [hp, ← hmade, List.forall₂_map_left_iff, List.forall₂_map_right_iff, List.forall₂_same]
  intro x hx
  have hok := @Program.inheritedWithin_eq_ok_iff d.finish (maxHeritageDepth + 1) x.node
  have hpassable : d.finish.Passable (maxHeritageDepth + 1) x.node ↔
      Declaration.Resolvable (made.map Made.declaration) x.declaration :=
    (h.passable_iff hunmixed hsize hx).trans Declaration.resolvable_iff.symm
  refine ⟨fun hresolvable => ?_, fun hnot => ?_⟩
  · refine ⟨⟨_, hok.mpr ⟨hpassable.mpr hresolvable, rfl⟩, ?_⟩, fun c' hreach => ?_⟩
    · exact h.symbolNames_membersAlong hunmixed hsize _ hx
    · exact (hresolvable.of_reach hreach).inherits_eq
  · cases he : d.finish.inherited x.node with
    | ok members => exact absurd (hpassable.mp (hok.mp he).1) hnot
    | error e => exact ⟨e, rfl, h.error_kind hunmixed hsize hx he⟩

/-- A class that refers to an interface before its two declarations, of which one exports. -/
def forwardUse : List Declaration :=
  [⟨true, { name := "List", bases := ["Shape"] }⟩,
    ⟨false, { name := "Shape", members := ["area"], exportContext := true }⟩,
    ⟨false, { name := "Shape", members := ["hidden"] }⟩]

theorem forwardUse_inherited_by_name : Declaration.Unmixed forwardUse ∧
    List.Forall₂ (InheritsByName forwardUse (build "a.ts" forwardUse).1) forwardUse
      (build "a.ts" forwardUse).2 :=
  ⟨by decide, inherited_by_name "a.ts" forwardUse (by decide) (by decide) (by decide)⟩

end Draft

end TypeAtlas
