import TypeAtlas.Draft
import TypeAtlas.Proofs.Chain
import TypeAtlas.Proofs.Heritage.Walk

/-! Heritage paths and their order. What a declaration inherits is what its paths end at, and the
walk succeeds exactly when everything on these paths is known and no chain of declarations is too
long. -/

namespace TypeAtlas

def Place.Before (a b : Place) : Prop :=
  a.clause < b.clause ∨ a.clause = b.clause ∧ a.reference < b.reference

theorem Place.Before.asymm {a b : Place} (h : a.Before b) : ¬ b.Before a := by
  unfold Place.Before at *
  omega

/-- A way from a declaration to a type reference, along references to the declarations that they
lead to. `base` is the number of a declaration among those of its reference. -/
inductive HeritagePath where
  | last (place : Place)
  | via (place : Place) (base : Nat) (rest : HeritagePath)

namespace HeritagePath

def place : HeritagePath → Place
  | last place => place
  | via place _ _ => place

/-- Depth-first post-order: a path that ends at a reference comes after all paths that go on through
the declarations of that reference. -/
inductive Before : HeritagePath → HeritagePath → Prop
  | place {a b : HeritagePath} (h : a.place.Before b.place) : Before a b
  | through {place : Place} {base : Nat} {rest : HeritagePath} :
    Before (via place base rest) (last place)
  | base {place : Place} {i j : Nat} {a b : HeritagePath} (h : i < j) :
    Before (via place i a) (via place j b)
  | rest {place : Place} {base : Nat} {a b : HeritagePath} (h : Before a b) :
    Before (via place base a) (via place base b)

theorem Before.asymm {a b : HeritagePath} (h : Before a b) : ¬ Before b a := by
  induction h with
  | place h =>
    intro h'
    cases h' with
    | place h' => exact h.asymm h'
    | through => exact h.asymm h
    | base h' => exact h.asymm h
    | rest h' => exact h.asymm h
  | through =>
    intro h'
    cases h' with
    | place h' => exact h'.asymm h'
  | base h =>
    intro h'
    cases h' with
    | place h' => exact h'.asymm h'
    | base h' => omega
    | rest h' => omega
  | rest h ih =>
    intro h'
    cases h' with
    | place h' => exact h'.asymm h'
    | base h' => omega
    | rest h' => exact ih h'

end HeritagePath

namespace Program

section Definitions

variable (p : Program)

/-- A path leads from a declaration to a type reference. On the way each reference has a type whose
symbol leads on to a declaration. -/
inductive PathTo : NodeRef → HeritagePath → NodeRef → Prop
  | last {declaration reference : NodeRef} {place : Place}
    (at_place : p.referenceAt? declaration place = some reference) :
    PathTo declaration (.last place) reference
  | via {declaration reference base last : NodeRef} {place : Place} {type : TypeId}
    {symbol : Symbol} {i : Nat} {path : HeritagePath}
    (at_place : p.referenceAt? declaration place = some reference)
    (names : p.Names reference type symbol) (at_base : symbol.BaseAt i base)
    (rest : PathTo base path last) : PathTo declaration (.via place i path) last

def Settled (reference : NodeRef) : Prop :=
  ∃ type symbol, p.Names reference type symbol ∧
    ∀ s ∈ p.types.properties type, (p.bindings.symbol? s).isSome

structure Walkable (declaration : NodeRef) : Prop where
  settled : ∀ path reference, p.PathTo declaration path reference → p.Settled reference
  shallow : ∀ last, ¬ Chain p.Base (maxHeritageDepth + 1) declaration last

/-- All paths from a declaration, each with the reference at its end. -/
def PathsInOrder (declaration : NodeRef) (paths : List (HeritagePath × NodeRef)) : Prop :=
  paths.Pairwise (fun a b => a.1.Before b.1) ∧
    ∀ path reference, (path, reference) ∈ paths ↔ p.PathTo declaration path reference

def placedReferences (declaration : NodeRef) : List (Place × NodeRef) :=
  (p.clauses declaration).zipIdx.flatMap fun (clause, i) =>
    (p.clauseReferences clause).zipIdx.map fun (reference, j) => (⟨i, j⟩, reference)

/-- The paths that begin at one reference, from those that begin at each of its declarations. -/
def pathsAt (place : Place) (reference : NodeRef) (below : List (List (HeritagePath × NodeRef))) :
    List (HeritagePath × NodeRef) :=
  (below.zipIdx.flatMap fun (paths, i) =>
    paths.map fun (path, last) => (.via place i path, last)) ++ [(.last place, reference)]

def paths : Nat → NodeRef → List (HeritagePath × NodeRef)
  | 0, _ => []
  | budget + 1, declaration =>
    (p.placedReferences declaration).flatMap fun (place, reference) =>
      pathsAt place reference ((p.bases reference).map (paths budget))

def membersAlong (paths : List (HeritagePath × NodeRef)) : List SymbolRef :=
  paths.flatMap fun path => p.exportedMembers path.2

/-- The walk from a declaration meets nothing unknown and keeps to its budget. -/
def Passable : Nat → NodeRef → Prop
  | 0, _ => False
  | budget + 1, declaration =>
    ∀ r ∈ p.references declaration, p.Settled r ∧ ∀ e ∈ p.bases r, Passable budget e

end Definitions

variable {p : Program}

theorem mem_placedReferences_iff {d r : NodeRef} {place : Place} :
    (place, r) ∈ p.placedReferences d ↔ p.referenceAt? d place = some r := by
  simp only [placedReferences, referenceAt?, List.mem_flatMap, List.mem_map, Prod.exists,
    List.mem_zipIdx_iff_getElem?, Option.bind_eq_some_iff, Prod.mk.injEq]
  constructor
  · rintro ⟨clause, i, hc, r, j, hr, rfl, rfl⟩
    exact ⟨clause, hc, hr⟩
  · rintro ⟨clause, hc, hr⟩
    exact ⟨clause, place.clause, hc, r, place.reference, hr, rfl, rfl⟩

theorem map_snd_placedReferences (d : NodeRef) :
    (p.placedReferences d).map Prod.snd = p.references d := by
  simp only [placedReferences, references, List.map_flatMap, List.map_map]
  conv_rhs => rw [← List.zipIdx_map_fst 0 (p.clauses d), List.flatMap_map]
  apply List.flatMap_congr
  rintro ⟨clause, i⟩ -
  exact List.zipIdx_map_fst 0 (p.clauseReferences clause)

theorem mem_references_iff {d r : NodeRef} :
    r ∈ p.references d ↔ ∃ place, p.referenceAt? d place = some r := by
  simp [← map_snd_placedReferences, mem_placedReferences_iff]

theorem base_iff {d e : NodeRef} : p.Base d e ↔ ∃ r ∈ p.references d, e ∈ p.bases r := by
  constructor
  · rintro ⟨place, r, type, symbol, i, hat, hn, hbase⟩
    have hi := getElem?_bases_iff.mpr ⟨type, symbol, hn, hbase⟩
    exact ⟨r, mem_references_iff.mpr ⟨place, hat⟩, List.mem_of_getElem? hi⟩
  · rintro ⟨r, hr, he⟩
    obtain ⟨place, hat⟩ := mem_references_iff.mp hr
    obtain ⟨i, hi⟩ := List.mem_iff_getElem?.mp he
    obtain ⟨type, symbol, hn, hbase⟩ := getElem?_bases_iff.mp hi
    exact ⟨place, r, type, symbol, i, hat, hn, hbase⟩

theorem pairwise_placedReferences (d : NodeRef) :
    (p.placedReferences d).Pairwise fun a b => a.1.Before b.1 := by
  rw [placedReferences, List.pairwise_flatMap]
  refine ⟨?_, (pairwise_zipIdx _ 0).imp ?_⟩
  · rintro ⟨clause, i⟩ -
    rw [List.pairwise_map]
    exact (pairwise_zipIdx _ 0).imp fun h => .inr ⟨rfl, h⟩
  · rintro ⟨clause, i⟩ ⟨clause', i'⟩ hi a ha b hb
    obtain ⟨_, -, rfl⟩ := List.mem_map.mp ha
    obtain ⟨_, -, rfl⟩ := List.mem_map.mp hb
    exact .inl hi

theorem mem_pathsAt_iff {place : Place} {r last : NodeRef} {path : HeritagePath}
    {below : List (List (HeritagePath × NodeRef))} :
    (path, last) ∈ pathsAt place r below ↔
      (∃ i paths rest, below[i]? = some paths ∧ (rest, last) ∈ paths ∧ path = .via place i rest) ∨
        path = .last place ∧ last = r := by
  simp only [pathsAt, List.mem_append, List.mem_flatMap, List.mem_map, List.mem_singleton,
    Prod.exists, Prod.mk.injEq, List.mem_zipIdx_iff_getElem?]
  constructor
  · rintro (⟨paths, i, hi, rest, _, hrest, rfl, rfl⟩ | h)
    · exact .inl ⟨i, paths, rest, hi, hrest, rfl⟩
    · exact .inr h
  · rintro (⟨i, paths, rest, hi, hrest, rfl⟩ | h)
    · exact .inl ⟨paths, i, hi, rest, _, hrest, rfl, rfl⟩
    · exact .inr h

theorem place_of_mem_pathsAt {place : Place} {r : NodeRef} {path : HeritagePath × NodeRef}
    {below : List (List (HeritagePath × NodeRef))} (h : path ∈ pathsAt place r below) :
    path.1.place = place := by
  obtain ⟨path, last⟩ := path
  obtain ⟨i, paths, rest, -, -, rfl⟩ | ⟨rfl, -⟩ := mem_pathsAt_iff.mp h
  · rfl
  · rfl

theorem pairwise_pathsAt {place : Place} {r : NodeRef}
    {below : List (List (HeritagePath × NodeRef))}
    (h : ∀ paths ∈ below, paths.Pairwise fun a b => a.1.Before b.1) :
    (pathsAt place r below).Pairwise fun a b => a.1.Before b.1 := by
  rw [pathsAt, List.pairwise_append, List.pairwise_flatMap]
  refine ⟨⟨?_, (pairwise_zipIdx _ 0).imp ?_⟩, List.pairwise_singleton _ _, ?_⟩
  · rintro ⟨paths, i⟩ hi
    have hpaths := h paths (List.mem_of_getElem? (List.mem_zipIdx_iff_getElem?.mp hi))
    exact List.pairwise_map.mpr (hpaths.imp .rest)
  · rintro ⟨paths, i⟩ ⟨paths', i'⟩ hi a ha b hb
    obtain ⟨_, -, rfl⟩ := List.mem_map.mp ha
    obtain ⟨_, -, rfl⟩ := List.mem_map.mp hb
    exact .base hi
  · intro a ha b hb
    obtain ⟨⟨paths, i⟩, -, ha⟩ := List.mem_flatMap.mp ha
    obtain ⟨_, -, rfl⟩ := List.mem_map.mp ha
    obtain rfl := List.mem_singleton.mp hb
    exact .through

theorem membersAlong_pathsAt (place : Place) (r : NodeRef)
    (below : List (List (HeritagePath × NodeRef))) :
    p.membersAlong (pathsAt place r below) =
      below.flatMap p.membersAlong ++ p.exportedMembers r := by
  have hbelow : below.flatMap p.membersAlong =
      below.zipIdx.flatMap fun x => p.membersAlong x.1 := by
    conv_lhs => rw [← List.zipIdx_map_fst 0 below, List.flatMap_map]
  simp only [membersAlong, pathsAt, List.flatMap_append, List.flatMap_assoc, List.flatMap_map,
    List.flatMap_cons, List.flatMap_nil, List.append_nil] at hbelow ⊢
  rw [hbelow]

theorem mem_paths_succ_iff {budget : Nat} {d last : NodeRef} {path : HeritagePath} :
    (path, last) ∈ p.paths (budget + 1) d ↔ ∃ place r, p.referenceAt? d place = some r ∧
      (path, last) ∈ pathsAt place r ((p.bases r).map (p.paths budget)) := by
  simp only [paths, List.mem_flatMap, Prod.exists, mem_placedReferences_iff]

theorem pathTo_of_mem_paths {budget : Nat} {d r : NodeRef} {path : HeritagePath}
    (h : (path, r) ∈ p.paths budget d) : p.PathTo d path r := by
  induction budget generalizing d r path with
  | zero => simp [paths] at h
  | succ budget ih =>
    obtain ⟨place, s, hat, h⟩ := mem_paths_succ_iff.mp h
    obtain ⟨i, paths, rest, hi, hrest, rfl⟩ | ⟨rfl, rfl⟩ := mem_pathsAt_iff.mp h
    · rw [List.getElem?_map, Option.map_eq_some_iff] at hi
      obtain ⟨e, he, rfl⟩ := hi
      obtain ⟨type, symbol, hn, hbase⟩ := getElem?_bases_iff.mp he
      exact .via hat hn hbase (ih hrest)
    · exact .last hat

/-- A budget that no chain of declarations uses up reaches every path. -/
theorem mem_paths_of_pathTo {budget : Nat} {d r : NodeRef} {path : HeritagePath}
    (h : p.PathTo d path r) (shallow : ∀ e, ¬ Chain p.Base budget d e) :
    (path, r) ∈ p.paths budget d := by
  induction h generalizing budget with
  | @last d r place hat =>
    cases budget with
    | zero => exact absurd .nil (shallow d)
    | succ budget =>
      exact mem_paths_succ_iff.mpr ⟨place, r, hat, mem_pathsAt_iff.mpr (.inr ⟨rfl, rfl⟩)⟩
  | @via d r e last place type symbol i path hat hn hbase _ ih =>
    cases budget with
    | zero => exact absurd .nil (shallow d)
    | succ budget =>
      have hstep : p.Base d e := ⟨place, r, type, symbol, i, hat, hn, hbase⟩
      have hrest := ih fun f hf => shallow f (.cons hstep hf)
      have hi : ((p.bases r).map (p.paths budget))[i]? = some (p.paths budget e) := by
        rw [List.getElem?_map, getElem?_bases_iff.mpr ⟨type, symbol, hn, hbase⟩]
        rfl
      exact mem_paths_succ_iff.mpr
        ⟨place, r, hat, mem_pathsAt_iff.mpr (.inl ⟨i, _, path, hi, hrest, rfl⟩)⟩

theorem pairwise_paths (budget : Nat) (d : NodeRef) :
    (p.paths budget d).Pairwise fun a b => a.1.Before b.1 := by
  induction budget generalizing d with
  | zero => exact .nil
  | succ budget ih =>
    rw [paths, List.pairwise_flatMap]
    refine ⟨?_, (pairwise_placedReferences d).imp ?_⟩
    · rintro ⟨place, r⟩ -
      apply pairwise_pathsAt
      intro paths hpaths
      obtain ⟨e, -, rfl⟩ := List.mem_map.mp hpaths
      exact ih e
    · rintro ⟨place, r⟩ ⟨place', r'⟩ hplace a ha b hb
      apply HeritagePath.Before.place
      rw [place_of_mem_pathsAt ha, place_of_mem_pathsAt hb]
      exact hplace

theorem membersAlong_paths_succ (budget : Nat) (d : NodeRef) :
    p.membersAlong (p.paths (budget + 1) d) = (p.references d).flatMap fun r =>
      ((p.bases r).flatMap fun e => p.membersAlong (p.paths budget e)) ++ p.exportedMembers r := by
  rw [← map_snd_placedReferences, List.flatMap_map, membersAlong, paths, List.flatMap_assoc]
  apply List.flatMap_congr
  rintro ⟨place, r⟩ -
  exact (membersAlong_pathsAt place r _).trans (by rw [List.flatMap_map])

theorem PathsInOrder.unique {d : NodeRef} {l l' : List (HeritagePath × NodeRef)}
    (h : p.PathsInOrder d l) (h' : p.PathsInOrder d l') : l = l' := by
  have : Std.Irrefl fun a b : HeritagePath × NodeRef => a.1.Before b.1 :=
    ⟨fun a ha => ha.asymm ha⟩
  have : Std.Antisymm fun a b : HeritagePath × NodeRef => a.1.Before b.1 :=
    ⟨fun a b hab hba => absurd hba hab.asymm⟩
  apply List.Pairwise.eq_of_mem_iff h.1 h'.1
  rintro ⟨path, r⟩
  exact (h.2 path r).trans (h'.2 path r).symm

theorem passedOn_eq_ok_iff {budget : Nat} {r : NodeRef} {members : List SymbolRef}
    (h : ∀ d members, p.inheritedWithin budget d = .ok members ↔
      p.Passable budget d ∧ members = p.membersAlong (p.paths budget d)) :
    p.passedOn budget r = .ok members ↔
      (p.Settled r ∧ ∀ e ∈ p.bases r, p.Passable budget e) ∧
        members = ((p.bases r).flatMap fun e => p.membersAlong (p.paths budget e)) ++
          p.exportedMembers r := by
  have hown : ∀ type symbol, p.Names r type symbol →
      ((p.types.properties type).map fun s => [s].filter p.isExportedMember).flatten =
        p.exportedMembers r := by
    intro type symbol hn
    rw [flatten_map_filter_singleton, hn.exportedMembers_eq]
  rw [passedOn, bind_eq_ok_iff]
  simp only [bind_eq_ok_iff, mapM_eq_ok_iff fun e _ => h e,
    mapM_eq_ok_iff fun s _ _ => exportedProperty_eq_ok_iff, pure, Except.pure, Except.ok.injEq]
  constructor
  · rintro ⟨⟨type, symbol⟩, hn, _, ⟨hbases, rfl⟩, _, ⟨hheld, rfl⟩, rfl⟩
    have hn := declaredType_eq_ok_iff.mp hn
    rw [hown type symbol hn, hn.bases_eq, ← List.flatMap_def]
    exact ⟨⟨⟨type, symbol, hn, hheld⟩, hbases⟩, rfl⟩
  · rintro ⟨⟨⟨type, symbol, hn, hheld⟩, hbases⟩, rfl⟩
    rw [hn.bases_eq] at hbases ⊢
    exact ⟨(type, symbol), declaredType_eq_ok_iff.mpr hn, _, ⟨hbases, rfl⟩, _, ⟨hheld, rfl⟩,
      by rw [hown type symbol hn, ← List.flatMap_def]⟩

theorem inheritedWithin_eq_ok_iff {budget : Nat} {d : NodeRef} {members : List SymbolRef} :
    p.inheritedWithin budget d = .ok members ↔
      p.Passable budget d ∧ members = p.membersAlong (p.paths budget d) := by
  induction budget generalizing d members with
  | zero => simp [inheritedWithin, Passable]
  | succ budget ih =>
    rw [inheritedWithin_succ, ← references_eq, membersAlong_paths_succ, bind_eq_ok_iff]
    simp only [mapM_eq_ok_iff fun r _ _ => passedOn_eq_ok_iff fun d members => ih, pure,
      Except.pure, Except.ok.injEq]
    constructor
    · rintro ⟨_, ⟨hpass, rfl⟩, rfl⟩
      exact ⟨hpass, List.flatMap_def.symm⟩
    · rintro ⟨hpass, rfl⟩
      exact ⟨_, ⟨hpass, rfl⟩, List.flatMap_def.symm⟩

theorem passable_iff {budget : Nat} {d : NodeRef} :
    p.Passable budget d ↔
      (∀ path r, p.PathTo d path r → p.Settled r) ∧ ∀ e, ¬ Chain p.Base budget d e := by
  induction budget generalizing d with
  | zero =>
    simp only [Passable, false_iff, not_and, not_forall, not_not]
    exact fun _ => ⟨d, .nil⟩
  | succ budget ih =>
    simp only [Passable, ih]
    constructor
    · intro h
      refine ⟨fun path r hpath => ?_, fun e hchain => ?_⟩
      · cases hpath with
        | last hat => exact (h r (mem_references_iff.mpr ⟨_, hat⟩)).1
        | via hat hn hbase hrest =>
          have he := List.mem_of_getElem? (getElem?_bases_iff.mpr ⟨_, _, hn, hbase⟩)
          exact ((h _ (mem_references_iff.mpr ⟨_, hat⟩)).2 _ he).1 _ _ hrest
      · cases hchain with
        | cons hstep hrest =>
          obtain ⟨r, hr, he⟩ := base_iff.mp hstep
          exact ((h r hr).2 _ he).2 e hrest
    · rintro ⟨hsettled, hshallow⟩ r hr
      obtain ⟨place, hat⟩ := mem_references_iff.mp hr
      refine ⟨hsettled _ r (.last hat), fun e he => ⟨?_, ?_⟩⟩
      · intro path last hpath
        obtain ⟨i, hi⟩ := List.mem_iff_getElem?.mp he
        obtain ⟨type, symbol, hn, hbase⟩ := getElem?_bases_iff.mp hi
        exact hsettled _ last (.via hat hn hbase hpath)
      · intro last hchain
        exact hshallow last (.cons (base_iff.mpr ⟨r, hr, he⟩) hchain)

theorem inherited_eq_ok_iff {d : NodeRef} {members : List SymbolRef} :
    p.inherited d = .ok members ↔
      p.Walkable d ∧ members = p.membersAlong (p.paths (maxHeritageDepth + 1) d) := by
  rw [inherited, inheritedWithin_eq_ok_iff, passable_iff]
  exact and_congr_left fun _ => ⟨fun h => ⟨h.1, h.2⟩, fun h => ⟨h.settled, h.shallow⟩⟩

theorem Walkable.pathsInOrder {d : NodeRef} (h : p.Walkable d) :
    p.PathsInOrder d (p.paths (maxHeritageDepth + 1) d) :=
  ⟨pairwise_paths _ d, fun _ _ => ⟨pathTo_of_mem_paths, fun hp => mem_paths_of_pathTo hp h.shallow⟩⟩

/-- A declaration inherits along all its paths, in their order, if everything on them is known and
no chain of declarations is too long; otherwise the walk fails. -/
theorem inherited_ok_along_paths (p : Program) (d : NodeRef) :
    ((∃ members, p.inherited d = .ok members) ↔ p.Walkable d) ∧
      ∀ members, p.inherited d = .ok members →
        ∃! paths, p.PathsInOrder d paths ∧
          members = paths.flatMap fun path => p.exportedMembers path.2 := by
  simp only [inherited_eq_ok_iff]
  refine ⟨⟨fun ⟨_, h, _⟩ => h, fun h => ⟨_, h, rfl⟩⟩, ?_⟩
  rintro members ⟨hwalk, rfl⟩
  exact ⟨_, ⟨hwalk.pathsInOrder, rfl⟩, fun paths h => h.1.unique hwalk.pathsInOrder⟩

/-- A class that comes to `Root` through both declarations of an interface, and directly. -/
def reopened : Program :=
  let d := Draft.start "a.ts"
  let d := (d.declare false { name := "Root", members := ["m"], exportContext := true }).1
  let d := (d.declare false
    { name := "Side", bases := ["Root"], members := ["s"], exportContext := true }).1
  let d := (d.declare false { name := "Side", bases := ["Root"] }).1
  let d := (d.declare true { name := "Leaf", implements := ["Side", "Root"] }).1
  d.finish

def reopenedLeaf : NodeRef :=
  Row.ofIndex 22

def reopenedPaths : List (HeritagePath × NodeRef) :=
  [(.via ⟨0, 0⟩ 0 (.last ⟨0, 0⟩), Row.ofIndex 6), (.via ⟨0, 0⟩ 1 (.last ⟨0, 0⟩), Row.ofIndex 13),
    (.last ⟨0, 0⟩, Row.ofIndex 18), (.last ⟨0, 1⟩, Row.ofIndex 20)]

def reopenedMembers : List SymbolRef :=
  [Row.ofIndex 1, Row.ofIndex 1, Row.ofIndex 3, Row.ofIndex 1]

theorem reopened_inherited_along_paths :
    reopened.inherited reopenedLeaf = .ok reopenedMembers ∧
      reopened.symbolNames reopenedMembers = ["m", "m", "s", "m"] ∧
      reopened.PathsInOrder reopenedLeaf reopenedPaths ∧
      reopenedMembers = reopenedPaths.flatMap fun path => reopened.exportedMembers path.2 := by
  obtain ⟨hwalk, halong⟩ := inherited_ok_along_paths reopened reopenedLeaf
  have hmembers : reopened.inherited reopenedLeaf = .ok reopenedMembers := by decide +kernel
  have horder := (hwalk.mp ⟨_, hmembers⟩).pathsInOrder
  have hpaths : reopened.paths (maxHeritageDepth + 1) reopenedLeaf = reopenedPaths := rfl
  rw [hpaths] at horder
  obtain ⟨paths, ⟨hall, heq⟩, -⟩ := halong reopenedMembers hmembers
  rw [hall.unique horder] at heq
  exact ⟨hmembers, by decide, horder, heq⟩

end Program

end TypeAtlas
