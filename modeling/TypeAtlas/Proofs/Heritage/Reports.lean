import TypeAtlas.Command.HeritageReport
import TypeAtlas.Draft
import TypeAtlas.Proofs.Heritage.Paths
import TypeAtlas.Proofs.Tree.Growth

/-! Reports are complete or say why not. The walk from a declaration settles every reference in its
clauses, so the questions about a single clause that come after it cannot fail any more, and every
member that is found has a name. -/

namespace TypeAtlas

namespace Arena

section Definitions

variable (a : Arena)

def BeginsWith (clause : NodeRef) (token : Kind) : Prop :=
  ∃ d, a.heritageClause? clause = some d ∧ d.token = token

def FirstClause (declaration : NodeRef) (token : Kind) (clause : NodeRef) : Prop :=
  ∃ before after, a.heritageClauses? declaration = some (before ++ clause :: after) ∧
    a.BeginsWith clause token ∧ ∀ c ∈ before, ¬ a.BeginsWith c token

end Definitions

variable {a : Arena}

theorem any_token_iff {clause : NodeRef} {token : Kind} :
    (a.heritageClause? clause).any (·.token = token) = true ↔ a.BeginsWith clause token := by
  simp [BeginsWith, Option.any_eq_true]

theorem not_beginsWith_none (token : Kind) : ¬ a.BeginsWith none token := by
  rintro ⟨d, hd, -⟩
  cases hd

theorem clauseWith?_eq_some_iff {n : NodeRef} {token : Kind} {clause : NodeId} :
    a.clauseWith? n token = some clause ↔ a.FirstClause n token (some clause) := by
  simp only [clauseWith?, Option.join_eq_some_iff, Option.bind_eq_some_iff,
    List.find?_eq_some_iff_append, any_token_iff, Bool.not_eq_true', ← Bool.not_eq_true]
  constructor
  · rintro ⟨clauses, hclauses, hbegins, before, after, rfl, hbefore⟩
    exact ⟨before, after, hclauses, hbegins, hbefore⟩
  · rintro ⟨before, after, hclauses, hbegins, hbefore⟩
    exact ⟨_, hclauses, hbegins, before, after, rfl, hbefore⟩

theorem not_firstClause_of_clauseWith?_eq_none {n : NodeRef} {token : Kind}
    (h : a.clauseWith? n token = none) (clause : NodeRef) : ¬ a.FirstClause n token clause := by
  intro hfirst
  cases clause with
  | none =>
    obtain ⟨_, _, _, hbegins, _⟩ := hfirst
    exact not_beginsWith_none token hbegins
  | some clause =>
    rw [clauseWith?_eq_some_iff.mpr hfirst] at h
    cases h

theorem mem_nodeIds_iff {n : NodeId} : n ∈ a.nodeIds ↔ n.index < a.nodes.size := by
  simp only [nodeIds, List.mem_filterMap, List.mem_range]
  constructor
  · rintro ⟨i, hi, hn⟩
    exact Row.index_of_ofIndex hn ▸ hi
  · intro hn
    exact ⟨n.index, hn, Row.ofIndex_of_lt n.index_lt⟩

theorem nodup_nodeIds (a : Arena) : a.nodeIds.Nodup := by
  refine List.Nodup.filterMap ?_ List.nodup_range
  intro i j n hi hj
  rw [← Row.index_of_ofIndex hi, ← Row.index_of_ofIndex hj]

theorem isClassLike_iff {n : NodeRef} :
    a.isClassLike n = true ↔ ∃ k ∈ classLikeKinds, a.kind? n = some k := by
  simp only [isClassLike, Option.any_eq_true, List.contains_iff_mem]
  exact ⟨fun ⟨k, hk, hmem⟩ => ⟨k, hmem, hk⟩, fun ⟨k, hmem, hk⟩ => ⟨k, hk, hmem⟩⟩

end Arena

namespace Program

section Definitions

variable (p : Program)

def NamedBy (symbols : List SymbolRef) (names : List String) : Prop :=
  List.Forall₂ (fun s name => ∃ symbol, p.bindings.symbol? s = some symbol ∧ symbol.name = name)
    symbols names

/-- The names of what a walk finds in the first clause of a declaration that begins with a token;
without such a clause there are none. -/
inductive ClauseNames (walk : NodeRef → Except HeritageError (List SymbolRef))
    (declaration : NodeRef) (token : Kind) : List String → Prop
  | without (h : ∀ clause, ¬ p.arena.FirstClause declaration token clause) :
    ClauseNames walk declaration token []
  | first {clause : NodeRef} {members : List SymbolRef} {names : List String}
    (h : p.arena.FirstClause declaration token clause) (walked : walk clause = .ok members)
    (named : p.NamedBy members names) : ClauseNames walk declaration token names

structure Answers (r : HeritageReport) : Prop where
  error : r.error = none
  inherited : ∃ members, p.inherited r.node = .ok members ∧ p.NamedBy members r.inherited
  abstract : p.ClauseNames p.abstractMembers r.node .extendsKeyword r.abstract
  implemented : p.ClauseNames p.implementedMembers r.node .implementsKeyword r.implemented

/-- A report that gives an error instead of names, the one that the walk from the declaration ends
with. -/
structure Refuses (r : HeritageReport) : Prop where
  error : ∃ e, p.inherited r.node = .error e ∧ r.error = some e
  inherited : r.inherited = []
  abstract : r.abstract = []
  implemented : r.implemented = []

end Definitions

variable {p : Program}

theorem namedBy_symbolNames {members : List SymbolRef}
    (h : ∀ s ∈ members, (p.bindings.symbol? s).isSome) :
    p.NamedBy members (p.symbolNames members) := by
  induction members with
  | nil => exact .nil
  | cons s members ih =>
    obtain ⟨symbol, hsymbol⟩ := Option.isSome_iff_exists.mp (h s List.mem_cons_self)
    have hcons : p.symbolNames (s :: members) = symbol.name :: p.symbolNames members := by
      simp [symbolNames, hsymbol]
    rw [hcons]
    exact .cons ⟨symbol, hsymbol, rfl⟩ (ih fun s hs => h s (List.mem_cons_of_mem _ hs))

theorem known_of_mem_exportedMembers {r : NodeRef} {s : SymbolRef}
    (h : s ∈ p.exportedMembers r) : (p.bindings.symbol? s).isSome := by
  simp only [exportedMembers] at h
  split at h
  · exact Option.isSome_of_any (List.mem_filter.mp h).2
  · cases h

theorem known_of_inherited {d : NodeRef} {members : List SymbolRef}
    (h : p.inherited d = .ok members) : ∀ s ∈ members, (p.bindings.symbol? s).isSome := by
  obtain ⟨-, rfl⟩ := inherited_eq_ok_iff.mp h
  intro s hs
  obtain ⟨path, -, hs⟩ := List.mem_flatMap.mp hs
  exact known_of_mem_exportedMembers hs

theorem mem_references_of_firstClause {d clause r : NodeRef} {token : Kind}
    (h : p.arena.FirstClause d token clause) (hr : r ∈ p.arena.clauseTypes clause) :
    r ∈ p.references d := by
  obtain ⟨before, after, hclauses, -, -⟩ := h
  rw [references_eq, heritageReferences, hclauses, Option.getD_some]
  exact List.mem_flatMap.mpr ⟨clause, by simp, hr⟩

theorem Walkable.settled_of_firstClause {d clause : NodeRef} {token : Kind} (h : p.Walkable d)
    (hclause : p.arena.FirstClause d token clause) :
    ∀ r ∈ p.arena.clauseTypes clause, p.Settled r := by
  intro r hr
  obtain ⟨place, hat⟩ := mem_references_iff.mp (mem_references_of_firstClause hclause hr)
  exact h.settled (.last place) r (.last hat)

theorem abstractMembers_of_settled {clause : NodeRef}
    (h : ∀ r ∈ p.arena.clauseTypes clause, p.Settled r) :
    ∃ members, p.abstractMembers clause = .ok members ∧
      ∀ s ∈ members, (p.bindings.symbol? s).isSome := by
  refine bind_flatten_ok fun r hr => ?_
  obtain ⟨type, symbol, hnames, hknown⟩ := h r hr
  rw [declaredType_eq_ok_iff.mpr hnames]
  refine ⟨_, rfl, fun s hs => ?_⟩
  split at hs
  · exact hknown s hs
  · cases hs

theorem implementedMembers_of_settled {clause : NodeRef}
    (h : ∀ r ∈ p.arena.clauseTypes clause, p.Settled r) :
    ∃ members, p.implementedMembers clause = .ok members ∧
      ∀ s ∈ members, (p.bindings.symbol? s).isSome := by
  refine bind_flatten_ok fun r hr => ?_
  obtain ⟨type, symbol, hnames, hknown⟩ := h r hr
  rw [typeOf_eq_ok_iff.mpr hnames.1]
  exact ⟨_, rfl, hknown⟩

/-- A walk that succeeds on settled references names the first clause of a walkable declaration. -/
theorem clauseMembers_of_walkable {walk : NodeRef → Except HeritageError (List SymbolRef)}
    (hwalk : ∀ clause, (∀ r ∈ p.arena.clauseTypes clause, p.Settled r) →
      ∃ members, walk clause = .ok members ∧ ∀ s ∈ members, (p.bindings.symbol? s).isSome)
    {d : NodeRef} (h : p.Walkable d) (token : Kind) :
    ∃ names, p.clauseMembers walk (p.arena.clauseWith? d token) = .ok names ∧
      p.ClauseNames walk d token names := by
  cases hclause : p.arena.clauseWith? d token with
  | none =>
    exact ⟨[], rfl, .without (Arena.not_firstClause_of_clauseWith?_eq_none hclause)⟩
  | some clause =>
    have hfirst := Arena.clauseWith?_eq_some_iff.mp hclause
    obtain ⟨members, hmembers, hknown⟩ := hwalk _ (h.settled_of_firstClause hfirst)
    refine ⟨p.symbolNames members, ?_, .first hfirst hmembers (namedBy_symbolNames hknown)⟩
    simp [clauseMembers, hmembers, Except.map]

theorem node_fillReport (r : HeritageReport) : (p.fillReport r).node = r.node := by
  unfold fillReport
  split
  · rfl
  · split
    · rfl
    · split <;> rfl

theorem fillReport_refuses {n : NodeId} {name : String} {e : HeritageError}
    (h : p.inherited (some n) = .error e) : p.Refuses (p.fillReport { node := n, name }) := by
  have hfill : p.fillReport { node := n, name } = { node := n, name, error := some e } := by
    simp [fillReport, h, Except.map]
  rw [hfill]
  exact ⟨⟨e, h, rfl⟩, rfl, rfl, rfl⟩

theorem fillReport_answers {n : NodeId} {name : String} {members : List SymbolRef}
    (h : p.inherited (some n) = .ok members) :
    p.Answers (p.fillReport { node := n, name }) := by
  have hwalkable := (inherited_eq_ok_iff.mp h).1
  obtain ⟨abstract, habstract, hextends⟩ :=
    clauseMembers_of_walkable (fun _ => abstractMembers_of_settled) hwalkable .extendsKeyword
  obtain ⟨implemented, himplemented, himplements⟩ :=
    clauseMembers_of_walkable (fun _ => implementedMembers_of_settled) hwalkable .implementsKeyword
  have hfill : p.fillReport { node := n, name } =
      { node := n, name, inherited := p.symbolNames members, abstract, implemented } := by
    simp [fillReport, h, Except.map, Arena.extendsClause?, Arena.implementsClause?, habstract,
      himplemented]
  rw [hfill]
  exact ⟨rfl, ⟨members, h, namedBy_symbolNames (known_of_inherited h)⟩, hextends, himplements⟩

theorem map_node_heritageReports (p : Program) :
    p.heritageReports.map HeritageReport.node =
      p.arena.nodeIds.filter fun n => p.arena.isClassLike (some n) := by
  simp [heritageReports, Function.comp_def, node_fillReport]

/-- Every class and interface has one report, which gives all names or an error and no names, and
the status tells whether some report gives an error. -/
theorem heritageReports_all_or_nothing (p : Program) :
    (p.heritageReports.map HeritageReport.node).Nodup ∧
      (∀ n, n ∈ p.heritageReports.map HeritageReport.node ↔
        ∃ k ∈ Arena.classLikeKinds, p.arena.kind? (some n) = some k) ∧
      (∀ r ∈ p.heritageReports, p.Answers r ∨ p.Refuses r) ∧
      ∀ json, (p.reportHeritage json).status = 1 ↔ ∃ r ∈ p.heritageReports, r.error.isSome := by
  refine ⟨?_, fun n => ?_, fun r hr => ?_, fun json => ?_⟩
  · rw [map_node_heritageReports]
    exact (Arena.nodup_nodeIds p.arena).filter _
  · rw [map_node_heritageReports, List.mem_filter, Arena.isClassLike_iff, Arena.mem_nodeIds_iff]
    refine and_iff_right_of_imp ?_
    rintro ⟨k, -, hk⟩
    obtain ⟨node, hnode, -⟩ := Option.map_eq_some_iff.mp hk
    exact Arena.index_lt_of_node? hnode
  · obtain ⟨n, -, rfl⟩ := List.mem_map.mp hr
    cases h : p.inherited (some n) with
    | ok members => exact .inl (fillReport_answers h)
    | error e => exact .inr (fillReport_refuses h)
  · simp only [reportHeritage, Report.hasErrors, Report.success]
    split <;> simp_all [HeritageReport.isFailure]

/-- A class with a base that is declared, and one with a base that is not. -/
def twoBases : Program :=
  let d := Draft.start "a.ts"
  let d := (d.declare true { name := "A", members := ["m"], exportContext := true }).1
  let d := (d.declare true { name := "B", bases := ["A"] }).1
  let d := (d.declare true { name := "C", bases := ["D"] }).1
  d.finish

theorem twoBases_reports :
    (∃ r ∈ twoBases.heritageReports, r.inherited = ["m"] ∧ twoBases.Answers r) ∧
      ∃ r ∈ twoBases.heritageReports, r.name = "C" ∧ twoBases.Refuses r := by
  obtain ⟨-, -, hreports, -⟩ := heritageReports_all_or_nothing twoBases
  obtain ⟨b, hb, hinherited⟩ : ∃ r ∈ twoBases.heritageReports, r.inherited = ["m"] := by decide
  obtain ⟨c, hc, hname, herror⟩ :
      ∃ r ∈ twoBases.heritageReports, r.name = "C" ∧ r.error ≠ none := by decide
  refine ⟨⟨b, hb, hinherited, (hreports b hb).resolve_right fun h => ?_⟩,
    ⟨c, hc, hname, (hreports c hc).resolve_left fun h => herror h.error⟩⟩
  rw [h.inherited] at hinherited
  cases hinherited

end Program

end TypeAtlas
