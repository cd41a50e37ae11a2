import TypeAtlas.Draft
import TypeAtlas.Proofs.Tree.Growth
import Mathlib.Data.List.Basic
import Mathlib.Data.List.Nodup

/-! Where the nodes of a declaration are. Laying out a declaration adds nodes behind all others: its
members become its children, and the references of its heritage clauses say what they refer to. -/

namespace TypeAtlas

def Content.memberNodes : Content → NodeList
  | .classLike d | .interface d => d.members
  | _ => []

namespace Arena

section Definitions

variable (a : Arena)

def Refers (reference : NodeRef) (target : String) : Prop :=
  ∃ expression, a.content? reference = some (.typeApplication { expression, arguments := none }) ∧
    a.identifierText? expression = some target

def Plain (n : NodeRef) : Prop :=
  ∃ node, a.node? n = some node ∧ node.flags = 0

def Clauses (clauses references : NodeList) : Prop :=
  (∀ c ∈ clauses, (a.heritageClause? c).isSome) ∧ clauses.flatMap a.clauseTypes = references

structure Holds (nodes : NodeList) (pending : List PendingReference) : Prop where
  nodup : nodes.Nodup
  plain : ∀ n ∈ nodes, a.Plain n
  refers : ∀ r ∈ pending, a.Refers r.reference r.target

structure Carries (exported : Bool) (n : NodeRef) (members : NodeList)
    (pending : List PendingReference) : Prop where
  content : ∃ content, a.content? n = some content ∧ content.memberNodes = members ∧
    a.Clauses (content.heritageClauses?.getD []) (pending.map (·.reference))
  flags : ∃ node, a.node? n = some node ∧
    node.flags = if exported then NodeFlags.exportContext else 0
  holds : a.Holds members pending
  parent : ∀ m ∈ members, a.parent m = n
  root : a.parent n = none

end Definitions

variable {k : Nat} {a b : Arena}

theorem identifierText?_eq_some_iff {n : NodeRef} {text : String} :
    a.identifierText? n = some text ↔
      ∃ d : Identifier, a.content? n = some (.identifier d) ∧ d.text = text := by
  unfold identifierText?
  constructor
  · intro h
    split at h
    · next d hd => exact ⟨d, hd, Option.some.inj h⟩
    · cases h
  · rintro ⟨d, hd, rfl⟩
    rw [hd]

theorem Grown.identifierText? (h : a.Grown k b) {n : NodeRef} {text : String}
    (ht : a.identifierText? n = some text) : b.identifierText? n = some text := by
  obtain ⟨d, hd, hd'⟩ := identifierText?_eq_some_iff.mp ht
  exact identifierText?_eq_some_iff.mpr ⟨d, h.content hd, hd'⟩

theorem Grown.refers (h : a.Grown k b) {r : NodeRef} {target : String} (hr : a.Refers r target) :
    b.Refers r target := by
  obtain ⟨expression, hc, ht⟩ := hr
  exact ⟨expression, h.content hc, h.identifierText? ht⟩

theorem Refers.target_unique {r : NodeRef} {t t' : String} (h : a.Refers r t)
    (h' : a.Refers r t') : t = t' := by
  obtain ⟨e, he, ht⟩ := h
  obtain ⟨e', he', ht'⟩ := h'
  rw [he] at he'
  cases he'
  rw [ht] at ht'
  exact Option.some.inj ht'

theorem Grown.plain (h : a.Grown k b) {n : NodeRef} (hn : a.Plain n) : b.Plain n := by
  obtain ⟨node, hnode, hflags⟩ := hn
  exact ⟨node, h.node hnode, hflags⟩

theorem Plain.exists_id {n : NodeRef} (h : a.Plain n) :
    ∃ id, n = some id ∧ id.index < a.nodes.size := by
  obtain ⟨node, hnode, -⟩ := h
  cases n with
  | none => cases hnode
  | some id => exact ⟨id, rfl, index_lt_of_node? hnode⟩

theorem heritageClause?_eq_some_iff {n : NodeRef} {clause : HeritageClause} :
    a.heritageClause? n = some clause ↔ a.content? n = some (.heritageClause clause) := by
  unfold heritageClause?
  constructor
  · intro h
    split at h
    · next d hd => exact hd.trans (by rw [Option.some.inj h])
    · cases h
  · intro h
    rw [h]

theorem Grown.heritageClause? (h : a.Grown k b) {n : NodeRef} {clause : HeritageClause}
    (hc : a.heritageClause? n = some clause) : b.heritageClause? n = some clause :=
  heritageClause?_eq_some_iff.mpr (h.content (heritageClause?_eq_some_iff.mp hc))

theorem Grown.clauses (h : a.Grown k b) {clauses references : NodeList}
    (hc : a.Clauses clauses references) : b.Clauses clauses references := by
  obtain ⟨hsome, rfl⟩ := hc
  have hkept : ∀ c ∈ clauses, b.heritageClause? c = a.heritageClause? c := by
    intro c hc
    obtain ⟨clause, hclause⟩ := Option.isSome_iff_exists.mp (hsome c hc)
    rw [h.heritageClause? hclause, hclause]
  refine ⟨fun c hc => hkept c hc ▸ hsome c hc, List.flatMap_congr fun c hc => ?_⟩
  simp only [clauseTypes, hkept c hc]

theorem Clauses.append {l l' r r' : NodeList} (h : a.Clauses l r) (h' : a.Clauses l' r') :
    a.Clauses (l ++ l') (r ++ r') := by
  obtain ⟨hsome, rfl⟩ := h
  obtain ⟨hsome', rfl⟩ := h'
  exact ⟨List.forall_mem_append.mpr ⟨hsome, hsome'⟩, List.flatMap_append⟩

theorem Clauses.nil : a.Clauses [] [] :=
  ⟨fun _ hc => (nomatch hc), rfl⟩

theorem Clauses.singleton {n : NodeRef} {clause : HeritageClause}
    (h : a.content? n = some (.heritageClause clause)) : a.Clauses [n] clause.types := by
  have hclause := heritageClause?_eq_some_iff.mpr h
  refine ⟨fun c hc => ?_, by simp [clauseTypes, hclause]⟩
  rw [List.mem_singleton.mp hc, hclause]
  rfl

theorem Grown.holds (h : a.Grown k b) {nodes : NodeList} {pending : List PendingReference}
    (hh : a.Holds nodes pending) : b.Holds nodes pending :=
  ⟨hh.nodup, fun n hn => h.plain (hh.plain n hn), fun r hr => h.refers (hh.refers r hr)⟩

theorem Grown.carries (h : a.Grown a.nodes.size b) {exported : Bool} {n : NodeRef}
    {members : NodeList} {pending : List PendingReference}
    (hc : a.Carries exported n members pending) : b.Carries exported n members pending where
  content := by
    obtain ⟨content, hcontent, hmembers, hclauses⟩ := hc.content
    exact ⟨content, h.content hcontent, hmembers, h.clauses hclauses⟩
  flags := by
    obtain ⟨node, hnode, hflags⟩ := hc.flags
    exact ⟨node, h.node hnode, hflags⟩
  holds := h.holds hc.holds
  parent m hm := by
    obtain ⟨id, rfl, hlt⟩ := (hc.holds.plain m hm).exists_id
    exact (h.parent id hlt).trans (hc.parent _ hm)
  root := by
    obtain ⟨node, hnode, -⟩ := hc.flags
    cases n with
    | none => rfl
    | some id => exact (h.parent id (index_lt_of_node? hnode)).trans hc.root

end Arena

namespace Draft

/-- A draft has got more nodes and more pending references, and nothing else. What is said of them
holds as long as nodes have numbers. -/
structure LaidOut (k : Nat) (d d' : Draft) (nodes : NodeList)
    (pending : List PendingReference) : Prop where
  frame : d' = { d with arena := d'.arena, pending := d.pending ++ pending }
  grown : d.arena.Grown k d'.arena
  fresh : ∀ n, some n ∈ nodes → d.arena.nodes.size ≤ n.index
  holds : d'.arena.nodes.size < 4294967295 → d'.arena.Holds nodes pending

variable {k : Nat} {d d₁ d₂ : Draft}

theorem LaidOut.refl (k : Nat) (h : d.arena.Balanced) : LaidOut k d d [] [] where
  frame := by rw [List.append_nil]
  grown := .refl k h
  fresh _ hn := nomatch hn
  holds _ := ⟨.nil, by simp, by simp⟩

theorem LaidOut.append {l l' : NodeList} {r r' : List PendingReference}
    (h : LaidOut k d d₁ l r) (h' : LaidOut k d₁ d₂ l' r') :
    LaidOut k d d₂ (l ++ l') (r ++ r') where
  frame := by
    rw [h'.frame, h.frame]
    simp
  grown := h.grown.trans h'.grown
  fresh n hn := by
    rcases List.mem_append.mp hn with hn | hn
    · exact h.fresh n hn
    · exact Nat.le_trans h.grown.size_le (h'.fresh n hn)
  holds hsize := by
    have hsize₁ := Nat.lt_of_le_of_lt h'.grown.size_le hsize
    have hold := h'.grown.holds (h.holds hsize₁)
    have hnew := h'.holds hsize
    refine ⟨List.nodup_append.mpr ⟨hold.nodup, hnew.nodup, ?_⟩,
      List.forall_mem_append.mpr ⟨hold.plain, hnew.plain⟩,
      List.forall_mem_append.mpr ⟨hold.refers, hnew.refers⟩⟩
    rintro n hn m hm rfl
    obtain ⟨id, rfl, hlt⟩ := ((h.holds hsize₁).plain n hn).exists_id
    have hle := h'.fresh id hm
    omega

theorem LaidOut.forget {l l' : NodeList} {r : List PendingReference}
    (h : LaidOut k d d₁ (l ++ l') r) : LaidOut k d d₁ l' r where
  frame := h.frame
  grown := h.grown
  fresh n hn := h.fresh n (List.mem_append_right l hn)
  holds hsize :=
    have hall := h.holds hsize
    ⟨(List.nodup_append.mp hall.nodup).2.1, (List.forall_mem_append.mp hall.plain).2, hall.refers⟩

theorem laidOut_add (kind : Kind) (s e : UInt32) {c : Content} (hb : d.arena.Balanced)
    (hc : ∀ n, some n ∈ c.children → k ≤ n.index) :
    LaidOut k d { d with arena := (d.arena.add kind s e c).1 } [d.arena.next] [] where
  frame := by rw [List.append_nil]
  grown := Arena.grown_add kind s e hb hc
  fresh n hn := Nat.le_of_eq (Arena.index_of_next (List.mem_singleton.mp hn).symm).symm
  holds hsize := by
    have hle := (Arena.grown_add kind s e hb hc).size_le
    refine ⟨List.nodup_singleton _, fun n hn => ?_, by simp⟩
    obtain rfl := List.mem_singleton.mp hn
    exact ⟨_, Arena.node?_next kind s e c (Nat.lt_of_le_of_lt hle hsize), rfl⟩

theorem addToken_laidOut (k : Nat) (d : Draft) (kind : Kind) (hb : d.arena.Balanced) :
    LaidOut k d (d.addToken kind).1 [(d.addToken kind).2] [] where
  frame := by
    rw [List.append_nil]
    rfl
  grown := Arena.grown_addBare k kind 0 0 hb
  fresh n hn := Nat.le_of_eq (Arena.index_of_next (List.mem_singleton.mp hn).symm).symm
  holds hsize := by
    have hle := (Arena.grown_addBare k kind 0 0 hb).size_le
    have hd := Nat.lt_of_le_of_lt hle hsize
    refine ⟨List.nodup_singleton _, fun n hn => ?_, by simp⟩
    obtain rfl := List.mem_singleton.mp hn
    change Arena.Plain (d.arena.pushHeader kind 0 0 none) d.arena.next
    exact ⟨⟨kind, 0, 0, 0, none⟩, by simp [Arena.node?, Arena.next_eq hd, Arena.pushHeader], rfl⟩

theorem addIdentifier_laidOut (k : Nat) (d : Draft) (text : String) (hb : d.arena.Balanced) :
    LaidOut k d (d.addIdentifier text).1 [(d.addIdentifier text).2] [] := by
  let content : Content := .identifier { text, inDocNamespace := false }
  have hchildren : ∀ n, some n ∈ content.children → k ≤ n.index := fun n hn => nomatch hn
  exact laidOut_add .identifier 0 _ hb hchildren

theorem le_index_of_addIdentifier {text : String} (hb : d.arena.Balanced)
    (hk : k ≤ d.arena.nodes.size) {n : NodeId} (hn : some n = (d.addIdentifier text).2) :
    k ≤ n.index :=
  Nat.le_trans hk ((addIdentifier_laidOut k d text hb).fresh n (List.mem_singleton.mpr hn))

theorem addMember_laidOut {kind : Kind} (name : String) (hb : d.arena.Balanced)
    (hk : k ≤ d.arena.nodes.size) :
    LaidOut k d (addMember kind d name).1 [(addMember kind d name).2] [] := by
  have hname := addIdentifier_laidOut k d name hb
  let content : Content := .property
    { modifiers := none, name := (d.addIdentifier name).2, typeAnnotation := none,
      initializer := none }
  have hchildren : ∀ n, some n ∈ content.children → k ≤ n.index := by
    intro n hn
    have hn : some n = (d.addIdentifier name).2 := by simpa [content, Content.children] using hn
    exact le_index_of_addIdentifier hb hk hn
  exact (hname.append (laidOut_add kind 0 0 hname.grown.balanced hchildren)).forget

theorem addEach_laidOut {α : Type} {add : Draft → α → Draft × NodeRef}
    (h : ∀ d x, d.arena.Balanced → k ≤ d.arena.nodes.size →
      LaidOut k d (add d x).1 [(add d x).2] [])
    (d : Draft) (l : List α) (hb : d.arena.Balanced) (hk : k ≤ d.arena.nodes.size) :
    LaidOut k d (addEach add d l).1 (addEach add d l).2 [] := by
  induction l generalizing d with
  | nil => exact .refl k hb
  | cons x l ih =>
    have hfirst := h d x hb hk
    exact hfirst.append
      (ih (add d x).1 hfirst.grown.balanced (Nat.le_trans hk hfirst.grown.size_le))

theorem length_addEach {α : Type} (add : Draft → α → Draft × NodeRef) (d : Draft) (l : List α) :
    (addEach add d l).2.length = l.length := by
  induction l generalizing d with
  | nil => rfl
  | cons x l ih => exact congrArg Nat.succ (ih _)

theorem addReference_laidOut (target : String) (hb : d.arena.Balanced)
    (hk : k ≤ d.arena.nodes.size) :
    ∃ r, LaidOut k d (d.addReference target).1 [(d.addReference target).2] [r] ∧
      r.target = target ∧ r.reference = (d.addReference target).2 := by
  have hname := addIdentifier_laidOut k d target hb
  let expression := (d.addIdentifier target).2
  let content : Content := .typeApplication { expression, arguments := none }
  have hchildren : ∀ n, some n ∈ content.children → k ≤ n.index := by
    intro n hn
    have hn : some n = expression := by simpa [content, Content.children] using hn
    exact le_index_of_addIdentifier hb hk hn
  have hadd := laidOut_add .expressionWithTypeArguments 0 0 hname.grown.balanced hchildren
  have hboth := (hname.append hadd).forget
  refine ⟨⟨(d.addReference target).2, expression, target⟩, ⟨rfl, hboth.grown, hboth.fresh, ?_⟩,
    rfl, rfl⟩
  intro hsize
  have hlt := Nat.lt_of_le_of_lt hadd.grown.size_le hsize
  have hd := Nat.lt_of_le_of_lt hname.grown.size_le hlt
  have htext : (d.addIdentifier target).1.arena.identifierText? expression = some target :=
    Arena.identifierText?_eq_some_iff.mpr ⟨_, Arena.content?_next _ _ hb hd rfl, rfl⟩
  have hreference : (d.addReference target).1.arena.content? (d.addReference target).2 =
      some content :=
    Arena.content?_next 0 0 hname.grown.balanced hlt rfl
  refine ⟨(hboth.holds hsize).nodup, (hboth.holds hsize).plain, fun r hr => ?_⟩
  obtain rfl := List.mem_singleton.mp hr
  exact ⟨expression, hreference, hadd.grown.identifierText? htext⟩

theorem addReferences_laidOut (d : Draft) (targets : List String) (hb : d.arena.Balanced)
    (hk : k ≤ d.arena.nodes.size) :
    ∃ pending, LaidOut k d (addEach addReference d targets).1 (addEach addReference d targets).2
        pending ∧ pending.map (·.target) = targets ∧
      pending.map (·.reference) = (addEach addReference d targets).2 := by
  induction targets generalizing d with
  | nil => exact ⟨[], .refl k hb, rfl, rfl⟩
  | cons target targets ih =>
    obtain ⟨r, hfirst, htarget, hreference⟩ := addReference_laidOut target hb hk
    obtain ⟨pending, hrest, htargets, hreferences⟩ :=
      ih (d.addReference target).1 hfirst.grown.balanced (Nat.le_trans hk hfirst.grown.size_le)
    refine ⟨r :: pending, hfirst.append hrest, ?_, ?_⟩
    · rw [List.map_cons, htarget, htargets]
    · rw [List.map_cons, hreference, hreferences]
      rfl

theorem addClause_laidOut (d : Draft) (token : Kind) (targets : List String)
    (hb : d.arena.Balanced) (hk : k ≤ d.arena.nodes.size) :
    ∃ pending, LaidOut k d (d.addClause token targets).1 (d.addClause token targets).2 pending ∧
      pending.map (·.target) = targets ∧
      ((d.addClause token targets).1.arena.nodes.size < 4294967295 →
        (d.addClause token targets).1.arena.Clauses (d.addClause token targets).2
          (pending.map (·.reference))) := by
  by_cases hempty : targets = []
  · subst hempty
    exact ⟨[], .refl k hb, rfl, fun _ => .nil⟩
  · obtain ⟨pending, htypes, htargets, hreferences⟩ := addReferences_laidOut d targets hb hk
    let content : Content := .heritageClause { token, types := (addEach addReference d targets).2 }
    have hchildren : ∀ n, some n ∈ content.children → k ≤ n.index :=
      fun n hn => Nat.le_trans hk (htypes.fresh n hn)
    have hadd := laidOut_add .heritageClause 0 0 htypes.grown.balanced hchildren
    have hboth := (htypes.append hadd).forget
    rw [List.append_nil] at hboth
    have heq : d.addClause token targets =
        (((addEach addReference d targets).1.addNode .heritageClause content).1,
          [(addEach addReference d targets).1.arena.next]) := by
      rw [addClause, if_neg (by simpa using hempty)]
      rfl
    rw [heq]
    refine ⟨pending, hboth, htargets, fun hsize => ?_⟩
    have hlt := Nat.lt_of_le_of_lt hadd.grown.size_le hsize
    rw [hreferences]
    exact .singleton (Arena.content?_next 0 0 htypes.grown.balanced hlt rfl)

theorem getD_listed (nodes : NodeList) : (listed nodes).getD [] = nodes := by
  cases nodes <;> rfl

structure Outlined (spec : DeclarationSpec) (d d' : Draft) (n : NodeRef) (members : NodeList)
    (pending : List PendingReference) : Prop where
  frame : d' = { d with arena := d'.arena, pending := d.pending ++ pending }
  targets : pending.map (·.target) = spec.bases ++ spec.implements
  grown : d.arena.Grown d.arena.nodes.size d'.arena
  size_lt : d.arena.nodes.size < d'.arena.nodes.size
  new : ∀ m ∈ n :: members, d.arena.node? m = none
  length : members.length = spec.members.length
  carries : d'.arena.nodes.size < 4294967295 →
    d'.arena.Carries spec.exportContext n members pending

section Frame

variable {spec : DeclarationSpec} {d' : Draft} {n : NodeRef} {members : NodeList}
  {pending : List PendingReference}

theorem Outlined.bindings_eq (h : Outlined spec d d' n members pending) :
    d'.bindings = d.bindings := by
  rw [h.frame]

theorem Outlined.statements_eq (h : Outlined spec d d' n members pending) :
    d'.statements = d.statements := by
  rw [h.frame]

theorem Outlined.declared_eq (h : Outlined spec d d' n members pending) :
    d'.declared = d.declared := by
  rw [h.frame]

theorem Outlined.pending_eq (h : Outlined spec d d' n members pending) :
    d'.pending = d.pending ++ pending := by
  rw [h.frame]

end Frame

/-- The declaration itself comes last, as the parent of its parts. -/
theorem outlined_of_parts {spec : DeclarationSpec} (kind : Kind) (content : Content)
    {parts members : NodeList} {pending : List PendingReference}
    (hparts : LaidOut d.arena.nodes.size d d₁ (parts ++ members) pending)
    (hkind : Shape.ofKind? kind = some content.shape)
    (hchildren : content.children = parts ++ members) (hmembers : content.memberNodes = members)
    (hclauses : d₁.arena.nodes.size < 4294967295 →
      d₁.arena.Clauses (content.heritageClauses?.getD []) (pending.map (·.reference)))
    (htargets : pending.map (·.target) = spec.bases ++ spec.implements)
    (hlength : members.length = spec.members.length) :
    Outlined spec d
      { d₁ with
        arena := (d₁.arena.add kind 0 0 content).1.addFlags d₁.arena.next
          (if spec.exportContext then NodeFlags.exportContext else 0) }
      d₁.arena.next members pending := by
  let flags : UInt32 := if spec.exportContext then NodeFlags.exportContext else 0
  let a := d₁.arena
  let b := (a.add kind 0 0 content).1
  have hadd : a.Grown d.arena.nodes.size b := by
    refine Arena.grown_add kind 0 0 hparts.grown.balanced fun n hn => hparts.fresh n ?_
    rwa [← hchildren]
  have hnew : ∀ id, a.next = some id → a.nodes.size ≤ id.index :=
    fun id hid => Nat.le_of_eq (Arena.index_of_next hid).symm
  have hflagged : a.Grown d.arena.nodes.size (b.addFlags a.next flags) :=
    hadd.addFlags (Arena.node?_eq_none hnew) flags
  have hsize : (b.addFlags a.next flags).nodes.size = a.nodes.size + 1 :=
    (b.size_nodes_addFlags a.next flags).trans (a.size_nodes_add kind 0 0 content)
  have hle : d.arena.nodes.size ≤ a.nodes.size := hparts.grown.size_le
  refine ⟨?_, htargets, hparts.grown.trans hflagged, ?_, ?_, hlength, fun hlt => ?_⟩
  · rw [hparts.frame]
  · change d.arena.nodes.size < (b.addFlags a.next flags).nodes.size
    omega
  · intro m hm
    apply Arena.node?_eq_none
    rintro id rfl
    rcases List.mem_cons.mp hm with hm | hm
    · exact Nat.le_trans hle (hnew id hm.symm)
    · exact hparts.fresh id (List.mem_append_right parts hm)
  · have ha : a.nodes.size < 4294967295 := by
      change (b.addFlags a.next flags).nodes.size < 4294967295 at hlt
      omega
    have hholds := hparts.forget.holds ha
    refine ⟨⟨content, ?_, hmembers, hflagged.clauses (hclauses ha)⟩, ?_, hflagged.holds hholds, ?_,
      ?_⟩
    · change (b.addFlags a.next flags).content? a.next = some content
      rw [Arena.content?_addFlags]
      exact Arena.content?_next 0 0 hparts.grown.balanced ha hkind
    · have hnode : b.node? a.next = _ := Arena.node?_next kind 0 0 content ha
      rw [Arena.next_eq ha] at hnode
      change ∃ node, (b.addFlags a.next flags).node? a.next = some node ∧ node.flags = flags
      rw [Arena.next_eq ha, Arena.node?_addFlags, if_pos rfl, hnode]
      exact ⟨_, rfl, UInt32.zero_or⟩
    · intro m hm
      obtain ⟨id, rfl, hid⟩ := (hholds.plain m hm).exists_id
      change (b.addFlags a.next flags).parent (some id) = a.next
      have hchild : some id ∈ content.children := hchildren ▸ List.mem_append_right parts hm
      rw [Arena.parent_addFlags, Arena.parent_add hparts.grown.balanced,
        if_pos ⟨hchild, Nat.le_of_lt hid⟩]
    · -- no node is its own child: the parts have been there before it
      change (b.addFlags a.next flags).parent a.next = none
      have hnot : some ⟨a.nodes.size, ha⟩ ∉ content.children := by
        intro hchild
        obtain ⟨id, hid, hlt⟩ := ((hparts.holds ha).plain _ (hchildren ▸ hchild)).exists_id
        cases hid
        exact Nat.lt_irrefl _ hlt
      rw [Arena.parent_addFlags, Arena.next_eq ha, Arena.parent_add hparts.grown.balanced,
        if_neg fun h => hnot h.1]
      exact Arena.parent_eq_none hparts.grown.balanced (Nat.le_refl a.nodes.size)

theorem layOut_outlined (d : Draft) (isClass : Bool) (spec : DeclarationSpec)
    (hb : d.arena.Balanced) : ∃ pending, Outlined spec d (d.layOut isClass spec).1
      (d.layOut isClass spec).2.1 (d.layOut isClass spec).2.2 pending := by
  let modifiers := addEach addToken d spec.modifiers
  let name := modifiers.1.addIdentifier spec.name
  let bases := name.1.addClause .extendsKeyword spec.bases
  let implements := bases.1.addClause .implementsKeyword spec.implements
  let kind : Kind := if isClass then .propertyDeclaration else .propertySignature
  let members := addEach (addMember kind) implements.1 spec.members
  have hmodifiers : LaidOut d.arena.nodes.size d modifiers.1 modifiers.2 [] :=
    addEach_laidOut (fun d x hb _ => addToken_laidOut _ d x hb) d _ hb (Nat.le_refl _)
  have hname := hmodifiers.append
    (addIdentifier_laidOut d.arena.nodes.size modifiers.1 spec.name hmodifiers.grown.balanced)
  obtain ⟨r, hbases, htargets, hclauses⟩ := addClause_laidOut name.1 .extendsKeyword spec.bases
    hname.grown.balanced hname.grown.size_le
  have hbases' := hname.append hbases
  obtain ⟨r', himplements, htargets', hclauses'⟩ := addClause_laidOut bases.1 .implementsKeyword
    spec.implements hbases'.grown.balanced hbases'.grown.size_le
  have himplements' := hbases'.append himplements
  have hmembers : LaidOut d.arena.nodes.size implements.1 members.1 members.2 [] :=
    addEach_laidOut (fun _ x hb hk => addMember_laidOut x hb hk) implements.1 spec.members
      himplements'.grown.balanced himplements'.grown.size_le
  have hall := himplements'.append hmembers
  simp only [List.append_nil, List.nil_append] at hall
  let content : ClassLike :=
    { modifiers := listed modifiers.2, name := name.2,
      heritageClauses := listed (bases.2 ++ implements.2), members := members.2 }
  have hchildren : content.modifiers.getD [] ++ content.name :: content.heritageClauses.getD [] ++
      content.members = modifiers.2 ++ [name.2] ++ bases.2 ++ implements.2 ++ members.2 := by
    simp [content, getD_listed]
  have hlinked : members.1.arena.nodes.size < 4294967295 → members.1.arena.Clauses
      (content.heritageClauses.getD []) ((r ++ r').map (·.reference)) := by
    intro hsize
    have himplements_size := Nat.lt_of_le_of_lt hmembers.grown.size_le hsize
    have hbases_size := Nat.lt_of_le_of_lt himplements.grown.size_le himplements_size
    have hboth := (himplements.grown.clauses (hclauses hbases_size)).append
      (hclauses' himplements_size)
    rw [List.map_append, getD_listed]
    exact hmembers.grown.clauses hboth
  have htargets : (r ++ r').map (·.target) = spec.bases ++ spec.implements := by
    rw [List.map_append, htargets, htargets']
  have hlength : members.2.length = spec.members.length := length_addEach _ _ _
  refine ⟨r ++ r', ?_⟩
  cases isClass with
  | true =>
    exact outlined_of_parts .classDeclaration (.classLike content) hall rfl hchildren rfl hlinked
      htargets hlength
  | false =>
    exact outlined_of_parts .interfaceDeclaration (.interface content) hall rfl hchildren rfl
      hlinked htargets hlength

end Draft

end TypeAtlas
