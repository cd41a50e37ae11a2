import TypeAtlas.Proofs.Chain
import TypeAtlas.Proofs.Tree.Ancestry
import TypeAtlas.Symbols.Context

/-! What upward walks find in any tree, also where parents form a circle. A walk keeps no record of
where it has been and only ends after so many steps, but in that many steps it has come to all nodes
that can be reached. -/

namespace TypeAtlas

namespace Arena

section Definitions

variable (a : Arena)

def StepsUp (n p : NodeId) : Prop :=
  (a.node? (some n)).isSome ∧ a.IsParent n p

/-- An existing node at the start or on the way up from there. -/
def Reaches (start : NodeRef) (m : NodeId) : Prop :=
  ∃ n, start = some n ∧ Relation.ReflTransGen a.StepsUp n m ∧ (a.node? (some m)).isSome

/-- A source file on the way up that is not above another one. -/
def FirstSourceFile (start : NodeRef) (file : NodeId) : Prop :=
  ∃ n k, start = some n ∧ Chain a.StepsUp k n file ∧ a.kind? (some file) = some .sourceFile ∧
    ∀ j < k, ∀ m, Chain a.StepsUp j n m → a.kind? (some m) ≠ some .sourceFile

end Definitions

variable {a : Arena} {n m : NodeId} {start : NodeRef} {k steps : Nat}

theorem index_injective : Function.Injective (Row.index : NodeId → Nat) := by
  rintro ⟨i, hi⟩ ⟨j, hj⟩ h
  obtain rfl : i = j := h
  rfl

theorem index_lt_of_isSome (h : (a.node? (some n)).isSome) : n.index < a.nodes.size := by
  obtain ⟨node, hnode⟩ := Option.isSome_iff_exists.mp h
  exact index_lt_of_node? hnode

theorem isSome_node?_of_kind? {kind : Kind} (h : a.kind? (some n) = some kind) :
    (a.node? (some n)).isSome := by
  obtain ⟨node, hnode, -⟩ := Option.map_eq_some_iff.mp h
  exact Option.isSome_of_eq_some hnode

theorem getElem?_climb_zero :
    (a.climb (steps + 1) (some n))[0]? = some m ↔ n = m ∧ (a.node? (some m)).isSome := by
  cases hn : a.node? (some n) with
  | none =>
    simp only [climb, hn, Option.isSome_none, Bool.false_eq_true, if_false, List.getElem?_nil,
      reduceCtorEq, false_iff]
    rintro ⟨rfl, hm⟩
    simp [hn] at hm
  | some node =>
    rw [climb_succ hn, List.getElem?_cons_zero, Option.some.injEq]
    refine (and_iff_left_of_imp ?_).symm
    rintro rfl
    exact Option.isSome_of_eq_some hn

theorem getElem?_climb_succ :
    (a.climb (steps + 1) (some n))[k + 1]? = some m ↔
      ∃ p, a.StepsUp n p ∧ (a.climb steps (some p))[k]? = some m := by
  cases hn : a.node? (some n) with
  | none => simp [climb, StepsUp, hn]
  | some node =>
    rw [climb_succ hn, List.getElem?_cons_succ]
    cases hp : a.parent (some n) with
    | none => simp [climb_none, StepsUp, IsParent, hp]
    | some p => simp [StepsUp, IsParent, hn, hp]

theorem getElem?_climb :
    (a.climb steps (some n))[k]? = some m ↔
      k < steps ∧ Chain a.StepsUp k n m ∧ (a.node? (some m)).isSome := by
  induction steps generalizing n k with
  | zero => simp [climb]
  | succ steps ih =>
    cases k with
    | zero =>
      rw [getElem?_climb_zero]
      constructor
      · rintro ⟨rfl, hn⟩
        exact ⟨Nat.succ_pos steps, .nil, hn⟩
      · rintro ⟨-, hchain, hm⟩
        cases hchain
        exact ⟨rfl, hm⟩
    | succ k =>
      simp only [getElem?_climb_succ, ih]
      constructor
      · rintro ⟨p, hp, hk, hchain, hm⟩
        exact ⟨Nat.succ_lt_succ hk, .cons hp hchain, hm⟩
      · rintro ⟨hk, hchain, hm⟩
        cases hchain with
        | cons first rest => exact ⟨_, first, Nat.lt_of_succ_lt_succ hk, rest, hm⟩

/-- A node that can be reached is reached before the steps run out. -/
theorem exists_chain_lt (hsize : a.nodes.size ≤ maxClimb) (h : Chain a.StepsUp k n m)
    (hm : (a.node? (some m)).isSome) : ∃ j < maxClimb, Chain a.StepsUp j n m := by
  have hstep : ∀ x y, a.StepsUp x y → x.index < a.nodes.size :=
    fun x y hxy => index_lt_of_isSome hxy.1
  obtain ⟨j, hj, hchain⟩ := h.exists_lt index_injective hstep (index_lt_of_isSome hm)
  exact ⟨j, Nat.lt_of_lt_of_le hj hsize, hchain⟩

theorem mem_ancestry_iff (hsize : a.nodes.size ≤ maxClimb) :
    m ∈ a.ancestry start ↔ a.Reaches start m := by
  cases start with
  | none => simp [ancestry, climb_none, Reaches]
  | some n =>
    simp only [ancestry, List.mem_iff_getElem?, getElem?_climb, Reaches, Option.some.injEq,
      exists_eq_left', reflTransGen_iff_chain]
    constructor
    · rintro ⟨k, -, hchain, hm⟩
      exact ⟨⟨k, hchain⟩, hm⟩
    · rintro ⟨⟨k, hchain⟩, hm⟩
      obtain ⟨j, hj, hchain⟩ := exists_chain_lt hsize hchain hm
      exact ⟨j, hj, hchain, hm⟩

theorem sourceFileOf?_eq_some_iff (hsize : a.nodes.size ≤ maxClimb) {file : NodeId} :
    a.sourceFileOf? start = some file ↔ a.FirstSourceFile start file := by
  cases start with
  | none => simp [sourceFileOf?, ancestry, climb_none, FirstSourceFile]
  | some n =>
    rw [sourceFileOf?, List.find?_eq_some_iff_getElem]
    simp only [decide_eq_true_eq, Bool.not_eq_true', decide_eq_false_iff_not]
    constructor
    · rintro ⟨hfile, k, hk, hat, hbefore⟩
      obtain ⟨hlt, hchain, -⟩ := getElem?_climb.mp (List.getElem?_eq_some_iff.mpr ⟨hk, hat⟩)
      refine ⟨n, k, rfl, hchain, hfile, fun j hj m hm hkind => ?_⟩
      have hjm := getElem?_climb.mpr ⟨hj.trans hlt, hm, isSome_node?_of_kind? hkind⟩
      obtain ⟨hjlt, rfl⟩ := List.getElem?_eq_some_iff.mp hjm
      exact hbefore j hj hkind
    · rintro ⟨n', k, hn, hchain, hfile, hbefore⟩
      obtain rfl := Option.some.inj hn
      have hsome := isSome_node?_of_kind? hfile
      have hk : k < maxClimb := by
        obtain ⟨j, hj, hshort⟩ := exists_chain_lt hsize hchain hsome
        by_contra hlong
        exact hbefore j (by omega) file hshort hfile
      obtain ⟨hlt, hat⟩ := List.getElem?_eq_some_iff.mp (getElem?_climb.mpr ⟨hk, hchain, hsome⟩)
      refine ⟨hfile, k, hlt, hat, fun j hj => ?_⟩
      have hj' : (a.climb maxClimb (some n))[j]? = some (a.climb maxClimb (some n))[j] :=
        List.getElem?_eq_getElem _
      exact hbefore j hj _ (getElem?_climb.mp hj').2.1

theorem sourceFileOf?_eq_none_iff (hsize : a.nodes.size ≤ maxClimb) :
    a.sourceFileOf? start = none ↔
      ∀ m, a.Reaches start m → a.kind? (some m) ≠ some .sourceFile := by
  simp [sourceFileOf?, mem_ancestry_iff hsize]

end Arena

namespace Symbol

variable {a : Arena}

theorem inExportContext_iff (hsize : a.nodes.size ≤ Arena.maxClimb) (s : Symbol) :
    s.inExportContext a = true ↔ ∃ m node, a.Reaches s.valueDeclaration m ∧
      a.node? (some m) = some node ∧ node.flags &&& NodeFlags.exportContext ≠ 0 := by
  simp only [inExportContext, List.any_eq_true, Arena.mem_ancestry_iff hsize, Option.any_eq_true,
    bne_iff_ne, exists_and_left]

theorem isUnder_iff (hsize : a.nodes.size ≤ Arena.maxClimb) (s : Symbol) (flags : Modifiers) :
    s.isUnder a flags = true ↔
      ∃ m, a.Reaches s.valueDeclaration m ∧ a.hasModifier (some m) flags = true := by
  simp only [isUnder, List.any_eq_true, Arena.mem_ancestry_iff hsize]

end Symbol

namespace Arena

/-- In a tree with no more nodes than the longest way up has steps, and with any parents, upward
walks find exactly what can be reached over existing nodes: flags and modifiers of the nodes there,
and the first source file. -/
theorem upward_walks_decide_reach (a : Arena) (hsize : a.nodes.size ≤ 10000) :
    (∀ s : Symbol, s.inExportContext a = true ↔ ∃ m node, a.Reaches s.valueDeclaration m ∧
      a.node? (some m) = some node ∧ node.flags &&& NodeFlags.exportContext ≠ 0) ∧
    (∀ s : Symbol, s.inAmbientContext a = true ↔
      ∃ m, a.Reaches s.valueDeclaration m ∧ a.hasModifier (some m) Modifiers.ambient = true) ∧
    (∀ s : Symbol, s.isExported a = true ↔
      ∃ m, a.Reaches s.valueDeclaration m ∧ a.hasModifier (some m) Modifiers.export = true) ∧
    (∀ n file, a.sourceFileOf? n = some file ↔ a.FirstSourceFile n file) ∧
    ∀ n, a.sourceFileOf? n = none ↔
      ∀ m, a.Reaches n m → a.kind? (some m) ≠ some .sourceFile :=
  ⟨fun s => s.inExportContext_iff hsize, fun s => s.isUnder_iff hsize _,
    fun s => s.isUnder_iff hsize _, fun _ _ => sourceFileOf?_eq_some_iff hsize,
    fun _ => sourceFileOf?_eq_none_iff hsize⟩

/-- Two classes that are parents of each other, one of them with exported members, and a source file
without a link. -/
def ring : Arena :=
  { nodes := #[⟨.classDeclaration, 0, 0, 0, none⟩,
      ⟨.classDeclaration, NodeFlags.exportContext, 0, 0, none⟩, ⟨.sourceFile, 0, 0, 0, none⟩]
    links := #[⟨Row.ofIndex 1, 0⟩, ⟨Row.ofIndex 0, 0⟩] }

theorem index_lt_of_ring_parent {n p : NodeId} (h : ring.IsParent n p) : p.index < 2 := by
  match n with
  | ⟨0, _⟩ | ⟨1, _⟩ =>
    obtain rfl := Option.some.inj h
    decide
  | ⟨i + 2, _⟩ => cases h

theorem ring_decided :
    ring.nodes.size ≤ 10000 ∧
      (∀ s : Symbol, s.valueDeclaration = Row.ofIndex 0 → s.inExportContext ring = true) ∧
      ring.sourceFileOf? (Row.ofIndex 0) = none := by
  have hsize : ring.nodes.size ≤ 10000 := by decide
  obtain ⟨hexport, -, -, -, hfile⟩ := upward_walks_decide_reach ring hsize
  refine ⟨hsize, fun s hs => (hexport s).mpr ?_, (hfile _).mpr ?_⟩
  · have hstep : ring.StepsUp ⟨0, by decide⟩ ⟨1, by decide⟩ := ⟨rfl, rfl⟩
    exact ⟨⟨1, by decide⟩, _, ⟨_, hs, .single hstep, rfl⟩, rfl, by decide⟩
  · rintro m ⟨n, hn, hreach, -⟩
    obtain rfl : n = ⟨0, by decide⟩ := (Option.some.inj hn).symm
    have hlow : m.index < 2 := by
      cases hreach with
      | refl => decide
      | tail _ hstep => exact index_lt_of_ring_parent hstep.2
    match m with
    | ⟨0, _⟩ | ⟨1, _⟩ => exact nofun
    | ⟨i + 2, _⟩ => exact absurd hlow (by simp)

/-- A class with exported members, and a link to it for a node that does not exist. -/
def surplusLink : Arena :=
  { nodes := #[⟨.classDeclaration, NodeFlags.exportContext, 0, 0, none⟩]
    links := #[⟨none, 0⟩, ⟨Row.ofIndex 0, 0⟩] }

/-- The link of a node that does not exist leads to an existing node, but no walk takes it. -/
theorem surplusLink_not_taken :
    surplusLink.nodes.size ≤ 10000 ∧
      ¬ ∀ s : Symbol, s.inExportContext surplusLink = true ↔ ∃ n m node,
        s.valueDeclaration = some n ∧ Relation.ReflTransGen surplusLink.IsParent n m ∧
          surplusLink.node? (some m) = some node ∧ node.flags &&& NodeFlags.exportContext ≠ 0 := by
  refine ⟨by decide, fun h => ?_⟩
  let s : Symbol :=
    { flags := SymbolFlags.classLike, name := "A", valueDeclaration := Row.ofIndex 1 }
  have hstep : surplusLink.IsParent ⟨1, by decide⟩ ⟨0, by decide⟩ := rfl
  have hin := (h s).mpr ⟨⟨1, by decide⟩, ⟨0, by decide⟩, _, rfl, .single hstep, rfl, by decide⟩
  have hout : s.inExportContext surplusLink = false := by decide
  rw [hout] at hin
  cases hin

end Arena

end TypeAtlas
