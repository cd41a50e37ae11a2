import TypeAtlas.Tree.Declarations
import TypeAtlas.Tree.NodeFlags
import Mathlib.Order.Basic
import Mathlib.Tactic.SplitIfs

/-! Growing trees. A new node leaves the headers and contents of all other nodes as they are, and
the parents of all nodes but its children. -/

namespace TypeAtlas

namespace Row

theorem ofIndex_of_lt {sheet : Sheet} {i : Nat} (h : i < 4294967295) :
    (ofIndex i : Option (Row sheet)) = some ⟨i, h⟩ := by
  simp [ofIndex, h]

theorem index_of_ofIndex {sheet : Sheet} {i : Nat} {row : Row sheet} (h : ofIndex i = some row) :
    row.index = i := by
  unfold ofIndex at h
  split at h
  · cases h
    rfl
  · cases h

end Row

namespace Records

theorem map_getElem?_push {α β : Type} {xs : Array α} {f : α → β} {i : Nat} {x : α} {y : β}
    (h : xs[i]?.map f = some y) : (xs.push x)[i]?.map f = some y := by
  obtain ⟨z, hz, rfl⟩ := Option.map_eq_some_iff.mp h
  obtain ⟨hi, -⟩ := Array.getElem?_eq_some_iff.mp hz
  rw [Array.getElem?_push, if_neg (Nat.ne_of_lt hi), hz]
  rfl

theorem get?_push {r : Records} {s : Shape} {i : Nat} {c x : Content}
    (h : r.get? s i = some x) : (r.push c).get? s i = some x := by
  cases c <;> cases s <;> first | exact h | exact map_getElem?_push h

theorem get?_push_self (r : Records) (c : Content) :
    (r.push c).get? c.shape (r.size c.shape) = some c := by
  cases c <;> simp [push, get?, size, Content.shape]

theorem size_push_le (r : Records) (c : Content) (s : Shape) :
    (r.push c).size s ≤ r.size s + 1 := by
  cases c <;> cases s <;> first | exact Nat.le_succ _ | exact Nat.le_of_eq (Array.size_push _)

end Records

namespace Arena

/-- Every node has a link, and no shape has more records than there are nodes. -/
structure Balanced (a : Arena) : Prop where
  links : a.links.size = a.nodes.size
  records : ∀ s, a.records.size s ≤ a.nodes.size

/-- `a` has grown to `b`, and no node below `k` has got another parent. -/
structure Grown (k : Nat) (a b : Arena) : Prop where
  size_le : a.nodes.size ≤ b.nodes.size
  balanced : b.Balanced
  node : ∀ {n node}, a.node? n = some node → b.node? n = some node
  content : ∀ {n c}, a.content? n = some c → b.content? n = some c
  parent : ∀ n : NodeId, n.index < k → b.parent (some n) = a.parent (some n)

theorem Grown.refl {a : Arena} (k : Nat) (h : a.Balanced) : Grown k a a :=
  ⟨Nat.le_refl _, h, id, id, fun _ _ => rfl⟩

theorem Grown.trans {k : Nat} {a b c : Arena} (h : Grown k a b) (h' : Grown k b c) :
    Grown k a c where
  size_le := Nat.le_trans h.size_le h'.size_le
  balanced := h'.balanced
  node hn := h'.node (h.node hn)
  content hc := h'.content (h.content hc)
  parent n hn := (h'.parent n hn).trans (h.parent n hn)

theorem balanced_empty : empty.Balanced :=
  ⟨rfl, fun s => by cases s <;> exact Nat.le_refl 0⟩

theorem nodes_setParent (a : Arena) (n q : NodeRef) : (a.setParent n q).nodes = a.nodes := by
  cases n <;> rfl

theorem records_setParent (a : Arena) (n q : NodeRef) :
    (a.setParent n q).records = a.records := by
  cases n <;> rfl

theorem size_links_setParent (a : Arena) (n q : NodeRef) :
    (a.setParent n q).links.size = a.links.size := by
  cases n <;> simp [setParent]

theorem parent_setParent (a : Arena) (m q : NodeRef) (n : NodeId) :
    (a.setParent m q).parent (some n) =
      if m = some n ∧ n.index < a.links.size then q else a.parent (some n) := by
  cases m with
  | none => simp [setParent]
  | some m =>
    by_cases hm : m = n
    · subst hm
      by_cases hn : m.index < a.links.size
      · simp [setParent, parent, link?, Array.getElem?_modify, hn]
      · simp [setParent, parent, link?, Array.getElem?_modify, hn]
    · have hi : m.index ≠ n.index := fun h => hm (by cases m; cases n; simpa using h)
      simp [setParent, parent, link?, Array.getElem?_modify, hm, hi]

theorem nodes_setParents (a : Arena) (l : NodeList) (q : NodeRef) :
    (a.setParents l q).nodes = a.nodes := by
  induction l generalizing a with
  | nil => rfl
  | cons n l ih => exact (ih _).trans (nodes_setParent a n q)

theorem records_setParents (a : Arena) (l : NodeList) (q : NodeRef) :
    (a.setParents l q).records = a.records := by
  induction l generalizing a with
  | nil => rfl
  | cons n l ih => exact (ih _).trans (records_setParent a n q)

theorem size_links_setParents (a : Arena) (l : NodeList) (q : NodeRef) :
    (a.setParents l q).links.size = a.links.size := by
  induction l generalizing a with
  | nil => rfl
  | cons n l ih => exact (ih _).trans (size_links_setParent a n q)

theorem parent_setParents (a : Arena) (l : NodeList) (q : NodeRef) (n : NodeId) :
    (a.setParents l q).parent (some n) =
      if some n ∈ l ∧ n.index < a.links.size then q else a.parent (some n) := by
  induction l generalizing a with
  | nil => simp [setParents]
  | cons m l ih =>
    change ((a.setParent m q).setParents l q).parent (some n) = _
    rw [ih, size_links_setParent, parent_setParent]
    by_cases hm : m = some n
    · by_cases hn : n.index < a.links.size <;> simp [hm, hn]
    · simp [hm, Ne.symm hm]

theorem climb_none (a : Arena) (steps : Nat) : a.climb steps none = [] := by
  cases steps <;> rfl

theorem climb_succ {a : Arena} {n : NodeId} {node : Node} (h : a.node? (some n) = some node)
    (steps : Nat) : a.climb (steps + 1) (some n) = n :: a.climb steps (a.parent (some n)) := by
  simp [climb, h]

theorem next_eq {a : Arena} (h : a.nodes.size < 4294967295) :
    a.next = some ⟨a.nodes.size, h⟩ :=
  Row.ofIndex_of_lt h

theorem node?_eq_none {a : Arena} {n : NodeRef} (h : ∀ id, n = some id → a.nodes.size ≤ id.index) :
    a.node? n = none := by
  cases n with
  | none => rfl
  | some id => exact Array.getElem?_eq_none (h id rfl)

theorem index_of_next {a : Arena} {n : NodeId} (h : a.next = some n) : n.index = a.nodes.size :=
  Row.index_of_ofIndex h

theorem index_lt_of_node? {a : Arena} {n : NodeId} {node : Node}
    (h : a.node? (some n) = some node) : n.index < a.nodes.size := by
  obtain ⟨hn, -⟩ := Array.getElem?_eq_some_iff.mp h
  exact hn

theorem parent_eq_none {a : Arena} (h : a.Balanced) {n : NodeId} (hn : a.nodes.size ≤ n.index) :
    a.parent (some n) = none := by
  have hnone : a.links[n.index]? = none := Array.getElem?_eq_none (h.links ▸ hn)
  simp [parent, link?, hnone]

theorem nodes_add (a : Arena) (k : Kind) (s e : UInt32) (c : Content) :
    (a.add k s e c).1.nodes =
      a.nodes.push ⟨k, 0, s, e, Row.ofIndex (a.records.size c.shape)⟩ := by
  simp only [add, nodes_setParents]
  rfl

theorem records_add (a : Arena) (k : Kind) (s e : UInt32) (c : Content) :
    (a.add k s e c).1.records = a.records.push c := by
  simp only [add, records_setParents]
  rfl

theorem size_nodes_add (a : Arena) (k : Kind) (s e : UInt32) (c : Content) :
    (a.add k s e c).1.nodes.size = a.nodes.size + 1 := by
  rw [nodes_add, Array.size_push]

theorem node?_of_push {a b : Arena} {x node : Node} {n : NodeRef}
    (hb : b.nodes = a.nodes.push x) (h : a.node? n = some node) : b.node? n = some node := by
  obtain ⟨m, rfl, hm⟩ := Option.bind_eq_some_iff.mp h
  obtain ⟨hlt, -⟩ := Array.getElem?_eq_some_iff.mp hm
  simp only [node?, Option.bind_some, hb]
  rw [Array.getElem?_push, if_neg (Nat.ne_of_lt hlt), hm]

theorem content?_eq_some_iff {a : Arena} {n : NodeRef} {c : Content} :
    a.content? n = some c ↔ ∃ node shape row, a.node? n = some node ∧
      Shape.ofKind? node.kind = some shape ∧ node.record = some row ∧
      a.records.get? shape row.index = some c := by
  simp only [content?, contentOf?, Option.bind_eq_bind, Option.bind_eq_some_iff]
  constructor
  · rintro ⟨node, hn, shape, hs, row, hr, hc⟩
    exact ⟨node, shape, row, hn, hs, hr, hc⟩
  · rintro ⟨node, shape, row, hn, hs, hr, hc⟩
    exact ⟨node, hn, shape, hs, row, hr, hc⟩

theorem parent_pushHeader (a : Arena) (k : Kind) (s e : UInt32) (r : RecordRef) (n : NodeId) :
    (a.pushHeader k s e r).parent (some n) = a.parent (some n) := by
  simp only [parent, link?, pushHeader, Option.bind_some, Array.getElem?_push]
  split_ifs with hn
  · have hnone : a.links[n.index]? = none := by simp [hn]
    rw [hnone]
    rfl
  · rfl

theorem parent_add {a : Arena} (h : a.Balanced) (k : Kind) (s e : UInt32) (c : Content)
    (n : NodeId) : (a.add k s e c).1.parent (some n) =
      if some n ∈ c.children ∧ n.index ≤ a.nodes.size then a.next else a.parent (some n) := by
  let stored : Arena := { a with records := a.records.push c }
  have hsize : ∀ r, (stored.pushHeader k s e r).links.size = a.nodes.size + 1 := by
    simp [stored, pushHeader, h.links]
  simp only [add, parent_setParents, parent_pushHeader, hsize, Nat.lt_succ_iff, stored]
  rfl

theorem node?_next {a : Arena} (k : Kind) (s e : UInt32) (c : Content)
    (h : a.nodes.size < 4294967295) :
    (a.add k s e c).1.node? a.next =
      some ⟨k, 0, s, e, Row.ofIndex (a.records.size c.shape)⟩ := by
  simp [node?, next_eq h, nodes_add]

theorem content?_next {a : Arena} {k : Kind} {c : Content} (s e : UInt32) (ha : a.Balanced)
    (h : a.nodes.size < 4294967295) (hk : Shape.ofKind? k = some c.shape) :
    (a.add k s e c).1.content? a.next = some c := by
  have hr : a.records.size c.shape < 4294967295 := Nat.lt_of_le_of_lt (ha.records c.shape) h
  refine content?_eq_some_iff.mpr ⟨_, c.shape, ⟨_, hr⟩, node?_next k s e c h, hk,
    Row.ofIndex_of_lt hr, ?_⟩
  rw [records_add]
  exact Records.get?_push_self a.records c

theorem Balanced.add {a : Arena} (h : a.Balanced) (k : Kind) (s e : UInt32) (c : Content) :
    (a.add k s e c).1.Balanced where
  links := by
    simp only [Arena.add, size_links_setParents, nodes_setParents]
    simp [pushHeader, h.links]
  records shape := by
    have hsize := Records.size_push_le a.records c shape
    have hle := h.records shape
    rw [records_add, size_nodes_add]
    omega

theorem grown_add {a : Arena} {i : Nat} (k : Kind) (s e : UInt32) {c : Content} (ha : a.Balanced)
    (h : ∀ n, some n ∈ c.children → i ≤ n.index) : Grown i a (a.add k s e c).1 where
  size_le := by
    rw [size_nodes_add]
    omega
  balanced := ha.add k s e c
  node hn := node?_of_push (nodes_add a k s e c) hn
  content {n x} hx := by
    obtain ⟨node, shape, row, hn, hs, hr, hx⟩ := content?_eq_some_iff.mp hx
    refine content?_eq_some_iff.mpr
      ⟨node, shape, row, node?_of_push (nodes_add a k s e c) hn, hs, hr, ?_⟩
    rw [records_add]
    exact Records.get?_push hx
  parent n hn := by
    rw [parent_add ha, if_neg]
    rintro ⟨hmem, -⟩
    have := h n hmem
    omega

theorem grown_addBare {a : Arena} (i : Nat) (k : Kind) (s e : UInt32) (ha : a.Balanced) :
    Grown i a (a.addBare k s e).1 where
  size_le := by simp [addBare, pushHeader]
  balanced := by
    refine ⟨by simp [addBare, pushHeader, ha.links], fun shape => ?_⟩
    simp only [addBare, pushHeader, Array.size_push]
    exact Nat.le_succ_of_le (ha.records shape)
  node hn := node?_of_push rfl hn
  content {n x} hx := by
    obtain ⟨node, shape, row, hn, hrest⟩ := content?_eq_some_iff.mp hx
    exact content?_eq_some_iff.mpr ⟨node, shape, row, node?_of_push rfl hn, hrest⟩
  parent n _ := parent_pushHeader a k s e none n

theorem node?_addFlags (a : Arena) (m : NodeId) (flags : UInt32) (n : NodeId) :
    (a.addFlags (some m) flags).node? (some n) =
      if m = n then (a.node? (some n)).map fun node => { node with flags := node.flags ||| flags }
      else a.node? (some n) := by
  by_cases h : m = n
  · simp [addFlags, modifyNode, node?, Array.getElem?_modify, h]
  · have hi : m.index ≠ n.index := fun hi => h (by cases m; cases n; simpa using hi)
    simp [addFlags, modifyNode, node?, Array.getElem?_modify, h, hi]

theorem content?_addFlags (a : Arena) (m n : NodeRef) (flags : UInt32) :
    (a.addFlags m flags).content? n = a.content? n := by
  cases m with
  | none => rfl
  | some m =>
    cases n with
    | none => rfl
    | some n =>
      simp only [content?, node?_addFlags]
      split_ifs with h
      · cases a.node? (some n) <;> rfl
      · rfl

theorem parent_addFlags (a : Arena) (m n : NodeRef) (flags : UInt32) :
    (a.addFlags m flags).parent n = a.parent n := by
  cases m <;> rfl

theorem size_nodes_addFlags (a : Arena) (m : NodeRef) (flags : UInt32) :
    (a.addFlags m flags).nodes.size = a.nodes.size := by
  cases m <;> simp [addFlags, modifyNode]

theorem Balanced.addFlags {a : Arena} (h : a.Balanced) (m : NodeRef) (flags : UInt32) :
    (a.addFlags m flags).Balanced := by
  cases m with
  | none => exact h
  | some m =>
    have hsize := a.size_nodes_addFlags (some m) flags
    exact ⟨h.links.trans hsize.symm, fun s => hsize ▸ h.records s⟩

theorem Grown.addFlags {k : Nat} {a b : Arena} {m : NodeRef} (h : Grown k a b)
    (hm : a.node? m = none) (flags : UInt32) : Grown k a (b.addFlags m flags) := by
  cases m with
  | none => exact h
  | some m =>
    have hsize := b.size_nodes_addFlags (some m) flags
    refine ⟨hsize ▸ h.size_le, h.balanced.addFlags _ flags, ?_, ?_, ?_⟩
    · intro n node hn
      obtain ⟨id, rfl, -⟩ := Option.bind_eq_some_iff.mp hn
      have hne : m ≠ id := fun heq => by simp [← heq, hm] at hn
      rw [node?_addFlags, if_neg hne]
      exact h.node hn
    · intro n c hc
      rw [content?_addFlags]
      exact h.content hc
    · intro n hn
      rw [parent_addFlags]
      exact h.parent n hn

end Arena

end TypeAtlas
