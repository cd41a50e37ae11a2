import TypeAtlas.Proofs.Tree.Growth
import Mathlib.Data.List.Induction

/-! Trees as stores of entries that are only added. Whatever is done to a tree afterwards, a node
shows what it was made with, to the question for its shape and to no other, and its flags are those
put on it since. -/

namespace TypeAtlas

namespace Shape

theorem ofKind?_of_mem {s : Shape} (hs : s ∈ all) {k : Kind} (hk : k ∈ s.kinds) :
    ofKind? k = some s := by
  have h : (all.all fun s => s.kinds.all fun k => ofKind? k == some s) = true := by
    decide +kernel
  exact eq_of_beq (List.all_eq_true.mp (List.all_eq_true.mp h s hs) k hk)

theorem ofKind?_eq_some_iff {k : Kind} {s : Shape} : ofKind? k = some s ↔ k ∈ s.kinds := by
  constructor
  · intro h
    simpa using List.find?_some h
  · exact ofKind?_of_mem (mem_all s)

end Shape

theorem Records.shape_of_get? {r : Records} {s : Shape} {i : Nat} {c : Content}
    (h : r.get? s i = some c) : c.shape = s := by
  cases s <;> obtain ⟨d, -, rfl⟩ := Option.map_eq_some_iff.mp h <;> rfl

/-- What a node shows of itself, apart from its parent. -/
structure Entry where
  kind : Kind
  flags : UInt32 := 0
  start : UInt32
  stop : UInt32
  content : Option Content

def Entry.addFlags (x : Entry) (flags : UInt32) : Entry :=
  { x with flags := x.flags ||| flags }

theorem Entry.addFlags_zero (x : Entry) : x.addFlags 0 = x := by
  simp [addFlags]

theorem Entry.addFlags_addFlags (x : Entry) (f g : UInt32) :
    (x.addFlags f).addFlags g = x.addFlags (f ||| g) := by
  simp [addFlags, UInt32.or_assoc]

/-- A step in the making of a tree. A node with a content has a kind that belongs to its shape. -/
inductive Edit where
  | addBare (kind : Kind) (start stop : UInt32)
  | add (kind : Kind) (start stop : UInt32) (content : Content) (fits : kind ∈ content.shape.kinds)
  | addFlags (node : NodeRef) (flags : UInt32)
  | setParent (node parent : NodeRef)

namespace Edit

def added? : Edit → Option Entry
  | addBare kind start stop => some { kind, start, stop, content := none }
  | add kind start stop content _ => some { kind, start, stop, content := some content }
  | addFlags _ _ | setParent _ _ => none

def flagsOn (i : Nat) : Edit → UInt32
  | addFlags (some n) flags => if n.index = i then flags else 0
  | _ => 0

def allFlagsOn (i : Nat) (edits : List Edit) : UInt32 :=
  edits.foldr (fun e flags => e.flagsOn i ||| flags) 0

def store (entries : List Entry) (e : Edit) : List Entry :=
  entries.mapIdx (fun i x => x.addFlags (e.flagsOn i)) ++ e.added?.toList

def stored (edits : List Edit) : List Entry :=
  edits.foldl store []

theorem length_store (entries : List Entry) (e : Edit) :
    (store entries e).length = entries.length + e.added?.toList.length := by
  simp [store]

theorem getElem?_store (entries : List Entry) (e : Edit) (i : Nat) :
    (store entries e)[i]? =
      if i = entries.length then e.added? else entries[i]?.map (·.addFlags (e.flagsOn i)) := by
  rw [store, List.getElem?_append, List.length_mapIdx, List.getElem?_mapIdx]
  rcases Nat.lt_trichotomy i entries.length with h | rfl | h
  · rw [if_pos h, if_neg (Nat.ne_of_lt h)]
  · rw [if_neg (Nat.lt_irrefl _), if_pos rfl, Nat.sub_self]
    cases e.added? <;> rfl
  · rw [if_neg (Nat.lt_asymm h), if_neg (Nat.ne_of_gt h), List.getElem?_eq_none (Nat.le_of_lt h)]
    refine List.getElem?_eq_none ?_
    have hlength : e.added?.toList.length ≤ 1 := by cases e.added? <;> simp
    omega

theorem getElem?_foldl_store {entries : List Entry} {i : Nat} (h : i < entries.length)
    (edits : List Edit) :
    (edits.foldl store entries)[i]? = entries[i]?.map (·.addFlags (allFlagsOn i edits)) := by
  induction edits generalizing entries with
  | nil => simp [allFlagsOn, Entry.addFlags_zero]
  | cons e edits ih =>
    have hi : i < (store entries e).length := by
      rw [length_store]
      omega
    rw [List.foldl_cons, ih hi, getElem?_store, if_neg (Nat.ne_of_lt h), Option.map_map]
    congr 1
    funext x
    exact Entry.addFlags_addFlags x _ _

/-- An entry that a step adds is found behind those before it, with the flags put on it since. -/
theorem getElem?_stored {e : Edit} {x : Entry} (before after : List Edit)
    (h : e.added? = some x) :
    (stored (before ++ e :: after))[(stored before).length]? =
      some (x.addFlags (allFlagsOn (stored before).length after)) := by
  have hlt : (stored before).length < (store (stored before) e).length := by
    simp [length_store, h]
  rw [stored, List.foldl_append, List.foldl_cons]
  change (after.foldl store (store (stored before) e))[_]? = _
  rw [getElem?_foldl_store hlt, getElem?_store, if_pos rfl, h]
  rfl

end Edit

namespace Arena

section Definitions

variable (a : Arena)

def apply : Edit → Arena × NodeRef
  | .addBare kind start stop => a.addBare kind start stop
  | .add kind start stop content _ => a.add kind start stop content
  | .addFlags n flags => (a.addFlags n flags, none)
  | .setParent n parent => (a.setParent n parent, none)

def shown? (n : NodeRef) : Option Entry :=
  (a.node? n).map fun node =>
    { kind := node.kind, flags := node.flags, start := node.start, stop := node.stop,
      content := a.contentOf? node }

/-- The content of a node that is asked for by its shape. -/
def contentAs? (shape : Shape) (n : NodeRef) : Option Content := do
  let node ← a.node? n
  if node.kind ∈ shape.kinds then
    let row ← node.record
    a.records.get? shape row.index
  else none

/-- A tree shows the entries of a store, and their contents only to the question for their
shape. -/
structure Shows (entries : List Entry) : Prop where
  nodes : a.nodes.size = entries.length
  links : a.links.size = entries.length
  entry : ∀ n : NodeId, a.shown? (some n) = entries[n.index]?
  content : ∀ shape (n : NodeId) c, a.contentAs? shape (some n) = some c ↔
    entries[n.index]?.bind Entry.content = some c ∧ c.shape = shape

structure Sound : Prop where
  balanced : a.Balanced
  found : ∀ {n node row}, a.node? n = some node → node.record = some row →
    ∃ c, a.contentOf? node = some c

end Definitions

def built (edits : List Edit) : Arena :=
  edits.foldl (fun a e => (a.apply e).1) empty

variable {a b : Arena}

theorem contentAs?_eq_some_iff {shape : Shape} {n : NodeRef} {c : Content} :
    a.contentAs? shape n = some c ↔ a.content? n = some c ∧ c.shape = shape := by
  have hask : a.contentAs? shape n = some c ↔ ∃ node row, a.node? n = some node ∧
      node.kind ∈ shape.kinds ∧ node.record = some row ∧
        a.records.get? shape row.index = some c := by
    simp [contentAs?, Option.bind_eq_some_iff]
  rw [hask, content?_eq_some_iff]
  constructor
  · rintro ⟨node, row, hn, hk, hr, hc⟩
    exact ⟨⟨node, shape, row, hn, Shape.ofKind?_eq_some_iff.mpr hk, hr, hc⟩,
      Records.shape_of_get? hc⟩
  · rintro ⟨⟨node, s, row, hn, hs, hr, hc⟩, rfl⟩
    obtain rfl := Records.shape_of_get? hc
    exact ⟨node, row, hn, Shape.ofKind?_eq_some_iff.mp hs, hr, hc⟩

theorem content?_eq_bind_shown? (a : Arena) (n : NodeRef) :
    a.content? n = (a.shown? n).bind Entry.content := by
  cases h : a.node? n <;> simp [content?, shown?, h]

theorem node?_push {x : Node} (n : NodeId) (hb : b.nodes = a.nodes.push x) :
    b.node? (some n) = if n.index = a.nodes.size then some x else a.node? (some n) := by
  simp only [node?, Option.bind_some, hb, Array.getElem?_push]

theorem contentOf?_congr (h : b.records = a.records) (node : Node) :
    b.contentOf? node = a.contentOf? node := by
  simp only [contentOf?, h]

theorem contentOf?_eq_some_of_push {c x : Content} {node : Node}
    (hb : b.records = a.records.push c) (h : a.contentOf? node = some x) :
    b.contentOf? node = some x := by
  simp only [contentOf?, Option.bind_eq_bind, Option.bind_eq_some_iff, hb] at h ⊢
  obtain ⟨s, hs, row, hr, hx⟩ := h
  exact ⟨s, hs, row, hr, Records.get?_push hx⟩

theorem Sound.contentOf?_push {c : Content} {n : NodeRef} {node : Node} (h : a.Sound)
    (hn : a.node? n = some node) (hb : b.records = a.records.push c) :
    b.contentOf? node = a.contentOf? node := by
  cases hr : node.record with
  | none => simp [contentOf?, hr]
  | some row =>
    obtain ⟨x, hx⟩ := h.found hn hr
    rw [hx, contentOf?_eq_some_of_push hb hx]

theorem records_addFlags (a : Arena) (n : NodeRef) (flags : UInt32) :
    (a.addFlags n flags).records = a.records := by
  cases n <;> rfl

theorem shown?_eq_none {n : NodeId} (h : a.nodes.size ≤ n.index) : a.shown? (some n) = none := by
  rw [shown?, node?_eq_none fun id hid => Option.some.inj hid ▸ h]
  rfl

theorem shown?_addBare (a : Arena) (k : Kind) (s e : UInt32) (n : NodeId) :
    (a.addBare k s e).1.shown? (some n) =
      if n.index = a.nodes.size then some { kind := k, start := s, stop := e, content := none }
      else a.shown? (some n) := by
  have hnode := node?_push (a := a) (b := (a.addBare k s e).1) n rfl
  simp only [shown?, hnode]
  split
  · simp [contentOf?]
  · rfl

theorem shown?_add {k : Kind} {c : Content} (h : a.Sound) (hsize : a.nodes.size < 4294967295)
    (s e : UInt32) (hk : k ∈ c.shape.kinds) (n : NodeId) :
    (a.add k s e c).1.shown? (some n) =
      if n.index = a.nodes.size then some { kind := k, start := s, stop := e, content := some c }
      else a.shown? (some n) := by
  have hnode := node?_push n (nodes_add a k s e c)
  split
  · have hnext := content?_next s e h.balanced hsize (Shape.ofKind?_eq_some_iff.mpr hk)
    rw [content?, node?_next k s e c hsize, Option.bind_some] at hnext
    simp_all [shown?]
  · rename_i hn
    rw [if_neg hn] at hnode
    cases hold : a.node? (some n) with
    | none => simp [shown?, hnode, hold]
    | some node => simp [shown?, hnode, hold, h.contentOf?_push hold (records_add a k s e c)]

theorem shown?_addFlags (a : Arena) (m : NodeRef) (flags : UInt32) (n : NodeId) :
    (a.addFlags m flags).shown? (some n) =
      (a.shown? (some n)).map (·.addFlags ((Edit.addFlags m flags).flagsOn n.index)) := by
  have hcontent := contentOf?_congr (records_addFlags a m flags)
  cases m with
  | none =>
    simp only [shown?, Edit.flagsOn, Entry.addFlags_zero, Option.map_id']
    rfl
  | some m =>
    have hindex : m.index = n.index ↔ m = n := by
      cases m
      cases n
      simp
    simp only [shown?, node?_addFlags, hcontent, Edit.flagsOn, hindex]
    split
    · cases a.node? (some n) <;> rfl
    · simp [Function.comp_def, Entry.addFlags]

theorem shown?_setParent (a : Arena) (m q n : NodeRef) :
    (a.setParent m q).shown? n = a.shown? n := by
  cases m <;> rfl

theorem shown?_apply (h : a.Sound) (hsize : a.nodes.size < 4294967295) (e : Edit) (n : NodeId) :
    (a.apply e).1.shown? (some n) =
      if n.index = a.nodes.size then e.added?
      else (a.shown? (some n)).map (·.addFlags (e.flagsOn n.index)) := by
  cases e with
  | addBare k s e => simp [apply, shown?_addBare, Edit.added?, Edit.flagsOn, Entry.addFlags_zero]
  | add k s e c hk =>
    simp [apply, shown?_add h hsize s e hk, Edit.added?, Edit.flagsOn, Entry.addFlags_zero]
  | addFlags m flags =>
    rw [apply, shown?_addFlags]
    split
    · rename_i hn
      rw [shown?_eq_none (Nat.le_of_eq hn.symm)]
      rfl
    · rfl
  | setParent m q =>
    rw [apply, shown?_setParent]
    split
    · rename_i hn
      exact shown?_eq_none (Nat.le_of_eq hn.symm)
    · simp [Edit.flagsOn, Entry.addFlags_zero]

theorem size_nodes_apply (a : Arena) (e : Edit) :
    (a.apply e).1.nodes.size = a.nodes.size + e.added?.toList.length := by
  cases e with
  | addBare k s e => simp [apply, addBare, pushHeader, Edit.added?]
  | add k s e c hk => simp [apply, size_nodes_add, Edit.added?]
  | addFlags n flags => simp [apply, size_nodes_addFlags, Edit.added?]
  | setParent n q => simp [apply, nodes_setParent, Edit.added?]

theorem apply_eq_next {e : Edit} {x : Entry} (h : e.added? = some x) :
    (a.apply e).2 = a.next := by
  cases e with
  | addBare => rfl
  | add => rfl
  | addFlags => cases h
  | setParent => cases h

theorem Balanced.apply (h : a.Balanced) (e : Edit) : (a.apply e).1.Balanced := by
  cases e with
  | addBare k s e => exact (grown_addBare 0 k s e h).balanced
  | add k s e c hk => exact h.add k s e c
  | addFlags n flags => exact h.addFlags n flags
  | setParent n q =>
    refine ⟨?_, fun s => ?_⟩
    · rw [Arena.apply, size_links_setParent, nodes_setParent]
      exact h.links
    · rw [Arena.apply, records_setParent, nodes_setParent]
      exact h.records s

theorem Sound.apply (h : a.Sound) (hsize : a.nodes.size < 4294967295) (e : Edit) :
    (a.apply e).1.Sound := by
  refine ⟨h.balanced.apply e, fun {n node row} hn hr => ?_⟩
  obtain ⟨id, rfl, -⟩ := Option.bind_eq_some_iff.mp hn
  cases e with
  | addBare k s e =>
    rw [node?_push (a := a) id rfl] at hn
    split at hn
    · cases hn
      cases hr
    · exact h.found hn hr
  | add k s e c hk =>
    rw [Arena.apply, node?_push id (nodes_add a k s e c)] at hn
    split at hn
    · have hnext := content?_next s e h.balanced hsize (Shape.ofKind?_eq_some_iff.mpr hk)
      rw [content?, node?_next k s e c hsize, Option.bind_some, Option.some.inj hn] at hnext
      exact ⟨c, hnext⟩
    · obtain ⟨x, hx⟩ := h.found hn hr
      exact ⟨x, contentOf?_eq_some_of_push (records_add a k s e c) hx⟩
  | addFlags m flags =>
    rw [Arena.apply, contentOf?_congr (records_addFlags a m flags)]
    cases m with
    | none => exact h.found hn hr
    | some m =>
      rw [Arena.apply, node?_addFlags] at hn
      split at hn
      · obtain ⟨old, hold, rfl⟩ := Option.map_eq_some_iff.mp hn
        obtain ⟨x, hx⟩ := h.found hold hr
        exact ⟨x, hx⟩
      · exact h.found hn hr
  | setParent m q =>
    rw [Arena.apply, contentOf?_congr (records_setParent a m q)]
    rw [Arena.apply, node?, nodes_setParent] at hn
    exact h.found hn hr

theorem sound_empty : empty.Sound :=
  ⟨balanced_empty, fun {n} _ _ hn _ => by cases n <;> cases hn⟩

theorem Sound.shows {entries : List Entry} (h : a.Sound) (hsize : a.nodes.size = entries.length)
    (hentry : ∀ n : NodeId, a.shown? (some n) = entries[n.index]?) : a.Shows entries where
  nodes := hsize
  links := h.balanced.links.trans hsize
  entry := hentry
  content shape n c := by
    rw [contentAs?_eq_some_iff, content?_eq_bind_shown?, hentry n]

theorem Shows.apply {entries : List Entry} (h : a.Sound) (hshows : a.Shows entries)
    (hsize : entries.length < 4294967295) (e : Edit) :
    (a.apply e).1.Shows (Edit.store entries e) := by
  have hbound : a.nodes.size < 4294967295 := hshows.nodes ▸ hsize
  refine (h.apply hbound e).shows ?_ fun n => ?_
  · rw [size_nodes_apply, Edit.length_store, hshows.nodes]
  · rw [shown?_apply h hbound, Edit.getElem?_store, hshows.nodes, hshows.entry n]

theorem shows_built (edits : List Edit) (hsize : (Edit.stored edits).length < 4294967295) :
    (built edits).Sound ∧ (built edits).Shows (Edit.stored edits) := by
  induction edits using List.reverseRecOn with
  | nil => exact ⟨sound_empty, sound_empty.shows rfl fun _ => rfl⟩
  | append_singleton edits e ih =>
    have hstored : Edit.stored (edits ++ [e]) = Edit.store (Edit.stored edits) e :=
      List.foldl_append ..
    have hbuilt : built (edits ++ [e]) = ((built edits).apply e).1 := List.foldl_append ..
    have hlt : (Edit.stored edits).length < 4294967295 := by
      rw [hstored, Edit.length_store] at hsize
      omega
    obtain ⟨hsound, hshows⟩ := ih hlt
    rw [hstored, hbuilt]
    exact ⟨hsound.apply (hshows.nodes ▸ hlt) e, hshows.apply hsound hlt e⟩

/-- A tree is a store of entries that are only added: every step that adds a node answers the number
of nodes before it, and from then on the node shows what it was made with and the flags put on it
since. -/
theorem built_refines_store (edits : List Edit)
    (hsize : (Edit.stored edits).length < 4294967295) :
    (built edits).Shows (Edit.stored edits) ∧
      ∀ before e after x, edits = before ++ e :: after → e.added? = some x →
        ∃ n : NodeId, n.index = (built before).nodes.size ∧
          ((built before).apply e).2 = some n ∧
          (Edit.stored edits)[n.index]? = some (x.addFlags (Edit.allFlagsOn n.index after)) := by
  refine ⟨(shows_built edits hsize).2, ?_⟩
  rintro before e after x rfl hx
  have hat := Edit.getElem?_stored before after hx
  have hlt : (Edit.stored before).length < 4294967295 := by
    obtain ⟨hi, -⟩ := List.getElem?_eq_some_iff.mp hat
    exact Nat.lt_trans hi hsize
  have hnodes := (shows_built before hlt).2.nodes
  rw [← hnodes] at hlt hat
  exact ⟨⟨_, hlt⟩, rfl, (apply_eq_next hx).trans (next_eq hlt), hat⟩

/-- A heritage clause between two other nodes, with flags from before and after its creation. -/
def flaggedClause : List Edit :=
  let types : NodeList := [Row.ofIndex 0]
  [.add .identifier 0 1 (.identifier { text := "A", inDocNamespace := false }) (by decide),
    .addFlags (Row.ofIndex 1) 4,
    .add .heritageClause 0 9 (.heritageClause { token := .extendsKeyword, types }) (by decide),
    .addFlags (Row.ofIndex 1) 1, .addBare .identifier 2 3, .setParent (Row.ofIndex 1) none,
    .addFlags (Row.ofIndex 1) 2]

theorem flaggedClause_refines_store : (Edit.stored flaggedClause).length < 4294967295 ∧
    (built flaggedClause).Shows (Edit.stored flaggedClause) ∧
    ∃ n : NodeId, n.index = 1 ∧
      ((built flaggedClause).shown? (some n)).map Entry.flags = some 3 := by
  have hsize : (Edit.stored flaggedClause).length < 4294967295 := by decide
  obtain ⟨hshows, hmade⟩ := built_refines_store flaggedClause hsize
  refine ⟨hsize, hshows, ?_⟩
  obtain ⟨n, hn, -, hat⟩ := hmade (flaggedClause.take 2) _ (flaggedClause.drop 3) _ rfl rfl
  have hindex : n.index = 1 := hn
  refine ⟨n, hindex, ?_⟩
  rw [hshows.entry, hat, hindex]
  rfl

end Arena

end TypeAtlas
