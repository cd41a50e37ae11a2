import TypeAtlas.Proofs.Tree.Growth
import Mathlib.Data.List.Induction
import Mathlib.Logic.Relation

/-! Parents in trees that are made bottom-up. The last node that names a node is its parent, so
parents come after their children, and the way up from a node ends at a root. -/

namespace TypeAtlas

def Listed (n : NodeId) (nodes : Option NodeList) : Prop :=
  ∃ l, nodes = some l ∧ some n ∈ l

theorem mem_getD_iff {n : NodeId} {nodes : Option NodeList} :
    some n ∈ nodes.getD [] ↔ Listed n nodes := by
  cases nodes <;> simp [Listed]

namespace Content

/-- A node is one of the parts of a content, or in one of its lists. All parts are written out, so
that none is left out. -/
def Mentions (n : NodeId) : Content → Prop
  | identifier ⟨_text, _inDocNamespace⟩ => False
  | literal ⟨_text⟩ => False
  | classLike ⟨modifiers, name, clauses, members⟩
  | interface ⟨modifiers, name, clauses, members⟩ =>
    Listed n modifiers ∨ name = some n ∨ Listed n clauses ∨ some n ∈ members
  | heritageClause ⟨_token, types⟩ => some n ∈ types
  | typeApplication ⟨expression, arguments⟩ => expression = some n ∨ Listed n arguments
  | function ⟨modifiers, name, parameters, body⟩ =>
    Listed n modifiers ∨ name = some n ∨ some n ∈ parameters ∨ body = some n
  | signature ⟨modifiers, name, parameters, typeAnnotation⟩ =>
    Listed n modifiers ∨ name = some n ∨ some n ∈ parameters ∨ typeAnnotation = some n
  | property ⟨modifiers, name, typeAnnotation, initializer⟩
  | parameter ⟨modifiers, name, typeAnnotation, initializer⟩ =>
    Listed n modifiers ∨ name = some n ∨ typeAnnotation = some n ∨ initializer = some n
  | module ⟨modifiers, name, body⟩ => Listed n modifiers ∨ name = some n ∨ body = some n
  | enum ⟨modifiers, name, members⟩ => Listed n modifiers ∨ name = some n ∨ some n ∈ members
  | typeAlias ⟨modifiers, name, type⟩ => Listed n modifiers ∨ name = some n ∨ type = some n
  | variableStatement ⟨modifiers, declarations⟩ => Listed n modifiers ∨ some n ∈ declarations
  | variableDeclaration ⟨name, typeAnnotation, initializer⟩ =>
    name = some n ∨ typeAnnotation = some n ∨ initializer = some n
  | memberList ⟨members⟩ => some n ∈ members
  | block ⟨statements⟩ => some n ∈ statements
  | propertyAccess ⟨expression, name⟩ => expression = some n ∨ name = some n
  | binaryExpression ⟨left, _operator, right⟩ => left = some n ∨ right = some n
  | importDeclaration ⟨modifiers, clause, moduleSpecifier⟩ =>
    Listed n modifiers ∨ clause = some n ∨ moduleSpecifier = some n
  | importClause ⟨_isTypeOnly, name, bindings⟩ => name = some n ∨ bindings = some n
  | namedBindings ⟨name, elements⟩ => name = some n ∨ some n ∈ elements
  | specifier ⟨_isTypeOnly, propertyName, name⟩ => propertyName = some n ∨ name = some n
  | importEquals ⟨modifiers, _isTypeOnly, name, moduleReference⟩ =>
    Listed n modifiers ∨ name = some n ∨ moduleReference = some n
  | externalModule ⟨expression⟩ => expression = some n
  | exportDeclaration ⟨modifiers, _isTypeOnly, clause, moduleSpecifier⟩ =>
    Listed n modifiers ∨ clause = some n ∨ moduleSpecifier = some n
  | exportAssignment ⟨modifiers, _isExportEquals, expression⟩ =>
    Listed n modifiers ∨ expression = some n
  | sourceFile ⟨statements, _fileName, _isDeclarationFile⟩ => some n ∈ statements

theorem mem_children_iff {n : NodeId} {c : Content} : some n ∈ c.children ↔ c.Mentions n := by
  cases c <;> simp [children, Mentions, mem_getD_iff, eq_comm]

end Content

/-- A step in the making of a tree that leaves it to the contents who the parents are. -/
inductive Growing where
  | addBare (kind : Kind) (start stop : UInt32)
  | add (kind : Kind) (start stop : UInt32) (content : Content)
  | addFlags (node : NodeRef) (flags : UInt32)

namespace Growing

/-- What the node that a step adds holds. -/
def added? : Growing → Option (Option Content)
  | addBare _ _ _ => some none
  | add _ _ _ content => some (some content)
  | addFlags _ _ => none

def contents (steps : List Growing) : List (Option Content) :=
  steps.filterMap added?

theorem contents_concat (steps : List Growing) (step : Growing) :
    contents (steps ++ [step]) = contents steps ++ step.added?.toList := by
  cases step <;> simp [contents, added?]

end Growing

/-- The node of a number mentions a node. -/
def Mentions (contents : List (Option Content)) (k : Nat) (n : NodeId) : Prop :=
  ∃ c, contents[k]? = some (some c) ∧ c.Mentions n

/-- The last node that mentions a node; none if no node does. -/
def IsLastMention (contents : List (Option Content)) (n : NodeId) : NodeRef → Prop
  | some p => Mentions contents p.index n ∧ ∀ k, Mentions contents k n → k ≤ p.index
  | none => ∀ k, ¬ Mentions contents k n

def BottomUp (contents : List (Option Content)) : Prop :=
  ∀ k n, Mentions contents k n → n.index < k

section Mentions

variable {contents : List (Option Content)} {n : NodeId} {k : Nat}

theorem lt_length_of_mentions (h : Mentions contents k n) : k < contents.length := by
  obtain ⟨c, hc, -⟩ := h
  exact (List.getElem?_eq_some_iff.mp hc).1

theorem mentions_append_iff {x : Option Content} :
    Mentions (contents ++ [x]) k n ↔
      Mentions contents k n ∨ k = contents.length ∧ ∃ c, x = some c ∧ c.Mentions n := by
  constructor
  · rintro ⟨c, hc, hn⟩
    rw [List.getElem?_append] at hc
    split at hc
    · exact .inl ⟨c, hc, hn⟩
    · obtain ⟨hk, hx⟩ := List.getElem?_eq_some_iff.mp hc
      rw [List.length_singleton] at hk
      refine .inr ⟨by omega, c, ?_, hn⟩
      simpa using hx
  · rintro (⟨c, hc, hn⟩ | ⟨rfl, c, rfl, hn⟩)
    · have hk := lt_length_of_mentions ⟨c, hc, hn⟩
      exact ⟨c, by rw [List.getElem?_append_left hk, hc], hn⟩
    · exact ⟨c, List.getElem?_concat_length, hn⟩

theorem BottomUp.of_append {x : Option Content} (h : BottomUp (contents ++ [x])) :
    BottomUp contents ∧ ∀ c n, x = some c → c.Mentions n → n.index < contents.length :=
  ⟨fun k n hk => h k n (mentions_append_iff.mpr (.inl hk)),
    fun c n hx hn => h _ n (mentions_append_iff.mpr (.inr ⟨rfl, c, hx, hn⟩))⟩

theorem bottomUp_iff : BottomUp contents ↔ (contents.zipIdx.all fun entry =>
    entry.1.all fun c => c.children.all fun child => child.all (·.index < entry.2)) = true := by
  simp only [List.all_eq_true, Option.all_eq_true, decide_eq_true_eq]
  constructor
  · rintro h ⟨x, k⟩ hx c rfl _ hchild n rfl
    exact h k n ⟨c, List.mem_zipIdx_iff_getElem?.mp hx, Content.mem_children_iff.mp hchild⟩
  · rintro h k n ⟨c, hc, hn⟩
    exact h (some c, k) (List.mem_zipIdx_iff_getElem?.mpr hc) c rfl _
      (Content.mem_children_iff.mpr hn) n rfl

instance : DecidablePred BottomUp := fun _ =>
  decidable_of_iff' _ bottomUp_iff

theorem isLastMention_of_mentions {c : Content} {p : NodeId} (hn : c.Mentions n)
    (hp : p.index = contents.length) : IsLastMention (contents ++ [some c]) n (some p) := by
  refine ⟨mentions_append_iff.mpr (.inr ⟨hp, c, rfl, hn⟩), fun k hk => ?_⟩
  rcases mentions_append_iff.mp hk with hold | ⟨rfl, -⟩
  · exact hp ▸ Nat.le_of_lt (lt_length_of_mentions hold)
  · exact Nat.le_of_eq hp.symm

theorem IsLastMention.append {x : Option Content} {p : NodeRef} (h : IsLastMention contents n p)
    (hx : ∀ c, x = some c → ¬ c.Mentions n) : IsLastMention (contents ++ [x]) n p := by
  have hsame : ∀ k, Mentions (contents ++ [x]) k n ↔ Mentions contents k n := by
    intro k
    rw [mentions_append_iff]
    refine or_iff_left ?_
    rintro ⟨-, c, hc, hn⟩
    exact hx c hc hn
  cases p with
  | none => exact fun k hk => h k ((hsame k).mp hk)
  | some p => exact ⟨(hsame _).mpr h.1, fun k hk => h.2 k ((hsame k).mp hk)⟩

end Mentions

namespace Arena

section Definitions

variable (a : Arena)

def grow : Growing → Arena
  | .addBare kind start stop => (a.addBare kind start stop).1
  | .add kind start stop content => (a.add kind start stop content).1
  | .addFlags n flags => a.addFlags n flags

def IsParent (n p : NodeId) : Prop :=
  a.parent (some n) = some p

inductive WayUp : NodeId → List NodeId → Prop
  | root {n : NodeId} (h : a.parent (some n) = none) : WayUp n [n]
  | step {n p : NodeId} {way : List NodeId} (h : a.IsParent n p) (rest : WayUp p way) :
    WayUp n (n :: way)

/-- Parents come after their children. -/
def Rising : Prop :=
  ∀ n p, a.IsParent n p → n.index < p.index ∧ p.index < a.nodes.size

/-- The parents are those that the contents of the nodes say. -/
structure Follows (contents : List (Option Content)) : Prop where
  balanced : a.Balanced
  size : a.nodes.size = contents.length
  parent : ∀ n, IsLastMention contents n (a.parent (some n))

end Definitions

def grown (steps : List Growing) : Arena :=
  steps.foldl grow empty

theorem grown_concat (steps : List Growing) (step : Growing) :
    grown (steps ++ [step]) = (grown steps).grow step :=
  List.foldl_append ..

variable {a : Arena}

theorem follows_empty : empty.Follows [] where
  balanced := balanced_empty
  size := rfl
  parent n k hk := by
    obtain ⟨c, hc, -⟩ := hk
    cases hc

theorem Follows.addBare {contents : List (Option Content)} (h : a.Follows contents) (k : Kind)
    (s e : UInt32) : (a.addBare k s e).1.Follows (contents ++ [none]) where
  balanced := (grown_addBare 0 k s e h.balanced).balanced
  size := by simp [Arena.addBare, pushHeader, h.size]
  parent n := by
    rw [show (a.addBare k s e).1.parent (some n) = a.parent (some n) from
      parent_pushHeader a k s e none n]
    exact (h.parent n).append fun c hc => by cases hc

theorem Follows.add {contents : List (Option Content)} {c : Content} (h : a.Follows contents)
    (hsize : contents.length < 4294967295) (hc : ∀ n, c.Mentions n → n.index < contents.length)
    (k : Kind) (s e : UInt32) : (a.add k s e c).1.Follows (contents ++ [some c]) where
  balanced := h.balanced.add k s e c
  size := by simp [size_nodes_add, h.size]
  parent n := by
    rw [parent_add h.balanced, h.size]
    split_ifs with hn
    · rw [next_eq (h.size ▸ hsize)]
      exact isLastMention_of_mentions (Content.mem_children_iff.mp hn.1) h.size
    · refine (h.parent n).append ?_
      rintro c' hc' hm
      obtain rfl := Option.some.inj hc'
      exact hn ⟨Content.mem_children_iff.mpr hm, Nat.le_of_lt (hc n hm)⟩

theorem Follows.addFlags {contents : List (Option Content)} (h : a.Follows contents) (n : NodeRef)
    (flags : UInt32) : (a.addFlags n flags).Follows contents where
  balanced := h.balanced.addFlags n flags
  size := by rw [size_nodes_addFlags, h.size]
  parent m := by
    rw [parent_addFlags]
    exact h.parent m

theorem follows_grown {steps : List Growing} (hsize : (Growing.contents steps).length < 4294967295)
    (h : BottomUp (Growing.contents steps)) :
    (grown steps).Follows (Growing.contents steps) := by
  induction steps using List.reverseRecOn with
  | nil => exact follows_empty
  | append_singleton steps step ih =>
    rw [Growing.contents_concat] at hsize h ⊢
    rw [grown_concat]
    rw [List.length_append] at hsize
    have hlt : (Growing.contents steps).length < 4294967295 := by omega
    cases step with
    | addBare k s e => exact (ih hlt h.of_append.1).addBare k s e
    | add k s e c =>
      obtain ⟨hold, hnew⟩ := h.of_append
      exact (ih hlt hold).add hlt (fun n hn => hnew c n rfl hn) k s e
    | addFlags n flags =>
      rw [show (Growing.addFlags n flags).added?.toList = [] from rfl, List.append_nil] at h ⊢
      exact (ih hlt h).addFlags n flags

theorem Follows.rising {contents : List (Option Content)} (h : a.Follows contents)
    (hup : BottomUp contents) : a.Rising := by
  intro n p hp
  have hlast := h.parent n
  rw [show a.parent (some n) = some p from hp] at hlast
  exact ⟨hup _ n hlast.1, h.size ▸ lt_length_of_mentions hlast.1⟩

theorem Rising.lt_of_transGen (h : a.Rising) {n m : NodeId}
    (hm : Relation.TransGen a.IsParent n m) : n.index < m.index := by
  induction hm with
  | single hp => exact (h _ _ hp).1
  | tail _ hp ih => exact Nat.lt_trans ih (h _ _ hp).1

theorem Rising.exists_wayUp (h : a.Rising) (n : NodeId) : ∃ way, a.WayUp n way := by
  induction hk : a.nodes.size - n.index using Nat.strongRecOn generalizing n with
  | ind k ih =>
    cases hp : a.parent (some n) with
    | none => exact ⟨[n], .root hp⟩
    | some p =>
      obtain ⟨hlt, hsize⟩ := h _ _ hp
      obtain ⟨way, hway⟩ := ih _ (by omega) p rfl
      exact ⟨n :: way, .step hp hway⟩

theorem WayUp.mem_iff {n m : NodeId} {way : List NodeId} (h : a.WayUp n way) :
    m ∈ way ↔ Relation.ReflTransGen a.IsParent n m := by
  induction h with
  | @root n hroot =>
    rw [List.mem_singleton]
    constructor
    · rintro rfl
      exact .refl
    · intro hm
      rcases hm.cases_head with rfl | ⟨p, hp, -⟩
      · rfl
      · rw [IsParent, hroot] at hp
        cases hp
  | @step n p way hp _ ih =>
    rw [List.mem_cons, ih]
    constructor
    · rintro (rfl | hm)
      · exact .refl
      · exact .head hp hm
    · intro hm
      rcases hm.cases_head with rfl | ⟨q, hq, hrest⟩
      · exact .inl rfl
      · obtain rfl : p = q := Option.some.inj (hp.symm.trans hq)
        exact .inr hrest

theorem WayUp.pairwise {n : NodeId} {way : List NodeId} (h : a.WayUp n way) (hrise : a.Rising) :
    way.Pairwise fun m p => m.index < p.index := by
  induction h with
  | root => exact List.pairwise_singleton _ _
  | step hp rest ih =>
    refine List.pairwise_cons.mpr ⟨fun m hm => ?_, ih⟩
    exact hrise.lt_of_transGen (.head' hp (rest.mem_iff.mp hm))

theorem WayUp.climb_eq {n : NodeId} {way : List NodeId} (h : a.WayUp n way) (hrise : a.Rising)
    (hn : n.index < a.nodes.size) (steps : Nat) : a.climb steps (some n) = way.take steps := by
  induction h generalizing steps with
  | root hroot =>
    cases steps with
    | zero => rfl
    | succ steps =>
      rw [climb_succ (Array.getElem?_eq_getElem hn), hroot, climb_none]
      simp
  | step hp _ ih =>
    cases steps with
    | zero => rfl
    | succ steps =>
      rw [climb_succ (Array.getElem?_eq_getElem hn), show a.parent _ = some _ from hp,
        ih (hrise _ _ hp).2, List.take_succ_cons]

/-- In a tree made bottom-up the parent of a node is the last node that mentions it. Parents come
after their children, nothing is above itself, and the ancestry of a node is its way up to a root,
in ascending order and cut off where climbing ends. -/
theorem grown_bottomUp_ancestry (steps : List Growing)
    (hsize : (Growing.contents steps).length < 4294967295)
    (hup : BottomUp (Growing.contents steps)) :
    (grown steps).nodes.size = (Growing.contents steps).length ∧
    (∀ n, IsLastMention (Growing.contents steps) n ((grown steps).parent (some n))) ∧
    (∀ n p, (grown steps).parent (some n) = some p → n.index < p.index) ∧
    (∀ n, ¬ Relation.TransGen (grown steps).IsParent n n) ∧
    ∀ n : NodeId, n.index < (grown steps).nodes.size →
      ∃ way, (grown steps).WayUp n way ∧ (way.Pairwise fun m p => m.index < p.index) ∧
        (∀ m, m ∈ way ↔ Relation.ReflTransGen (grown steps).IsParent n m) ∧
        (grown steps).ancestry (some n) = way.take 10000 := by
  have hfollows := follows_grown hsize hup
  have hrise := hfollows.rising hup
  refine ⟨hfollows.size, hfollows.parent, fun n p hp => (hrise n p hp).1, fun n hn => ?_,
    fun n hn => ?_⟩
  · exact Nat.lt_irrefl _ (hrise.lt_of_transGen hn)
  · obtain ⟨way, hway⟩ := hrise.exists_wayUp n
    exact ⟨way, hway, hway.pairwise hrise, fun m => hway.mem_iff,
      hway.climb_eq hrise hn maxClimb⟩

/-- A class whose name is also named by a member of it, in a file. -/
def namedTwice : List Growing :=
  let name : NodeRef := Row.ofIndex 0
  [.add .identifier 13 14 (.identifier { text := "A", inDocNamespace := false }),
    .addBare .exportKeyword 0 6,
    .add .propertyAccessExpression 17 20 (.propertyAccess { expression := name, name }),
    .addFlags name 1,
    .add .classDeclaration 0 22 (.classLike
      { modifiers := some [Row.ofIndex 1], name, heritageClauses := none,
        members := [Row.ofIndex 2, none] }),
    .add .sourceFile 0 22 (.sourceFile
      { statements := [Row.ofIndex 3], fileName := "a.ts", isDeclarationFile := false })]

theorem namedTwice_bottomUp_ancestry :
    (Growing.contents namedTwice).length < 4294967295 ∧ BottomUp (Growing.contents namedTwice) ∧
      ((grown namedTwice).ancestry (Row.ofIndex 0)).map Row.index = [0, 3, 4] ∧
      ((grown namedTwice).ancestry (Row.ofIndex 0)).Pairwise fun m p => m.index < p.index := by
  have hsize : (Growing.contents namedTwice).length < 4294967295 := by decide
  have hup : BottomUp (Growing.contents namedTwice) := by decide
  obtain ⟨-, -, -, -, hways⟩ := grown_bottomUp_ancestry namedTwice hsize hup
  obtain ⟨way, -, hpairwise, -, hway⟩ := hways ⟨0, by decide⟩ (by decide)
  refine ⟨hsize, hup, by decide +kernel, ?_⟩
  rw [show (grown namedTwice).ancestry (Row.ofIndex 0) = way.take 10000 from hway]
  exact hpairwise.sublist (List.take_sublist _ _)

end Arena

end TypeAtlas
