import TypeAtlas.Flags.Containers
import TypeAtlas.Flags.Modifiers
import TypeAtlas.Proofs.Tree.Ancestry
import TypeAtlas.Proofs.Tree.Store
import TypeAtlas.Tree.Imports
import Mathlib.Data.List.Basic
import Mathlib.Data.List.Find

/-! Answers that last. While a tree is made bottom-up, a new node only changes the parents of the
nodes that it names, so nothing else is answered differently about the nodes before it. -/

namespace TypeAtlas

namespace Content

variable {n : NodeId} {c : Content}

theorem mentions_of_mem_modifiers? (h : some n ∈ c.modifiers?.getD []) : c.Mentions n := by
  have hchild : some n ∈ c.children := by
    cases c <;> simp_all [modifiers?, children]
  exact mem_children_iff.mp hchild

theorem mentions_of_mem_heritageClauses? (h : some n ∈ c.heritageClauses?.getD []) :
    c.Mentions n := by
  have hchild : some n ∈ c.children := by
    cases c <;> simp_all [heritageClauses?, children]
  exact mem_children_iff.mp hchild

end Content

namespace Growing

/-- The content of a new node has a shape that the kind of the node belongs to. -/
def Fits : Growing → Prop
  | add kind _ _ content => kind ∈ content.shape.kinds
  | addBare _ _ _ | addFlags _ _ => True

instance : DecidablePred Fits
  | add kind _ _ content => inferInstanceAs (Decidable (kind ∈ content.shape.kinds))
  | addBare _ _ _ | addFlags _ _ => .isTrue trivial

def kind? : Growing → Option Kind
  | addBare kind _ _ | add kind _ _ _ => some kind
  | addFlags _ _ => none

/-- A node is a part of the node that a step adds. -/
def Mentions (n : NodeId) (step : Growing) : Prop :=
  ∃ c, step.added? = some (some c) ∧ c.Mentions n

def toEdit : (step : Growing) → step.Fits → Edit
  | addBare kind start stop, _ => .addBare kind start stop
  | add kind start stop content, fits => .add kind start stop content fits
  | addFlags n flags, _ => .addFlags n flags

variable {step : Growing} {steps : List Growing} {k : Kind}

theorem map_content_added?_toEdit (h : step.Fits) :
    (step.toEdit h).added?.map Entry.content = step.added? := by
  cases step <;> rfl

theorem map_kind_added?_toEdit (h : step.Fits) :
    (step.toEdit h).added?.map Entry.kind = step.kind? := by
  cases step <;> rfl

theorem flagsOn_toEdit (h : step.Fits) (hkind : step.kind? = some k) (i : Nat) :
    (step.toEdit h).flagsOn i = 0 := by
  cases step with
  | addBare => rfl
  | add => rfl
  | addFlags => cases hkind

end Growing

namespace Edit

theorem map_content_store (entries : List Entry) (e : Edit) :
    (store entries e).map Entry.content =
      entries.map Entry.content ++ (e.added?.map Entry.content).toList := by
  have hold : (entries.mapIdx fun i x => x.addFlags (e.flagsOn i)).map Entry.content =
      entries.map Entry.content := by
    refine List.ext_getElem? fun i => ?_
    rw [List.getElem?_map, List.getElem?_mapIdx, List.getElem?_map, Option.map_map]
    rfl
  rw [store, List.map_append, hold]
  cases e.added? <;> rfl

end Edit

namespace Arena

section Definitions

variable (a : Arena)

def KeptBy (b : Arena) : Prop :=
  ∀ n : NodeId, n.index < a.nodes.size → b.shown? (some n) = a.shown? (some n)

def Closed : Prop :=
  ∀ n c m, a.content? n = some c → c.Mentions m → m.index < a.nodes.size

/-- The questions about a node itself, its modifiers and its clauses have the same answers in two
trees. -/
structure Agrees (b : Arena) (n : NodeRef) : Prop where
  modifiers : b.modifiers n = a.modifiers n
  declaredName : b.declaredName n = a.declaredName n
  heritageClauses? : b.heritageClauses? n = a.heritageClauses? n
  clauseWith? : ∀ token, b.clauseWith? n token = a.clauseWith? n token
  externalModuleName : b.externalModuleName n = a.externalModuleName n

end Definitions

end Arena

/-- The role of a node, by its kind, once a node of another kind has become its parent. -/
def ContainerRole.adopted (own parent : Kind) (role : ContainerRole) : ContainerRole :=
  if own = .methodDeclaration then
    if parent = .objectLiteralExpression ∨ parent = .classExpression then
      functionContainer ||| literalMethod
    else functionContainer
  else if own = .block then
    if parent.isFunctionLike then 0 else blockScope
  else role

namespace Arena

variable {a b : Arena} {n : NodeId} {k : Kind}

theorem kind?_eq_map_shown? (a : Arena) (n : NodeRef) :
    a.kind? n = (a.shown? n).map Entry.kind := by
  cases h : a.node? n <;> simp [kind?, shown?, h]

theorem map_flags_node? (a : Arena) (n : NodeRef) :
    (a.node? n).map Node.flags = (a.shown? n).map Entry.flags := by
  cases h : a.node? n <;> simp [shown?, h]

namespace KeptBy

theorem kind? (h : a.KeptBy b) (hn : n.index < a.nodes.size) :
    b.kind? (some n) = a.kind? (some n) := by
  rw [kind?_eq_map_shown?, kind?_eq_map_shown?, h n hn]

theorem content? (h : a.KeptBy b) (hn : n.index < a.nodes.size) :
    b.content? (some n) = a.content? (some n) := by
  rw [content?_eq_bind_shown?, content?_eq_bind_shown?, h n hn]

theorem isImplicitlyExported (h : a.KeptBy b) (hn : n.index < a.nodes.size) :
    b.isImplicitlyExported (some n) = a.isImplicitlyExported (some n) := by
  have hflags : ∀ a : Arena, (a.node? (some n)).any
      (fun node => node.flags &&& NodeFlags.nestedNamespace != 0) =
        ((a.shown? (some n)).map Entry.flags).any
          fun flags => flags &&& NodeFlags.nestedNamespace != 0 := by
    intro a
    rw [← map_flags_node?, Option.any_map]
  rw [Arena.isImplicitlyExported, Arena.isImplicitlyExported, hflags b, hflags a, h n hn,
    h.content? hn]

theorem modifiers (h : a.KeptBy b) (hclosed : a.Closed) (hn : n.index < a.nodes.size) :
    b.modifiers (some n) = a.modifiers (some n) := by
  have hlist : b.modifiers? (some n) = a.modifiers? (some n) := by
    rw [modifiers?, modifiers?, h.content? hn]
  have htokens : b.modifiersOfList ((a.modifiers? (some n)).getD []) =
      a.modifiersOfList ((a.modifiers? (some n)).getD []) := by
    rw [modifiersOfList, modifiersOfList]
    congr 1
    refine List.filterMap_congr fun token htoken => ?_
    cases token with
    | none => rfl
    | some token =>
      cases hcontent : a.content? (some n) with
      | none =>
        rw [modifiers?, hcontent] at htoken
        cases htoken
      | some c =>
        rw [modifiers?, hcontent, Option.bind_some] at htoken
        exact h.kind? (hclosed _ c _ hcontent (Content.mentions_of_mem_modifiers? htoken))
  rw [Arena.modifiers, Arena.modifiers, hlist, htokens, h.isImplicitlyExported hn]

theorem heritageClauses? (h : a.KeptBy b) (hn : n.index < a.nodes.size) :
    b.heritageClauses? (some n) = a.heritageClauses? (some n) := by
  rw [Arena.heritageClauses?, Arena.heritageClauses?, h.content? hn]

theorem clauseWith? (h : a.KeptBy b) (hclosed : a.Closed) (hn : n.index < a.nodes.size)
    (token : Kind) : b.clauseWith? (some n) token = a.clauseWith? (some n) token := by
  rw [Arena.clauseWith?, Arena.clauseWith?, h.heritageClauses? hn]
  cases hclauses : a.heritageClauses? (some n) with
  | none => rfl
  | some clauses =>
    obtain ⟨c, hcontent, hc⟩ := Option.bind_eq_some_iff.mp hclauses
    congr 1
    refine List.find?_congr fun clause hclause => ?_
    cases clause with
    | none => rfl
    | some clause =>
      have hmentions : c.Mentions clause := by
        refine Content.mentions_of_mem_heritageClauses? ?_
        rw [hc]
        exact hclause
      rw [heritageClause?, heritageClause?, h.content? (hclosed _ c _ hcontent hmentions)]

theorem externalModuleName (h : a.KeptBy b) (hclosed : a.Closed) (hn : n.index < a.nodes.size) :
    b.externalModuleName (some n) = a.externalModuleName (some n) := by
  rw [Arena.externalModuleName, Arena.externalModuleName, h.content? hn]
  cases hcontent : a.content? (some n) with
  | none => rfl
  | some c =>
    cases c with
    | importEquals d =>
      have hreference : b.content? d.moduleReference = a.content? d.moduleReference := by
        cases hd : d.moduleReference with
        | none => rfl
        | some m => exact h.content? (hclosed _ _ m hcontent (.inr (.inr hd)))
      dsimp only
      rw [hreference]
    | _ => rfl

theorem agrees (h : a.KeptBy b) (hclosed : a.Closed) (hn : n.index < a.nodes.size) :
    a.Agrees b (some n) where
  modifiers := h.modifiers hclosed hn
  declaredName := by rw [declaredName, declaredName, h.content? hn]
  heritageClauses? := h.heritageClauses? hn
  clauseWith? := h.clauseWith? hclosed hn
  externalModuleName := h.externalModuleName hclosed hn

end KeptBy

theorem containerRole_congr {n : NodeRef} (hkind : b.kind? n = a.kind? n)
    (hcontent : b.content? n = a.content? n)
    (hparent : b.kind? (b.parent n) = a.kind? (a.parent n)) :
    b.containerRole n = a.containerRole n := by
  have hliteral : b.isLiteralMethod n = a.isLiteralMethod n := by
    rw [isLiteralMethod, isLiteralMethod, hkind, hparent]
  have hinitialized : b.isInitialized n = a.isInitialized n := by
    rw [isInitialized, isInitialized, hcontent]
  have hbody : b.isFunctionLike (b.parent n) = a.isFunctionLike (a.parent n) := by
    rw [isFunctionLike, isFunctionLike, hparent]
  rw [containerRole, containerRole, hkind, hliteral, hinitialized, hbody]

theorem containerRole_adopted {n : NodeRef} {own : Kind} (hown : a.kind? n = some own)
    (hkind : b.kind? n = a.kind? n) (hcontent : b.content? n = a.content? n)
    (hparent : b.kind? (b.parent n) = some k) :
    b.containerRole n = ContainerRole.adopted own k (a.containerRole n) := by
  rw [hown] at hkind
  have hliteral : own = .methodDeclaration → (b.isLiteralMethod n = true ↔
      k = .objectLiteralExpression ∨ k = .classExpression) := by
    rintro rfl
    simp [isLiteralMethod, hkind, hparent]
  have hinitialized : b.isInitialized n = a.isInitialized n := by
    rw [isInitialized, isInitialized, hcontent]
  have hbody : b.isFunctionLike (b.parent n) = k.isFunctionLike := by
    rw [isFunctionLike, hparent]
    rfl
  have hproperty : Kind.block ≠ .propertyDeclaration := by decide
  by_cases hmethod : own = .methodDeclaration
  · simp only [containerRole, ContainerRole.adopted, hkind, if_pos hmethod, hliteral hmethod]
  · by_cases hblock : own = .block
    · subst hblock
      simp only [containerRole, ContainerRole.adopted, hkind, if_neg hmethod, if_neg hproperty,
        if_true, hbody]
    · simp only [containerRole, ContainerRole.adopted, hkind, hown, if_neg hmethod, if_neg hblock,
        hinitialized]

theorem grow_eq_apply (a : Arena) {step : Growing} (h : step.Fits) :
    a.grow step = (a.apply (step.toEdit h)).1 := by
  cases step <;> rfl

variable {step : Growing} {steps : List Growing}

theorem Sound.keptBy_grow (h : a.Sound) (hsize : a.nodes.size < 4294967295) (hfits : step.Fits)
    (hkind : step.kind? = some k) : a.KeptBy (a.grow step) := by
  intro n hn
  rw [grow_eq_apply a hfits, shown?_apply h hsize, if_neg (Nat.ne_of_lt hn),
    Growing.flagsOn_toEdit hfits hkind]
  cases a.shown? (some n) with
  | none => rfl
  | some x => exact congrArg some x.addFlags_zero

theorem kind?_next_grow (h : a.Sound) (hsize : a.nodes.size < 4294967295) (hfits : step.Fits)
    (hkind : step.kind? = some k) : (a.grow step).kind? a.next = some k := by
  rw [next_eq hsize, grow_eq_apply a hfits, kind?_eq_map_shown?, shown?_apply h hsize, if_pos rfl,
    Growing.map_kind_added?_toEdit, hkind]

theorem parent_grow_of_mentions (h : a.Balanced) (hn : n.index < a.nodes.size)
    (hm : step.Mentions n) : (a.grow step).parent (some n) = a.next := by
  obtain ⟨c, hc, hmentions⟩ := hm
  cases step with
  | addBare => cases hc
  | addFlags => cases hc
  | add k s e content =>
    obtain rfl : content = c := Option.some.inj (Option.some.inj hc)
    rw [grow, parent_add h, if_pos]
    exact ⟨Content.mem_children_iff.mpr hmentions, Nat.le_of_lt hn⟩

theorem parent_grow_of_not_mentions (h : a.Balanced) (hm : ¬ step.Mentions n) :
    (a.grow step).parent (some n) = a.parent (some n) := by
  cases step with
  | addBare k s e => exact parent_pushHeader a k s e none n
  | addFlags m flags => exact parent_addFlags a m (some n) flags
  | add k s e content =>
    rw [grow, parent_add h, if_neg]
    rintro ⟨hchild, -⟩
    exact hm ⟨content, rfl, Content.mem_children_iff.mp hchild⟩

theorem grown_spec (hfits : ∀ s ∈ steps, s.Fits)
    (hsize : (Growing.contents steps).length < 4294967295) :
    (grown steps).Sound ∧ ∃ entries, (grown steps).Shows entries ∧
      entries.map Entry.content = Growing.contents steps := by
  induction steps using List.reverseRecOn with
  | nil => exact ⟨sound_empty, [], sound_empty.shows rfl fun _ => rfl, rfl⟩
  | append_singleton steps step ih =>
    have hstep : step.Fits := hfits step (by simp)
    have hlength := congrArg List.length (Growing.contents_concat steps step)
    rw [List.length_append] at hlength
    obtain ⟨hsound, entries, hshows, hcontents⟩ :=
      ih (fun s hs => hfits s (List.mem_append_left _ hs)) (by omega)
    have hentries : entries.length = (Growing.contents steps).length := by
      rw [← hcontents, List.length_map]
    have hlt : entries.length < 4294967295 := by omega
    rw [grown_concat, grow_eq_apply _ hstep]
    refine ⟨hsound.apply (hshows.nodes ▸ hlt) _, Edit.store entries (step.toEdit hstep),
      hshows.apply hsound hlt _, ?_⟩
    rw [Edit.map_content_store, hcontents, Growing.map_content_added?_toEdit,
      Growing.contents_concat]

theorem Shows.closed {entries : List Entry} (h : a.Shows entries)
    (hup : BottomUp (entries.map Entry.content)) : a.Closed := by
  intro n c m hc hm
  rw [content?_eq_bind_shown?] at hc
  cases n with
  | none => cases hc
  | some n =>
    rw [h.entry n] at hc
    obtain ⟨x, hx, hxc⟩ := Option.bind_eq_some_iff.mp hc
    have hn : n.index < entries.length := (List.getElem?_eq_some_iff.mp hx).1
    have hmentions : TypeAtlas.Mentions (entries.map Entry.content) n.index m := by
      refine ⟨c, ?_, hm⟩
      rw [List.getElem?_map, hx, Option.map_some, hxc]
    rw [h.nodes]
    exact Nat.lt_trans (hup _ _ hmentions) hn

/-- In a tree made bottom-up, a new node changes no answer about the modifiers, the name, the
clauses and the module name of an earlier node. The role of an earlier node can only change when the
new node names it, and then only that of a block or a method, by the kind of the new node. -/
theorem grown_keeps_answers (steps : List Growing) (step : Growing) (n : NodeId)
    (hkind : step.kind? = some k) (hfits : ∀ s ∈ steps ++ [step], s.Fits)
    (hsize : (Growing.contents steps).length < 4294967295)
    (hup : BottomUp (Growing.contents (steps ++ [step])))
    (hn : n.index < (grown steps).nodes.size) :
    (grown (steps ++ [step])).kind? (grown steps).next = some k ∧
    (grown steps).Agrees (grown (steps ++ [step])) (some n) ∧
    (¬ step.Mentions n →
      (grown (steps ++ [step])).containerRole (some n) = (grown steps).containerRole (some n)) ∧
    (step.Mentions n → ∃ own, (grown steps).kind? (some n) = some own ∧
      (grown (steps ++ [step])).containerRole (some n) =
        ContainerRole.adopted own k ((grown steps).containerRole (some n))) := by
  have hold : ∀ s ∈ steps, s.Fits := fun s hs => hfits s (List.mem_append_left _ hs)
  have hstep : step.Fits := hfits step (by simp)
  have hupOld : BottomUp (Growing.contents steps) := by
    cases hadded : step.added? with
    | none => simpa [Growing.contents_concat, hadded] using hup
    | some x =>
      rw [Growing.contents_concat, hadded] at hup
      exact hup.of_append.1
  obtain ⟨hsound, entries, hshows, hcontents⟩ := grown_spec hold hsize
  have hlt : (grown steps).nodes.size < 4294967295 := by
    rw [hshows.nodes, ← List.length_map Entry.content, hcontents]
    exact hsize
  have hkept := hsound.keptBy_grow hlt hstep hkind
  have hclosed := hshows.closed (hcontents ▸ hupOld)
  have hrising := (follows_grown hsize hupOld).rising hupOld
  have hnext := kind?_next_grow hsound hlt hstep hkind
  rw [grown_concat]
  refine ⟨hnext, hkept.agrees hclosed hn, fun hm => ?_, fun hm => ?_⟩
  · have hparent := parent_grow_of_not_mentions hsound.balanced hm
    refine containerRole_congr (hkept.kind? hn) (hkept.content? hn) ?_
    rw [hparent]
    cases hp : (grown steps).parent (some n) with
    | none => rfl
    | some p => exact hkept.kind? (hrising n p hp).2
  · have hparent := parent_grow_of_mentions hsound.balanced hn hm
    obtain ⟨own, hown⟩ : ∃ own, (grown steps).kind? (some n) = some own :=
      ⟨_, congrArg (Option.map Node.kind) (Array.getElem?_eq_getElem hn)⟩
    refine ⟨own, hown, containerRole_adopted hown (hkept.kind? hn) (hkept.content? hn) ?_⟩
    rw [hparent, hnext]

def methodWithBody : List Growing :=
  [.addBare .asyncKeyword 2 7,
    .add .block 12 14 (.block { statements := [] }),
    .add .methodDeclaration 2 14 (.function
      { modifiers := some [Row.ofIndex 0], name := none, parameters := [], body := Row.ofIndex 1 })]

/-- The object literal that the method stands in. -/
def surroundingLiteral : Growing :=
  .add .objectLiteralExpression 0 16 (.memberList { members := [Row.ofIndex 2, none] })

/-- The method becomes that of a literal. Its body and its modifiers stay what they were. -/
theorem methodWithBody_keeps_answers :
    (grown (methodWithBody ++ [surroundingLiteral])).containerRole (Row.ofIndex 2) =
        ContainerRole.functionContainer ||| ContainerRole.literalMethod ∧
      (grown methodWithBody).containerRole (Row.ofIndex 2) = ContainerRole.functionContainer ∧
      (grown (methodWithBody ++ [surroundingLiteral])).containerRole (Row.ofIndex 1) = 0 ∧
      (grown (methodWithBody ++ [surroundingLiteral])).modifiers (Row.ofIndex 2) =
        Modifiers.async := by
  have hanswers := fun (n : NodeId) (hn : n.index < 3) =>
    grown_keeps_answers methodWithBody surroundingLiteral n rfl (by decide) (by decide)
      (by decide) hn
  obtain ⟨-, hagrees, -, hadopted⟩ := hanswers ⟨2, by decide⟩ (by decide)
  obtain ⟨-, -, hbody, -⟩ := hanswers ⟨1, by decide⟩ (by decide)
  have hmethod : surroundingLiteral.Mentions ⟨2, by decide⟩ := ⟨_, rfl, List.mem_cons_self⟩
  have hother : ¬ surroundingLiteral.Mentions ⟨1, by decide⟩ := by
    rintro ⟨c, hc, hm⟩
    obtain rfl := Option.some.inj (Option.some.inj hc)
    simp [Content.Mentions, Row.ofIndex] at hm
  obtain ⟨own, hown, hrole⟩ := hadopted hmethod
  obtain rfl : Kind.methodDeclaration = own := Option.some.inj hown
  refine ⟨hrole.trans rfl, by decide, (hbody hother).trans (by decide), ?_⟩
  exact hagrees.modifiers.trans (by decide)

end Arena

end TypeAtlas
