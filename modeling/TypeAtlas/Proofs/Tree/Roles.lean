import TypeAtlas.Flags.Containers
import Mathlib.Tactic.Common

/-! What the roles of nodes have to do with one another and with the kinds of the nodes. Most roles
stand in a table of kinds; only methods, properties and blocks are looked at more closely. -/

namespace TypeAtlas

namespace ContainerRole

def contains (role flags : ContainerRole) : Bool :=
  role &&& flags == flags

/-- Which roles go together: whatever is like a function is a scope with locals and a control flow
of its own, locals need a scope, a scope of blocks is nothing else, and function expressions are
like functions. -/
structure Coherent (role : ContainerRole) : Prop where
  functionLike : role.contains functionLike = true → role.contains container = true ∧
    role.contains controlFlow = true ∧ role.contains hasLocals = true
  hasLocals : role.contains hasLocals = true → role.contains container = true
  blockScope : role.contains blockScope = true → role = blockScope
  functionExpression : role.contains functionExpression = true →
    role.contains ContainerRole.functionLike = true

theorem coherent_iff {role : ContainerRole} :
    role.Coherent ↔
      (role.contains functionLike = true → role.contains container = true ∧
        role.contains controlFlow = true ∧ role.contains hasLocals = true) ∧
      (role.contains hasLocals = true → role.contains container = true) ∧
      (role.contains blockScope = true → role = blockScope) ∧
      (role.contains functionExpression = true → role.contains functionLike = true) :=
  ⟨fun h => ⟨h.1, h.2, h.3, h.4⟩, fun h => ⟨h.1, h.2.1, h.2.2.1, h.2.2.2⟩⟩

instance : DecidablePred Coherent := fun _ =>
  decidable_of_iff' _ coherent_iff

variable {k : Kind}

theorem ofKind_of_row {row : List Kind × ContainerRole}
    (h : ofKinds.find? (fun row => row.1.contains k) = some row) :
    row ∈ ofKinds ∧ k ∈ row.1 ∧ ofKind k = row.2 := by
  have hk := List.find?_some (p := fun row : List Kind × ContainerRole => row.1.contains k) h
  refine ⟨List.mem_of_find?_eq_some h, List.contains_iff_mem.mp hk, ?_⟩
  rw [ofKind, h]
  rfl

theorem ofKind_of_no_row (h : ofKinds.find? (fun row => row.1.contains k) = none) :
    (∀ row ∈ ofKinds, k ∉ row.1) ∧ ofKind k = 0 := by
  refine ⟨by simpa using h, ?_⟩
  rw [ofKind, h]
  rfl

/-- What holds of every row of the table and of no role holds of all kinds. -/
theorem ofKind_induction {p : ContainerRole → Prop} (hrows : ∀ row ∈ ofKinds, p row.2)
    (hnone : p 0) (k : Kind) : p (ofKind k) := by
  cases h : ofKinds.find? (fun row => row.1.contains k) with
  | some row =>
    obtain ⟨hrow, -, hrole⟩ := ofKind_of_row h
    rw [hrole]
    exact hrows row hrow
  | none => rwa [(ofKind_of_no_row h).2]

theorem coherent_ofKind (k : Kind) : (ofKind k).Coherent :=
  ofKind_induction (by decide) (by decide) k

theorem contains_literalMethod_ofKind (k : Kind) : (ofKind k).contains literalMethod = false :=
  ofKind_induction (p := fun role => role.contains literalMethod = false) (by decide) (by decide) k

theorem contains_functionLike_ofKind (h : k ≠ .methodDeclaration) :
    (ofKind k).contains functionLike = k.isFunctionLike := by
  cases hfind : ofKinds.find? (fun row => row.1.contains k) with
  | some row =>
    have hrows : ofKinds.all fun row =>
        row.1.all fun k => row.2.contains functionLike == k.isFunctionLike := by decide
    obtain ⟨hrow, hk, hrole⟩ := ofKind_of_row hfind
    rw [hrole]
    exact eq_of_beq (List.all_eq_true.mp (List.all_eq_true.mp hrows row hrow) k hk)
  | none =>
    have hlisted : (Kind.functionSignatures ++ Kind.functionDeclarations).all fun k =>
        k == .methodDeclaration || ofKinds.any fun row => row.1.contains k := by decide
    obtain ⟨hno, hrole⟩ := ofKind_of_no_row hfind
    rw [hrole]
    refine (Bool.eq_false_iff.mpr fun hlike => ?_).symm
    have hmem : k ∈ Kind.functionSignatures ++ Kind.functionDeclarations := by
      simpa [Kind.isFunctionLike, Kind.isFunctionLikeDeclaration] using hlike
    have hrow : ∃ row ∈ ofKinds, k ∈ row.1 := by
      simpa [h] using List.all_eq_true.mp hlisted k hmem
    obtain ⟨row, hrow, hk⟩ := hrow
    exact hno row hrow hk

end ContainerRole

namespace Arena

open ContainerRole

/-- How a node comes to its role: by its kind alone, unless it is a method, a property or a
block. -/
inductive HasRole (a : Arena) (n : NodeRef) : ContainerRole → Prop
  | missing (hkind : a.kind? n = none) : HasRole a n 0
  | literalMethod (hliteral : a.isLiteralMethod n = true) :
      HasRole a n (functionContainer ||| ContainerRole.literalMethod)
  | method (hkind : a.kind? n = some .methodDeclaration) (hliteral : a.isLiteralMethod n = false) :
      HasRole a n functionContainer
  | initialized (hkind : a.kind? n = some .propertyDeclaration) : HasRole a n controlFlow
  | property (hkind : a.kind? n = some .propertyDeclaration) : HasRole a n 0
  | body (hkind : a.kind? n = some .block) (hparent : a.isFunctionLike (a.parent n) = true) :
      HasRole a n 0
  | block (hkind : a.kind? n = some .block) (hparent : a.isFunctionLike (a.parent n) = false) :
      HasRole a n blockScope
  | other {k : Kind} (hkind : a.kind? n = some k) (hmethod : k ≠ .methodDeclaration)
      (hblock : k ≠ .block) : HasRole a n (ofKind k)

theorem hasRole_containerRole (a : Arena) (n : NodeRef) : a.HasRole n (a.containerRole n) := by
  unfold containerRole
  cases hkind : a.kind? n with
  | none => exact .missing hkind
  | some k =>
    dsimp only
    split_ifs with hmethod hliteral hproperty hinitialized hblock hbody
    · exact .literalMethod hliteral
    · exact .method (hmethod ▸ hkind) (Bool.eq_false_iff.mpr hliteral)
    · exact .initialized (hproperty ▸ hkind)
    · exact .property (hproperty ▸ hkind)
    · exact .body (hblock ▸ hkind) hbody
    · exact .block (hblock ▸ hkind) (Bool.eq_false_iff.mpr hbody)
    · exact .other hkind hmethod hblock

variable {a : Arena} {n : NodeRef} {role : ContainerRole}

theorem kind?_of_isLiteralMethod (h : a.isLiteralMethod n = true) :
    a.kind? n = some .methodDeclaration := by
  rw [isLiteralMethod, Bool.and_eq_true] at h
  exact of_decide_eq_true h.1

theorem HasRole.coherent (h : a.HasRole n role) : role.Coherent := by
  cases h with
  | other => exact coherent_ofKind _
  | _ => decide

theorem HasRole.contains_functionLike (h : a.HasRole n role) :
    role.contains functionLike = a.isFunctionLike n := by
  cases h with
  | missing hkind => rw [isFunctionLike, hkind]; rfl
  | literalMethod hliteral => rw [isFunctionLike, kind?_of_isLiteralMethod hliteral]; rfl
  | method hkind | initialized hkind | property hkind | body hkind | block hkind =>
    rw [isFunctionLike, hkind]
    rfl
  | other hkind hmethod =>
    rw [isFunctionLike, hkind]
    exact contains_functionLike_ofKind hmethod

theorem HasRole.contains_literalMethod (h : a.HasRole n role) :
    role.contains ContainerRole.literalMethod = a.isLiteralMethod n := by
  cases h with
  | literalMethod hliteral => rw [hliteral]; rfl
  | method _ hliteral => rw [hliteral]; rfl
  | missing hkind | initialized hkind | property hkind | body hkind | block hkind =>
    rw [isLiteralMethod, hkind]
    rfl
  | other hkind hmethod =>
    rw [contains_literalMethod_ofKind, isLiteralMethod, hkind]
    simp [hmethod]

theorem HasRole.contains_blockScope (h : a.HasRole n role) (hkind : a.kind? n = some .block) :
    role.contains blockScope = !a.isFunctionLike (a.parent n) := by
  cases h with
  | body _ hparent => rw [hparent]; rfl
  | block _ hparent => rw [hparent]; rfl
  | literalMethod hliteral =>
    exact absurd ((kind?_of_isLiteralMethod hliteral).symm.trans hkind) (by decide)
  | other hother _ hblock => exact absurd (Option.some.inj (hother.symm.trans hkind)) hblock
  | missing hother | method hother | initialized hother | property hother =>
    exact absurd (hother.symm.trans hkind) (by decide)

/-- The roles of all nodes of a tree fit together: they say whether the node is like a function and
whether it is a method of a literal, no role is without those that go with it, and a block is a
scope of its own just when the role of its parent is not that of a function. -/
theorem containerRole_consistent (a : Arena) (n : NodeRef) :
    ((a.containerRole n).contains functionLike = true ↔ a.isFunctionLike n = true) ∧
      ((a.containerRole n).contains ContainerRole.literalMethod = true ↔
        a.isLiteralMethod n = true) ∧
      (a.containerRole n).Coherent ∧
      (a.kind? n = some .block →
        ((a.containerRole n).contains blockScope = true ↔
          ¬ (a.containerRole (a.parent n)).contains functionLike = true)) := by
  have hrole := a.hasRole_containerRole n
  have hparent := a.hasRole_containerRole (a.parent n)
  refine ⟨?_, ?_, hrole.coherent, fun hblock => ?_⟩
  · rw [hrole.contains_functionLike]
  · rw [hrole.contains_literalMethod]
  · rw [hrole.contains_blockScope hblock, hparent.contains_functionLike, Bool.not_eq_true',
      Bool.not_eq_true]

end Arena

end TypeAtlas
