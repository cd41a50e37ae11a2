import TypeAtlas.Heritage
import TypeAtlas.Proofs.Sequences

/-! What the steps of the heritage walk do: which references a declaration has, how a reference leads
to declarations, which members it passes on, and when a lookup on the way fails. -/

namespace TypeAtlas

/-- Heritage goes on behind a symbol with its value declaration or, if it has none, with any one of
its declarations, by number. -/
inductive Symbol.BaseAt (s : Symbol) : Nat → NodeRef → Prop
  | value {d : NodeId} (value : s.valueDeclaration = some d) : s.BaseAt 0 (some d)
  | declaration {i : Nat} {d : NodeRef} (value : s.valueDeclaration = none)
    (at_number : s.declarations[i]? = some d) : s.BaseAt i d

theorem Symbol.baseAt_iff {s : Symbol} {i : Nat} {d : NodeRef} :
    s.BaseAt i d ↔ s.bases[i]? = some d := by
  constructor
  · rintro (hvalue | ⟨hnone, hat⟩)
    · simp [bases, hvalue]
    · simpa [bases, hnone] using hat
  · intro hat
    cases h : s.valueDeclaration with
    | none => exact .declaration h (by simpa [bases, h] using hat)
    | some value =>
      obtain ⟨rfl, rfl⟩ : i = 0 ∧ some value = d := by
        simpa [bases, h, List.getElem?_singleton] using hat
      exact .value h

/-- Where a type reference stands in a declaration: in which heritage clause, and where in it. -/
structure Place where
  clause : Nat
  reference : Nat

namespace Program

section Definitions

variable (p : Program)

def clauses (declaration : NodeRef) : NodeList :=
  match p.arena.content? declaration with
  | some (.classLike d) | some (.interface d) => d.heritageClauses.getD []
  | _ => []

def clauseReferences (clause : NodeRef) : NodeList :=
  match p.arena.content? clause with
  | some (.heritageClause c) => c.types
  | _ => []

def referenceAt? (declaration : NodeRef) (place : Place) : Option NodeRef :=
  (p.clauses declaration)[place.clause]?.bind fun clause =>
    (p.clauseReferences clause)[place.reference]?

def Names (reference : NodeRef) (type : TypeId) (symbol : Symbol) : Prop :=
  p.types.typeAt? reference = some type ∧
    ∃ s, p.types.declaringSymbol? type = some s ∧ p.bindings.symbol? s = some symbol

/-- One step of the walk, from a declaration to a declaration of a type that it refers to. -/
def Base (declaration base : NodeRef) : Prop :=
  ∃ place reference type symbol i, p.referenceAt? declaration place = some reference ∧
    p.Names reference type symbol ∧ symbol.BaseAt i base

def references (declaration : NodeRef) : NodeList :=
  (p.clauses declaration).flatMap p.clauseReferences

/-- The declarations that a reference leads to, in the order of their numbers. -/
def bases (reference : NodeRef) : List NodeRef :=
  match (p.types.typeAt? reference).bind fun type =>
    (p.types.declaringSymbol? type).bind p.bindings.symbol? with
  | some symbol =>
    match symbol.valueDeclaration with
    | some d => [some d]
    | none => symbol.declarations
  | none => []

/-- The value declaration of a symbol, or a node above it, exports its members. -/
def isExportedMember (s : SymbolRef) : Bool :=
  (p.bindings.symbol? s).any fun symbol =>
    (p.arena.ancestry symbol.valueDeclaration).any fun n =>
      (p.arena.node? n).any fun node => node.flags &&& NodeFlags.exportContext != 0

def exportedMembers (reference : NodeRef) : List SymbolRef :=
  match p.types.typeAt? reference with
  | some type => (p.types.properties type).filter p.isExportedMember
  | none => []

def passedOn (budget : Nat) (reference : NodeRef) : Except HeritageError (List SymbolRef) := do
  let (type, symbol) ← p.declaredType reference
  let inherited ← symbol.bases.mapM (p.inheritedWithin budget)
  let own ← (p.types.properties type).mapM p.exportedProperty
  return inherited.flatten ++ own.flatten

end Definitions

variable {p : Program}

theorem inheritedWithin_succ (budget : Nat) (d : NodeRef) :
    p.inheritedWithin (budget + 1) d = (do
      let members ← (p.heritageReferences d).mapM (p.passedOn budget)
      return members.flatten) :=
  rfl

theorem typeOf_eq_ok_iff {r : NodeRef} {type : TypeId} :
    p.typeOf r = .ok type ↔ p.types.typeAt? r = some type := by
  cases h : p.types.typeAt? r <;> simp [typeOf, h]

theorem symbol_eq_ok_iff {s : SymbolRef} {symbol : Symbol} :
    p.symbol s = .ok symbol ↔ p.bindings.symbol? s = some symbol := by
  cases h : p.bindings.symbol? s <;> simp [Program.symbol, h]

theorem declaredType_eq_ok_iff {r : NodeRef} {type : TypeId} {symbol : Symbol} :
    p.declaredType r = .ok (type, symbol) ↔ p.Names r type symbol := by
  rw [declaredType, bind_eq_ok_iff]
  constructor
  · rintro ⟨type', ht, h⟩
    cases hs : p.types.declaringSymbol? type' with
    | none => simp [hs] at h
    | some s =>
      simp only [hs, bind_eq_ok_iff, pure, Except.pure, Except.ok.injEq, Prod.mk.injEq] at h
      obtain ⟨_, hsymbol, rfl, rfl⟩ := h
      exact ⟨typeOf_eq_ok_iff.mp ht, s, hs, symbol_eq_ok_iff.mp hsymbol⟩
  · rintro ⟨ht, s, hs, hsymbol⟩
    refine ⟨type, typeOf_eq_ok_iff.mpr ht, ?_⟩
    simp only [hs, symbol_eq_ok_iff.mpr hsymbol]
    rfl

theorem clauses_eq (d : NodeRef) : p.clauses d = (p.arena.heritageClauses? d).getD [] := by
  rw [clauses, Arena.heritageClauses?]
  cases p.arena.content? d with
  | none => rfl
  | some content => cases content <;> rfl

theorem clauseReferences_eq (clause : NodeRef) :
    p.clauseReferences clause = p.arena.clauseTypes clause := by
  rw [clauseReferences, Arena.clauseTypes, Arena.heritageClause?]
  cases p.arena.content? clause with
  | none => rfl
  | some content => cases content <;> rfl

theorem references_eq (d : NodeRef) : p.references d = p.heritageReferences d := by
  rw [references, heritageReferences, clauses_eq]
  exact List.flatMap_congr fun clause _ => clauseReferences_eq clause

theorem Names.bases_eq {r : NodeRef} {type : TypeId} {symbol : Symbol}
    (h : p.Names r type symbol) : p.bases r = symbol.bases := by
  obtain ⟨htype, s, hs, hsymbol⟩ := h
  cases hvalue : symbol.valueDeclaration <;>
    simp [bases, htype, hs, hsymbol, hvalue, Symbol.bases]

theorem Names.exportedMembers_eq {r : NodeRef} {type : TypeId} {symbol : Symbol}
    (h : p.Names r type symbol) :
    p.exportedMembers r = (p.types.properties type).filter p.isExportedMember := by
  simp [exportedMembers, h.1]

theorem names_of_mem_bases {r e : NodeRef} (h : e ∈ p.bases r) :
    ∃ type symbol, p.Names r type symbol := by
  cases hsymbol : (p.types.typeAt? r).bind fun type =>
      (p.types.declaringSymbol? type).bind p.bindings.symbol? with
  | none =>
    simp only [bases, hsymbol] at h
    cases h
  | some symbol =>
    obtain ⟨type, htype, hs⟩ := Option.bind_eq_some_iff.mp hsymbol
    obtain ⟨s, hs, hsymbol⟩ := Option.bind_eq_some_iff.mp hs
    exact ⟨type, symbol, htype, s, hs, hsymbol⟩

theorem getElem?_bases_iff {r e : NodeRef} {i : Nat} :
    (p.bases r)[i]? = some e ↔ ∃ type symbol, p.Names r type symbol ∧ symbol.BaseAt i e := by
  constructor
  · intro hat
    obtain ⟨type, symbol, hn⟩ := names_of_mem_bases (List.mem_of_getElem? hat)
    rw [hn.bases_eq] at hat
    exact ⟨type, symbol, hn, Symbol.baseAt_iff.mpr hat⟩
  · rintro ⟨type, symbol, hn, hat⟩
    rw [hn.bases_eq]
    exact Symbol.baseAt_iff.mp hat

theorem isExportedMember_eq (s : SymbolRef) :
    p.isExportedMember s = (p.bindings.symbol? s).any (·.inExportContext p.arena) :=
  rfl

theorem exportedProperty_eq_ok_iff {s : SymbolRef} {members : List SymbolRef} :
    p.exportedProperty s = .ok members ↔
      (p.bindings.symbol? s).isSome ∧ members = [s].filter p.isExportedMember := by
  rw [exportedProperty, bind_eq_ok_iff]
  cases h : p.bindings.symbol? s with
  | none => simp [Program.symbol, h]
  | some symbol =>
    have hf : [s].filter p.isExportedMember =
        if symbol.inExportContext p.arena then [s] else [] := by
      cases hc : symbol.inExportContext p.arena <;> simp [isExportedMember_eq, h, hc]
    simp only [symbol_eq_ok_iff, h, hf, pure, Except.pure, Option.some.injEq, Except.ok.injEq,
      Option.isSome_some, true_and]
    constructor
    · rintro ⟨_, rfl, rfl⟩
      rfl
    · rintro rfl
      exact ⟨symbol, rfl, rfl⟩

end Program

end TypeAtlas
