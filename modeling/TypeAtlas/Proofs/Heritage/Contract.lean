import TypeAtlas.Draft
import TypeAtlas.Proofs.Heritage.FirstFailure
import TypeAtlas.Proofs.Heritage.Reports

/-! What the heritage queries make of types that do not fit the bindings. The walk from a
declaration refuses them. The queries about a single clause take properties as they come, and the
one about implemented types does not even ask whether there is such a type. -/

namespace TypeAtlas

namespace Program

section Definitions

variable (p : Program)

def Bears : HeritageError → Prop
  | .unresolvedType r => p.types.typeAt? r = none
  | .missingTypeSymbol r =>
    ∃ type, p.types.typeAt? r = some type ∧ p.types.declaringSymbol? type = none
  | .unknownSymbol s => p.bindings.symbol? s = none
  | .tooDeep _ e => ∃ d, Chain p.Base (maxHeritageDepth + 1) d e

def Rejected (result : Except HeritageError (List SymbolRef)) : Prop :=
  ∃ e, result = .error e ∧ p.Bears e

/-- What is asked of a query that asks for the types of some references and collects the properties
of some of these types: it finds known symbols only, and fails if there is no such type or if one of
the properties is unknown. -/
structure Checked (asked collected : NodeRef → Prop)
    (result : Except HeritageError (List SymbolRef)) : Prop where
  known : ∀ members, result = .ok members → ∀ s ∈ members, (p.bindings.symbol? s).isSome
  type : ∀ r type, asked r → p.types.typeAt? r = some type → p.types.entry? type = none →
    p.Rejected result
  property : ∀ r type s, collected r → p.types.typeAt? r = some type →
    s ∈ p.types.properties type → p.bindings.symbol? s = none → p.Rejected result

def Consistent (reference : NodeRef) : Prop :=
  ∀ type, p.types.typeAt? reference = some type → (p.types.entry? type).isSome ∧
    ∀ s ∈ p.types.properties type, (p.bindings.symbol? s).isSome

def Named (reference : NodeRef) : Prop :=
  ∃ type symbol, p.Names reference type symbol

def AbstractBase (reference : NodeRef) : Prop :=
  ∃ type symbol, p.Names reference type symbol ∧ symbol.isAbstractClass p.arena = true

def typeProperties (reference : NodeRef) : List SymbolRef :=
  ((p.types.typeAt? reference).map p.types.properties).getD []

def abstractProperties (reference : NodeRef) : List SymbolRef :=
  match p.declaredType reference with
  | .ok (type, symbol) => if symbol.isAbstractClass p.arena then p.types.properties type else []
  | .error _ => []

end Definitions

variable {p : Program}

theorem Named.entry {r : NodeRef} {type : TypeId} (h : p.Named r)
    (htype : p.types.typeAt? r = some type) : (p.types.entry? type).isSome := by
  obtain ⟨type', symbol, ht, s, hs, -⟩ := h
  obtain rfl : type' = type := Option.some.inj (ht.symm.trans htype)
  obtain ⟨entry, hentry, -⟩ := Option.bind_eq_some_iff.mp hs
  exact Option.isSome_of_eq_some hentry

theorem Settled.consistent {r : NodeRef} (h : p.Settled r) : p.Consistent r := by
  intro type htype
  obtain ⟨type', symbol, hnames, hknown⟩ := h
  obtain rfl : type' = type := Option.some.inj (hnames.1.symm.trans htype)
  exact ⟨Named.entry ⟨_, _, hnames⟩ htype, hknown⟩

theorem bears_of_property {s : SymbolRef} {e : HeritageError}
    (h : p.failure (.property s) = some e) : p.Bears e := by
  cases hs : p.bindings.symbol? s with
  | none =>
    obtain rfl : .unknownSymbol s = e := by simpa [failure, hs] using h
    exact hs
  | some symbol => simp [failure, hs] at h

theorem bears_of_reference {steps : Nat} {r : NodeRef} {e : HeritageError}
    (h : p.failure (.reference steps r) = some e) : p.Bears e := by
  cases ht : p.types.typeAt? r with
  | none =>
    obtain rfl : .unresolvedType r = e := by simpa [failure, ht] using h
    exact ht
  | some type =>
    cases hs : p.types.declaringSymbol? type with
    | none =>
      obtain rfl : .missingTypeSymbol r = e := by simpa [failure, ht, hs] using h
      exact ⟨type, ht, hs⟩
    | some s =>
      simp only [failure, ht, hs] at h
      exact bears_of_property h

theorem bears_of_inherited {d : NodeRef} {e : HeritageError} (h : p.inherited d = .error e) :
    p.Bears e := by
  obtain ⟨position, subject, -, hfail⟩ := ((inherited_endsAs d).2 e).mp h
  cases subject with
  | declaration steps f =>
    simp only [failure] at hfail
    split at hfail
    · obtain rfl := Option.some.inj hfail
      exact ⟨d, chain_of_tooDeep h⟩
    · cases hfail
  | reference steps r => exact bears_of_reference hfail
  | property s => exact bears_of_property hfail

theorem bears_of_typeOf {r : NodeRef} {e : HeritageError} (h : p.typeOf r = .error e) :
    p.Bears e := by
  cases ht : p.types.typeAt? r with
  | none =>
    obtain rfl : .unresolvedType r = e := by simpa [typeOf, ht] using h
    exact ht
  | some type => simp [typeOf, ht] at h

/-- A query that collects from every reference of a list, or fails with the first one that it cannot
collect from. -/
structure Collects (references : NodeList) (holds : NodeRef → Prop)
    (collect : NodeRef → List SymbolRef) (result : Except HeritageError (List SymbolRef)) :
    Prop where
  ok_iff : ∀ members, result = .ok members ↔
    (∀ r ∈ references, holds r) ∧ members = references.flatMap collect
  bears : ∀ e, result = .error e → p.Bears e

theorem collects_mapM {references : NodeList} {f : NodeRef → Except HeritageError (List SymbolRef)}
    {holds : NodeRef → Prop} {collect : NodeRef → List SymbolRef}
    (hok : ∀ r members, f r = .ok members ↔ holds r ∧ members = collect r)
    (hbears : ∀ r e, f r = .error e → p.Bears e) :
    p.Collects references holds collect (do return (← references.mapM f).flatten) := by
  constructor
  · intro members
    simp only [bind_eq_ok_iff, mapM_eq_ok_iff fun r _ => hok r, pure, Except.pure,
      Except.ok.injEq]
    constructor
    · rintro ⟨_, ⟨hall, rfl⟩, rfl⟩
      exact ⟨hall, List.flatMap_def.symm⟩
    · rintro ⟨hall, rfl⟩
      exact ⟨_, ⟨hall, rfl⟩, List.flatMap_def.symm⟩
  · intro e he
    rcases bind_eq_error_iff.mp he with he | ⟨_, _, he⟩
    · obtain ⟨r, -, hr⟩ := exists_error_of_mapM he
      exact hbears r e hr
    · cases he

theorem abstractMembers_collects (clause : NodeRef) :
    p.Collects (p.arena.clauseTypes clause) p.Named p.abstractProperties
      (p.abstractMembers clause) := by
  refine collects_mapM (fun r members => ?_) fun r e he => ?_
  · constructor
    · intro h
      obtain ⟨⟨type, symbol⟩, hr, hmembers⟩ := bind_eq_ok_iff.mp h
      refine ⟨⟨type, symbol, declaredType_eq_ok_iff.mp hr⟩, ?_⟩
      rw [abstractProperties, hr]
      exact (Except.ok.inj hmembers).symm
    · rintro ⟨⟨type, symbol, hnames⟩, rfl⟩
      have hr := declaredType_eq_ok_iff.mpr hnames
      rw [abstractProperties, hr]
      rfl
  · rcases bind_eq_error_iff.mp he with he | ⟨_, _, he⟩
    · have hfail : p.failure (.reference 0 r) = some e := declaredType_eq_error_iff.mp he
      exact bears_of_reference hfail
    · cases he

theorem implementedMembers_collects (clause : NodeRef) :
    p.Collects (p.arena.clauseTypes clause) (fun r => (p.types.typeAt? r).isSome) p.typeProperties
      (p.implementedMembers clause) := by
  refine collects_mapM (fun r members => ?_) fun r e he => ?_
  · cases ht : p.types.typeAt? r with
    | none => simp [typeOf, ht, bind, Except.bind]
    | some type => simp [typeOf, typeProperties, ht, bind, Except.bind, pure, Except.pure, eq_comm]
  · rcases bind_eq_error_iff.mp he with he | ⟨_, _, he⟩
    · exact bears_of_typeOf he
    · cases he

theorem mem_abstractProperties_iff {r : NodeRef} {s : SymbolRef} :
    s ∈ p.abstractProperties r ↔
      p.AbstractBase r ∧ ∃ type, p.types.typeAt? r = some type ∧ s ∈ p.types.properties type := by
  cases h : p.declaredType r with
  | error e =>
    simp only [abstractProperties, h, List.not_mem_nil, false_iff]
    rintro ⟨⟨type, symbol, hnames, -⟩, -⟩
    rw [declaredType_eq_ok_iff.mpr hnames] at h
    cases h
  | ok named =>
    obtain ⟨type, symbol⟩ := named
    have hnames := declaredType_eq_ok_iff.mp h
    have hbase : p.AbstractBase r ↔ symbol.isAbstractClass p.arena = true := by
      constructor
      · rintro ⟨type', symbol', hnames', habstract⟩
        rw [declaredType_eq_ok_iff.mpr hnames'] at h
        cases h
        exact habstract
      · exact fun habstract => ⟨type, symbol, hnames, habstract⟩
    rw [hbase, abstractProperties, h]
    by_cases habstract : symbol.isAbstractClass p.arena = true <;> simp [hnames.1, habstract]

theorem mem_typeProperties_iff {r : NodeRef} {s : SymbolRef} :
    s ∈ p.typeProperties r ↔ ∃ type, p.types.typeAt? r = some type ∧
      s ∈ p.types.properties type := by
  cases h : p.types.typeAt? r <;> simp [typeProperties, h]

theorem not_rejected_ok (members : List SymbolRef) : ¬ p.Rejected (.ok members) := by
  rintro ⟨e, he, -⟩
  cases he

theorem checked_of_rejected {asked collected : NodeRef → Prop}
    {result : Except HeritageError (List SymbolRef)} (h : p.Rejected result) :
    p.Checked asked collected result where
  known members hmembers := by
    rw [hmembers] at h
    exact absurd h (not_rejected_ok members)
  type _ _ _ _ _ := h
  property _ _ _ _ _ _ _ := h

theorem Collects.checked_iff {references : NodeList} {holds taken : NodeRef → Prop}
    {collect : NodeRef → List SymbolRef} {result : Except HeritageError (List SymbolRef)}
    (h : p.Collects references holds collect result)
    (hcollect : ∀ r s, s ∈ collect r ↔
      taken r ∧ ∃ type, p.types.typeAt? r = some type ∧ s ∈ p.types.properties type)
    (hentry : ∀ r type, holds r → ¬ taken r → p.types.typeAt? r = some type →
      (p.types.entry? type).isSome) :
    p.Checked (· ∈ references) (fun r => r ∈ references ∧ taken r) result ↔
      (∃ r ∈ references, ¬ holds r) ∨ ∀ r ∈ references, taken r → p.Consistent r := by
  by_cases hall : ∀ r ∈ references, holds r
  · have hok := (h.ok_iff _).mpr ⟨hall, rfl⟩
    constructor
    · intro hchecked
      refine .inr fun r hr ht type htype => ⟨?_, fun s hs => ?_⟩
      · by_contra hnone
        have hrejected := hchecked.type r type hr htype (Option.not_isSome_iff_eq_none.mp hnone)
        rw [hok] at hrejected
        exact not_rejected_ok _ hrejected
      · have hmem := (hcollect r s).mpr ⟨ht, type, htype, hs⟩
        exact hchecked.known _ hok s (List.mem_flatMap.mpr ⟨r, hr, hmem⟩)
    · rintro (⟨r, hr, hnot⟩ | hconsistent)
      · exact absurd (hall r hr) hnot
      refine ⟨fun members hmembers s hs => ?_, fun r type hr htype hnone => ?_,
        fun r type s hr htype hs hnone => ?_⟩
      · obtain rfl := ((h.ok_iff members).mp hmembers).2
        obtain ⟨r, hr, hs⟩ := List.mem_flatMap.mp hs
        obtain ⟨ht, type, htype, hs⟩ := (hcollect r s).mp hs
        exact (hconsistent r hr ht type htype).2 s hs
      · have hsome : (p.types.entry? type).isSome := by
          by_cases ht : taken r
          · exact (hconsistent r hr ht type htype).1
          · exact hentry r type (hall r hr) ht htype
        simp [hnone] at hsome
      · have hsome := (hconsistent r hr.1 hr.2 type htype).2 s hs
        simp [hnone] at hsome
  · have hrejected : p.Rejected result := by
      cases hresult : result with
      | ok members => exact absurd ((h.ok_iff members).mp hresult).1 hall
      | error e => exact ⟨e, rfl, h.bears e hresult⟩
    simp only [not_forall, exists_prop] at hall
    exact iff_of_true (checked_of_rejected hrejected) (.inl hall)

theorem inherited_rejected {d r : NodeRef} {path : HeritagePath} (hpath : p.PathTo d path r)
    (h : ¬ p.Consistent r) : p.Rejected (p.inherited d) := by
  cases hresult : p.inherited d with
  | ok members =>
    have hsettled := (inherited_eq_ok_iff.mp hresult).1.settled path r hpath
    exact absurd hsettled.consistent h
  | error e => exact ⟨e, rfl, bears_of_inherited hresult⟩

theorem inherited_checked (d : NodeRef) :
    p.Checked (fun r => ∃ path, p.PathTo d path r) (fun r => ∃ path, p.PathTo d path r)
      (p.inherited d) where
  known _ h := known_of_inherited h
  type := by
    rintro r type ⟨path, hpath⟩ htype hnone
    refine inherited_rejected hpath fun hconsistent => ?_
    have hsome := (hconsistent type htype).1
    simp [hnone] at hsome
  property := by
    rintro r type s ⟨path, hpath⟩ htype hs hnone
    refine inherited_rejected hpath fun hconsistent => ?_
    have hsome := (hconsistent type htype).2 s hs
    simp [hnone] at hsome

/-- The walk from a declaration finds known symbols only and refuses types and properties that do
not exist. The queries about a clause do so exactly if they fail for another reason or there is
nothing to refuse. -/
theorem queries_checked_iff (p : Program) (n : NodeRef) :
    p.Checked (fun r => ∃ path, p.PathTo n path r) (fun r => ∃ path, p.PathTo n path r)
        (p.inherited n) ∧
      (p.Checked (· ∈ p.arena.clauseTypes n)
          (fun r => r ∈ p.arena.clauseTypes n ∧ p.AbstractBase r) (p.abstractMembers n) ↔
        (∃ r ∈ p.arena.clauseTypes n, ¬ p.Named r) ∨
          ∀ r ∈ p.arena.clauseTypes n, p.AbstractBase r → p.Consistent r) ∧
      (p.Checked (· ∈ p.arena.clauseTypes n) (· ∈ p.arena.clauseTypes n)
          (p.implementedMembers n) ↔
        (∃ r ∈ p.arena.clauseTypes n, p.types.typeAt? r = none) ∨
          ∀ r ∈ p.arena.clauseTypes n, p.Consistent r) := by
  refine ⟨inherited_checked n, ?_, ?_⟩
  · exact (abstractMembers_collects n).checked_iff (fun r s => mem_abstractProperties_iff)
      fun r type hnamed _ htype => hnamed.entry htype
  · have hcollect : ∀ r s, s ∈ p.typeProperties r ↔ True ∧ ∃ type,
        p.types.typeAt? r = some type ∧ s ∈ p.types.properties type := by
      intro r s
      rw [mem_typeProperties_iff, true_and]
    have h := (implementedMembers_collects n).checked_iff hcollect
      fun _ _ _ hnot => absurd trivial hnot
    simpa using h

/-- A class that extends and implements an abstract one. The type in its `extends` clause has a
property that is unknown, and the type in its `implements` clause does not exist. -/
def unknownParts : Program :=
  let d := Draft.start "a.ts"
  let d := (d.declare true { name := "A", modifiers := [.abstractKeyword] }).1
  let d := (d.declare true { name := "C", bases := ["A"], implements := ["A"] }).1
  let p := d.finish
  let (types, type) :=
    p.types.add { symbol := some (Row.ofIndex 0), properties := [Row.ofIndex 99] }
  { p with types := (types.setTypeAt (Row.ofIndex 5) type).setTypeAt (Row.ofIndex 8) 7 }

theorem unknownParts_not_checked :
    (¬ ∀ n, unknownParts.Checked (· ∈ unknownParts.arena.clauseTypes n)
        (fun r => r ∈ unknownParts.arena.clauseTypes n ∧ unknownParts.AbstractBase r)
        (unknownParts.abstractMembers n)) ∧
      ¬ ∀ n, unknownParts.Checked (· ∈ unknownParts.arena.clauseTypes n)
        (· ∈ unknownParts.arena.clauseTypes n) (unknownParts.implementedMembers n) := by
  have hextends : unknownParts.abstractMembers (Row.ofIndex 6) = .ok [Row.ofIndex 99] :=
    rfl
  have himplements : unknownParts.implementedMembers (Row.ofIndex 9) = .ok [] :=
    rfl
  constructor
  · intro h
    have hknown := (h (Row.ofIndex 6)).known _ hextends (Row.ofIndex 99) List.mem_cons_self
    revert hknown
    decide
  · intro h
    have hrejected := (h (Row.ofIndex 9)).type (Row.ofIndex 8) 7 (by decide) (by decide) (by decide)
    rw [himplements] at hrejected
    exact not_rejected_ok _ hrejected

end Program

end TypeAtlas
