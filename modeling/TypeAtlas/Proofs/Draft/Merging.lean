import TypeAtlas.Proofs.Symbols.Declaring
import Mathlib.Data.List.Basic

/-! Which declarations of a draft have a symbol in common. A declaration joins the one before it of
the same name if both are classes or both are interfaces, and has a symbol of its own otherwise. -/

namespace TypeAtlas

structure Declaration where
  isClass : Bool
  spec : DeclarationSpec

namespace Declaration

def name (c : Declaration) : String :=
  c.spec.name

def targets (c : Declaration) : List String :=
  c.spec.bases ++ c.spec.implements

def flags (c : Declaration) : UInt32 :=
  if c.isClass then SymbolFlags.classLike else SymbolFlags.interface

end Declaration

/-- A declaration with what a draft has made of it. -/
structure Made where
  declaration : Declaration
  node : NodeRef
  members : NodeList
  pending : List PendingReference
  symbol : SymbolRef
  memberSymbols : List SymbolRef

namespace Made

def named (made : List Made) (name : String) : List Made :=
  made.filter (·.declaration.name = name)

def nodesOf (made : List Made) (s : SymbolRef) : List NodeRef :=
  (made.filter (·.symbol = s)).map node

/-- What is known of a symbol by its declarations. -/
def symbolOf (made : List Made) (x : Made) : Symbol :=
  { flags := x.declaration.flags
    name := x.declaration.name
    declarations := nodesOf made x.symbol
    valueDeclaration := if x.declaration.isClass then (nodesOf made x.symbol).head?.join else none }

/-- The declarations of one name have the symbol of the first one up to the first change between
classes and interfaces, and then never again. -/
def Divided (made : List Made) : Prop :=
  ∀ x, made.head? = some x → ∃ early late, made = early ++ late ∧
    (∀ y ∈ early, y.declaration.isClass = x.declaration.isClass ∧ y.symbol = x.symbol) ∧
    (∀ y ∈ late, y.symbol ≠ x.symbol) ∧
    ∀ y, late.head? = some y → y.declaration.isClass ≠ x.declaration.isClass

theorem named_append (made made' : List Made) (name : String) :
    named (made ++ made') name = named made name ++ named made' name :=
  List.filter_append made made'

theorem named_singleton (y : Made) (name : String) :
    named [y] name = if y.declaration.name = name then [y] else [] := by
  by_cases h : y.declaration.name = name <;> simp [named, h]

theorem mem_named_iff {made : List Made} {name : String} {x : Made} :
    x ∈ named made name ↔ x ∈ made ∧ x.declaration.name = name := by
  simp [named]

theorem Divided.append {made : List Made} {y : Made} (h : Divided made)
    (hjoin : ∀ z, made.getLast? = some z →
      z.declaration.isClass = y.declaration.isClass → y.symbol = z.symbol)
    (hsplit : ∀ z, made.getLast? = some z →
      z.declaration.isClass ≠ y.declaration.isClass → ∀ x ∈ made, y.symbol ≠ x.symbol) :
    Divided (made ++ [y]) := by
  intro x hx
  cases hlast : made.getLast? with
  | none =>
    obtain rfl := List.getLast?_eq_none_iff.mp hlast
    obtain rfl : y = x := by simpa using hx
    exact ⟨[y], [], rfl, by simp, by simp, by simp⟩
  | some z =>
    have hne : made ≠ [] := by
      rintro rfl
      cases hlast
    have hhead : made.head? = some x := by rwa [List.head?_append_of_ne_nil _ hne] at hx
    have hxmem : x ∈ made := List.mem_of_head? hhead
    obtain ⟨early, late, rfl, hearly, hlate, hfirst⟩ := h x hhead
    rcases List.eq_nil_or_concat late with rfl | ⟨late, z', rfl⟩
    · -- no change so far: `y` joins the first declaration or is the first change
      rw [List.append_nil] at hlast hhead hxmem hjoin hsplit hne
      have hz := hearly z (List.mem_of_getLast? hlast)
      by_cases hkind : z.declaration.isClass = y.declaration.isClass
      · refine ⟨early ++ [y], [], by simp, ?_, by simp, by simp⟩
        intro w hw
        rcases List.mem_append.mp hw with hw | hw
        · exact hearly w hw
        · obtain rfl := List.mem_singleton.mp hw
          exact ⟨hkind.symm.trans hz.1, (hjoin z hlast hkind).trans hz.2⟩
      · refine ⟨early, [y], by simp, hearly, ?_, ?_⟩
        · intro w hw
          obtain rfl := List.mem_singleton.mp hw
          exact hsplit z hlast hkind x hxmem
        · intro w hw
          obtain rfl : y = w := by simpa using hw
          exact fun heq => hkind (hz.1.trans heq.symm)
    · obtain rfl : z' = z := by simpa [← List.append_assoc] using hlast
      refine ⟨early, late ++ [z'] ++ [y], by simp, hearly, ?_, ?_⟩
      · intro w hw
        rcases List.mem_append.mp hw with hw | hw
        · exact hlate w (by simpa using hw)
        · obtain rfl := List.mem_singleton.mp hw
          by_cases hkind : z'.declaration.isClass = w.declaration.isClass
          · rw [hjoin z' hlast hkind]
            exact hlate z' (by simp)
          · exact hsplit z' hlast hkind x hxmem
      · intro w hw
        apply hfirst w
        simpa using hw

theorem nodesOf_append_of_ne {made : List Made} {y : Made} {s : SymbolRef} (h : y.symbol ≠ s) :
    nodesOf (made ++ [y]) s = nodesOf made s := by
  simp [nodesOf, h]

theorem nodesOf_append_self (made : List Made) (y : Made) :
    nodesOf (made ++ [y]) y.symbol = nodesOf made y.symbol ++ [y.node] := by
  simp [nodesOf]

theorem symbolOf_congr {made : List Made} {x y : Made} (hsymbol : x.symbol = y.symbol)
    (hname : x.declaration.name = y.declaration.name)
    (hkind : x.declaration.isClass = y.declaration.isClass) :
    symbolOf made x = symbolOf made y := by
  simp only [symbolOf, Declaration.flags, hsymbol, hname, hkind]

theorem symbolOf_append_of_ne {made : List Made} {x y : Made} (h : y.symbol ≠ x.symbol) :
    symbolOf (made ++ [y]) x = symbolOf made x := by
  simp only [symbolOf, nodesOf_append_of_ne h]

theorem flags_eq_iff {c c' : Declaration} : c.flags = c'.flags ↔ c.isClass = c'.isClass := by
  unfold Declaration.flags
  cases c.isClass <;> cases c'.isClass <;> decide

theorem hasAnyFlag_symbolOf_iff {made : List Made} {x : Made} {c : Declaration} :
    (symbolOf made x).hasAnyFlag c.flags = true ↔ x.declaration.isClass = c.isClass := by
  change (x.declaration.flags &&& c.flags != 0) = true ↔ _
  unfold Declaration.flags
  cases x.declaration.isClass <;> cases c.isClass <;> decide

theorem flags_ne_property (c : Declaration) : c.flags ≠ SymbolFlags.property := by
  unfold Declaration.flags
  cases c.isClass <;> decide

theorem value_flags_iff (c : Declaration) :
    (c.flags &&& SymbolFlags.value != 0) = c.isClass := by
  unfold Declaration.flags
  cases c.isClass <;> decide

theorem declare_of_some {y : Made} {n : NodeId} (hn : y.node = some n) (s : Symbol) :
    s.declare y.node y.declaration.flags =
      { s with
        flags := s.flags ||| y.declaration.flags
        declarations := s.declarations ++ [y.node]
        valueDeclaration :=
          if y.declaration.isClass && s.valueDeclaration.isNone then y.node
          else s.valueDeclaration } := by
  rw [← value_flags_iff, hn]
  rfl

theorem declared_eq_symbolOf {made : List Made} {y : Made} {n : NodeId} (hn : y.node = some n)
    (h : ∀ x ∈ made, x.symbol ≠ y.symbol) :
    Bindings.declared y.declaration.flags y.declaration.name y.node =
      symbolOf (made ++ [y]) y := by
  have hnodes : nodesOf made y.symbol = [] := by
    simpa [nodesOf] using h
  rw [Bindings.declared, declare_of_some hn]
  simp only [symbolOf, nodesOf_append_self, hnodes]
  cases y.declaration.isClass <;> simp

theorem declare_symbolOf {made : List Made} {y z : Made} {n : NodeId} (hn : y.node = some n)
    (hz : z ∈ made) (hsome : ∀ x ∈ made, x.node.isSome) (hsymbol : z.symbol = y.symbol)
    (hname : z.declaration.name = y.declaration.name)
    (hkind : z.declaration.isClass = y.declaration.isClass) :
    (symbolOf made z).declare y.node y.declaration.flags = symbolOf (made ++ [y]) y := by
  rw [symbolOf_congr hsymbol hname hkind]
  obtain ⟨first, hfirst⟩ : ∃ first, (nodesOf made y.symbol).head?.join = some first := by
    have hmem : z ∈ made.filter (·.symbol = y.symbol) := by simp [hz, hsymbol]
    cases hl : made.filter (·.symbol = y.symbol) with
    | nil => simp [hl] at hmem
    | cons x rest =>
      have hx : x ∈ made := List.mem_of_mem_filter (hl ▸ List.mem_cons_self)
      simpa [nodesOf, hl] using Option.isSome_iff_exists.mp (hsome x hx)
  have hhead : ((nodesOf made y.symbol) ++ [y.node]).head?.join = some first := by
    cases hl : nodesOf made y.symbol with
    | nil => simp [hl] at hfirst
    | cons x rest => simpa [hl] using hfirst
  rw [declare_of_some hn]
  simp only [symbolOf, nodesOf_append_self, hhead, hfirst]
  cases y.declaration.isClass <;> simp

end Made

/-- The symbols are those of the declarations made so far, and each name of the file stands for its
last declaration. -/
structure Bound (b : Bindings) (made : List Made) : Prop where
  symbols : ∀ x ∈ made, b.symbol? x.symbol = some (Made.symbolOf made x)
  members : ∀ x ∈ made, List.Forall₂ (fun m s =>
      b.symbol? s = some (Bindings.memberSymbol x.symbol m.1 m.2) ∧ b.nodeSymbol? m.1 = some s)
    (x.members.zip x.declaration.spec.members) x.memberSymbols
  locals : ∀ name, b.fileLocals.get? name = (Made.named made name).getLast?.map Made.symbol
  divided : ∀ name, Made.Divided (Made.named made name)

namespace Bound

variable {b : Bindings} {made : List Made} {y : Made}

theorem empty : Bound .empty [] where
  symbols _ hx := nomatch hx
  members _ hx := nomatch hx
  locals _ := rfl
  divided _ _ hx := nomatch hx

theorem same_of_symbol (h : Bound b made) {x z : Made} (hx : x ∈ made) (hz : z ∈ made)
    (hsymbol : x.symbol = z.symbol) : x.declaration.name = z.declaration.name ∧
      x.declaration.isClass = z.declaration.isClass := by
  have heq := (h.symbols x hx).symm.trans ((congrArg b.symbol? hsymbol).trans (h.symbols z hz))
  have hdata := Option.some.inj heq
  exact ⟨congrArg Symbol.name hdata, Made.flags_eq_iff.mp (congrArg Symbol.flags hdata)⟩

theorem exists_last_of_merge (h : Bound b made) {c : Declaration} {s : SymbolRef}
    (hs : b.mergeTarget? c.flags c.name = some s) :
    ∃ z, (Made.named made c.name).getLast? = some z ∧ z.symbol = s ∧
      z.declaration.isClass = c.isClass := by
  obtain ⟨hlocal, x, hx, hflags⟩ := Bindings.mergeTarget?_eq_some_iff.mp hs
  rw [h.locals] at hlocal
  obtain ⟨z, hz, rfl⟩ := Option.map_eq_some_iff.mp hlocal
  have hzmem := (Made.mem_named_iff.mp (List.mem_of_getLast? hz)).1
  obtain rfl := Option.some.inj ((h.symbols z hzmem).symm.trans hx)
  exact ⟨z, hz, rfl, Made.hasAnyFlag_symbolOf_iff.mp hflags⟩

theorem isClass_ne_of_new (h : Bound b made) {c : Declaration}
    (hnone : b.mergeTarget? c.flags c.name = none) {z : Made}
    (hz : (Made.named made c.name).getLast? = some z) : z.declaration.isClass ≠ c.isClass := by
  intro hkind
  have hzmem := (Made.mem_named_iff.mp (List.mem_of_getLast? hz)).1
  have hlocal : b.fileLocals.get? c.name = some z.symbol := by rw [h.locals, hz]; rfl
  have hmerge := Bindings.mergeTarget?_eq_some_iff.mpr
    ⟨hlocal, _, h.symbols z hzmem, Made.hasAnyFlag_symbolOf_iff.mpr hkind⟩
  rw [hnone] at hmerge
  cases hmerge

structure Joins (b b' : Bindings) (made : List Made) (y : Made) : Prop where
  symbols : ∀ x ∈ made ++ [y], b'.symbol? x.symbol = some (Made.symbolOf (made ++ [y]) x)
  others : ∀ {s x}, b.symbol? s = some x → x.flags = SymbolFlags.property →
    b'.symbol? s = some x
  join : ∀ z, (Made.named made y.declaration.name).getLast? = some z →
    z.declaration.isClass = y.declaration.isClass → y.symbol = z.symbol
  split : ∀ z, (Made.named made y.declaration.name).getLast? = some z →
    z.declaration.isClass ≠ y.declaration.isClass → ∀ x ∈ made, y.symbol ≠ x.symbol

theorem joins_of_merge (h : Bound b made) {n : NodeId} (hn : y.node = some n)
    (hsome : ∀ x ∈ made, x.node.isSome)
    (hmerge : b.mergeTarget? y.declaration.flags y.declaration.name = some y.symbol) :
    Joins b (b.record y.symbol y.node y.declaration.flags) made y := by
  obtain ⟨z, hz, hsymbol, hkind⟩ := h.exists_last_of_merge hmerge
  obtain ⟨hzmem, hname⟩ := Made.mem_named_iff.mp (List.mem_of_getLast? hz)
  have hlookup := fun s => b.symbol?_record y.symbol s y.node y.declaration.flags
  have hdata := h.symbols z hzmem
  have hy : (b.record y.symbol y.node y.declaration.flags).symbol? y.symbol =
      some (Made.symbolOf (made ++ [y]) y) := by
    rw [hlookup, if_pos rfl, ← hsymbol, hdata]
    exact congrArg some (Made.declare_symbolOf hn hzmem hsome hsymbol hname hkind)
  refine ⟨fun x hx => ?_, fun {s x} hs hflags => ?_, fun w hw _ => ?_, fun w hw hne => ?_⟩
  · rcases List.mem_append.mp hx with hx | hx
    · by_cases hxy : x.symbol = y.symbol
      · have hsame := h.same_of_symbol hx hzmem (hxy.trans hsymbol.symm)
        rw [hxy, hy, Made.symbolOf_congr hxy (hsame.1.trans hname) (hsame.2.trans hkind)]
      · rw [hlookup, if_neg hxy, h.symbols x hx, Made.symbolOf_append_of_ne (Ne.symm hxy)]
    · obtain rfl := List.mem_singleton.mp hx
      exact hy
  · have hne : s ≠ y.symbol := by
      rintro rfl
      rw [← hsymbol, hdata] at hs
      obtain rfl := Option.some.inj hs
      exact Made.flags_ne_property _ hflags
    rw [hlookup, if_neg hne, hs]
  · rw [hz] at hw
    rw [← Option.some.inj hw, hsymbol]
  · rw [hz] at hw
    exact absurd (Option.some.inj hw ▸ hkind) hne

theorem joins_of_new (h : Bound b made) {n : NodeId} (hn : y.node = some n)
    (hsize : b.symbols.size < 4294967295) (hsymbol : y.symbol = b.next)
    (hnone : b.mergeTarget? y.declaration.flags y.declaration.name = none) :
    Joins b (b.declare y.node y.declaration.flags y.declaration.name).1 made y := by
  have hlookup := Bindings.symbol?_declare_of_new y.node hnone hsize
  have hfresh : ∀ {s x}, b.symbol? s = some x → s ≠ y.symbol := by
    rintro s x hs rfl
    rw [hsymbol, b.symbol?_next] at hs
    cases hs
  have hnew : ∀ x ∈ made, x.symbol ≠ y.symbol := fun x hx => hfresh (h.symbols x hx)
  rw [← hsymbol] at hlookup
  refine ⟨fun x hx => ?_, fun {s x} hs _ => ?_, fun w hw hkind => ?_,
    fun w _ _ x hx => (hnew x hx).symm⟩
  · rcases List.mem_append.mp hx with hx | hx
    · rw [hlookup, if_neg (hnew x hx), h.symbols x hx,
        Made.symbolOf_append_of_ne (hnew x hx).symm]
    · obtain rfl := List.mem_singleton.mp hx
      rw [hlookup, if_pos rfl, Made.declared_eq_symbolOf hn hnew]
  · rw [hlookup, if_neg (hfresh hs), hs]
  · exact absurd hkind (h.isClass_ne_of_new hnone hw)

theorem declare (h : Bound b made) {n : NodeId} {b' : Bindings} (hn : y.node = some n)
    (hsome : ∀ x ∈ made, x.node.isSome)
    (hnew : ∀ x ∈ made, ∀ m ∈ x.members, m ≠ y.node ∧ m ∉ y.members)
    (hmembers : ∀ m ∈ y.members, m.isSome) (hnodup : y.members.Nodup)
    (hlength : y.members.length = y.declaration.spec.members.length)
    (hsymbol : y.symbol = (b.declare y.node y.declaration.flags y.declaration.name).2)
    (hdeclared : Draft.declareMembers y.symbol
      (b.declare y.node y.declaration.flags y.declaration.name).1
      (y.members.zip y.declaration.spec.members) = (b', y.memberSymbols))
    (hsize : b'.symbols.size < 4294967295) : Bound b' (made ++ [y]) := by
  let members := y.members.zip y.declaration.spec.members
  let b₁ := (b.declare y.node y.declaration.flags y.declaration.name).1
  have hkeys : members.map Prod.fst = y.members := List.map_fst_zip (Nat.le_of_eq hlength)
  have hm : b₁.MembersDeclared y.symbol b' members y.memberSymbols := by
    have hspec : b₁.MembersDeclared y.symbol (Draft.declareMembers y.symbol b₁ members).1 members
        (Draft.declareMembers y.symbol b₁ members).2 :=
      Draft.membersDeclared (fun m hm => hmembers m.1 (List.of_mem_zip hm).1)
        (hkeys.symm ▸ hnodup) (by rwa [hdeclared])
    rwa [hdeclared] at hspec
  have hb : b.symbols.size < 4294967295 := by
    have hle := b.size_le_declare y.node y.declaration.flags y.declaration.name
    have hle' := Draft.size_le_declareMembers y.symbol b₁ members
    rw [hdeclared] at hle'
    exact Nat.lt_of_le_of_lt (Nat.le_trans hle hle') hsize
  have hj : Joins b b₁ made y := by
    cases hmerge : b.mergeTarget? y.declaration.flags y.declaration.name with
    | some s =>
      have heq := Bindings.declare_of_merge y.node hmerge
      obtain rfl : y.symbol = s := by rw [hsymbol, heq]
      rw [show b₁ = b.record y.symbol y.node y.declaration.flags from congrArg Prod.fst heq]
      exact h.joins_of_merge hn hsome hmerge
    | none =>
      have hnext : y.symbol = b.next := by rw [hsymbol, Bindings.declare_of_new _ hmerge]
      exact h.joins_of_new hn hb hnext hmerge
  -- `hj` says what happens to the symbols of declarations, `hm` what happens to those of members
  refine ⟨fun x hx => hm.kept (hj.symbols x hx), fun x hx => ?_, fun name => ?_, fun name => ?_⟩
  · rcases List.mem_append.mp hx with hx | hx
    · have hall := (List.forall₂_and_left _ _).mpr
        ⟨fun m hm => (List.of_mem_zip hm).1, h.members x hx⟩
      refine hall.imp fun m s ⟨hmem, hs, hnode⟩ => ?_
      obtain ⟨hne, hnot⟩ := hnew x hx m.1 hmem
      refine ⟨hm.kept (hj.others hs rfl), ?_⟩
      rw [hm.others m.1 (hkeys.symm ▸ hnot), ← hnode]
      rw [hn] at hne
      simp only [b₁, hn]
      exact Bindings.nodeSymbol?_declare hne _ _
    · obtain rfl := List.mem_singleton.mp hx
      exact hm.made
  · rw [hm.fileLocals, Bindings.fileLocals_declare, ← hsymbol, Made.named_append, h.locals,
      Made.named_singleton]
    by_cases hname : y.declaration.name = name <;> simp [hname]
  · rw [Made.named_append, Made.named_singleton]
    by_cases hname : y.declaration.name = name
    · subst hname
      rw [if_pos rfl]
      exact (h.divided _).append hj.join fun z hz hkind x hx =>
        hj.split z hz hkind x (Made.mem_named_iff.mp hx).1
    · rw [if_neg hname, List.append_nil]
      exact h.divided name

end Bound

end TypeAtlas
