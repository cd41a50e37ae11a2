import TypeAtlas.Proofs.Symbols.Tags

/-! Identities of symbols with a tag of zero. Zero is no tag, but a tag of zero is left out only
after it has been taken in place of the tag of the value declaration, and so it hides that one. -/

namespace TypeAtlas

def nonzero? (tag : Option UInt32) : Option UInt32 :=
  if tag = some 0 then none else tag

theorem nonzero?_or_nonzero? (tag other : Option UInt32) :
    nonzero? ((nonzero? tag).or (nonzero? other)) = (nonzero? tag).or (nonzero? other) := by
  by_cases ht : tag = some 0
  · by_cases ho : other = some 0
    · simp [nonzero?, ht, ho]
    · simp [nonzero?, ht, ho]
  · cases tag with
    | none => by_cases ho : other = some 0 <;> simp [nonzero?, ho]
    | some t => simp [nonzero?, ht]

theorem nonzero?_or_iff (tag other : Option UInt32) :
    nonzero? (tag.or other) = (nonzero? tag).or (nonzero? other) ↔
      ¬ (tag = some 0 ∧ nonzero? other ≠ none) := by
  by_cases ht : tag = some 0
  · have hor : (some (0 : UInt32)).or other = some 0 := rfl
    simp [nonzero?, ht, hor, eq_comm]
  · cases tag with
    | none => by_cases ho : other = some 0 <;> simp [nonzero?, ho]
    | some t => simp [nonzero?, ht]

namespace Bindings

section Definitions

variable (b : Bindings)

/-- The bindings with every tag of zero made absent. -/
def withoutZeroTags : Bindings :=
  { b with symbols := b.symbols.map fun s => { s with tag := nonzero? s.tag } }

def declaredTag? (s : Symbol) : Option UInt32 :=
  (b.nodeSymbol? s.valueDeclaration).bind b.ownTag?

/-- A symbol has a tag of zero, and its value declaration declares a symbol with another tag. -/
def HidesTag (s : SymbolRef) : Prop :=
  ∃ symbol t, b.symbol? s = some symbol ∧ symbol.tag = some 0 ∧
    b.declaredTag? symbol = some t ∧ t ≠ 0

end Definitions

variable {b : Bindings} {s : SymbolRef} {symbol : Symbol}

theorem symbol?_withoutZeroTags (b : Bindings) (s : SymbolRef) :
    b.withoutZeroTags.symbol? s =
      (b.symbol? s).map fun symbol => { symbol with tag := nonzero? symbol.tag } := by
  cases s with
  | none => rfl
  | some id => simp [symbol?, withoutZeroTags]

theorem ownTag?_withoutZeroTags (b : Bindings) (s : SymbolRef) :
    b.withoutZeroTags.ownTag? s = nonzero? (b.ownTag? s) := by
  rw [ownTag?, ownTag?, symbol?_withoutZeroTags]
  cases b.symbol? s <;> rfl

theorem declaredTag?_withoutZeroTags (b : Bindings) (s : Symbol) :
    b.withoutZeroTags.declaredTag? s = nonzero? (b.declaredTag? s) := by
  have hnode : b.withoutZeroTags.nodeSymbol? s.valueDeclaration =
      b.nodeSymbol? s.valueDeclaration := rfl
  rw [declaredTag?, declaredTag?, hnode]
  cases b.nodeSymbol? s.valueDeclaration with
  | none => rfl
  | some declared => exact b.ownTag?_withoutZeroTags declared

theorem identity?_of_symbol (h : b.symbol? s = some symbol) :
    b.identity? s =
      (nonzero? (symbol.tag.or (b.declaredTag? symbol))).map fun t => toString t.toNat := by
  have htag : b.tagOf? symbol = symbol.tag.or (b.declaredTag? symbol) := rfl
  simp only [identity?, h, ← htag, Option.bind_eq_bind, Option.bind_some]
  cases b.tagOf? symbol with
  | none => rfl
  | some t => by_cases ht : t = 0 <;> simp [nonzero?, ht]

theorem identity?_withoutZeroTags (h : b.symbol? s = some symbol) :
    b.withoutZeroTags.identity? s =
      ((nonzero? symbol.tag).or (nonzero? (b.declaredTag? symbol))).map
        fun t => toString t.toNat := by
  have hsymbol := b.symbol?_withoutZeroTags s
  rw [h, Option.map_some] at hsymbol
  have hdeclared : b.withoutZeroTags.declaredTag? { symbol with tag := nonzero? symbol.tag } =
      nonzero? (b.declaredTag? symbol) := b.declaredTag?_withoutZeroTags symbol
  rw [identity?_of_symbol hsymbol, hdeclared, nonzero?_or_nonzero?]

theorem hidesTag_iff (h : b.symbol? s = some symbol) :
    b.HidesTag s ↔ symbol.tag = some 0 ∧ nonzero? (b.declaredTag? symbol) ≠ none := by
  constructor
  · rintro ⟨x, t, hx, hzero, ht, hne⟩
    obtain rfl : x = symbol := Option.some.inj (hx.symm.trans h)
    exact ⟨hzero, by simp [nonzero?, ht, hne]⟩
  · rintro ⟨hzero, hne⟩
    cases ht : b.declaredTag? symbol with
    | none => simp [nonzero?, ht] at hne
    | some t =>
      have hpos : t ≠ 0 := by
        rintro rfl
        simp [nonzero?, ht] at hne
      exact ⟨symbol, t, h, hzero, ht, hpos⟩

/-- A tag of zero counts as none for the identity of a symbol, unless it hides the tag of the symbol
that the value declaration declares. Then the symbol has no identity. -/
theorem identity?_withoutZeroTags_iff (b : Bindings) (s : SymbolRef) :
    (b.identity? s = b.withoutZeroTags.identity? s ↔ ¬ b.HidesTag s) ∧
      (b.HidesTag s → b.identity? s = none) := by
  cases h : b.symbol? s with
  | none =>
    have hnone := b.symbol?_withoutZeroTags s
    rw [h, Option.map_none] at hnone
    simp [identity?, HidesTag, h, hnone]
  | some symbol =>
    have hinj : Function.Injective fun t : UInt32 => toString t.toNat :=
      fun t u htu => toString_toNat_inj.mp htu
    rw [identity?_of_symbol h, identity?_withoutZeroTags h, hidesTag_iff h,
      (Option.map_injective hinj).eq_iff, nonzero?_or_iff]
    refine ⟨Iff.rfl, ?_⟩
    rintro ⟨hzero, -⟩
    rw [hzero]
    rfl

/-- A symbol with a tag of zero whose value declaration declares a symbol with a tag. -/
def zeroTagged : Bindings :=
  { symbols :=
      #[{ flags := SymbolFlags.classLike, name := "A", valueDeclaration := Row.ofIndex 1,
          tag := some 0 },
        { flags := SymbolFlags.classLike, name := "B", tag := some 5 }]
    nodeSymbols := Table.empty.insert 1 (Row.ofIndex 1) }

theorem zeroTagged_loses_identity :
    zeroTagged.identity? (Row.ofIndex 0) = none ∧
      zeroTagged.withoutZeroTags.identity? (Row.ofIndex 0) = some "5" := by
  decide +kernel

end Bindings

end TypeAtlas
