import TypeAtlas.Proofs.Tree.Ancestry
import TypeAtlas.Proofs.Tree.Store
import TypeAtlas.Symbols.Context
import Mathlib.Data.Nat.Bitwise

/-! The modifiers of a node, bit by bit. A bit is set just when its keyword is among the tokens that
stand in front of the node, so nothing but the set of these keywords counts. -/

namespace TypeAtlas

namespace Modifiers

def hasBit (m : Modifiers) (i : Nat) : Bool :=
  m.toNat.testBit i

/-- The keyword of each bit. The other bits have none. -/
def keyword? : Nat → Option Kind
  | 0 => some .publicKeyword
  | 1 => some .privateKeyword
  | 2 => some .protectedKeyword
  | 3 => some .readonlyKeyword
  | 5 => some .exportKeyword
  | 6 => some .abstractKeyword
  | 7 => some .declareKeyword
  | 8 => some .staticKeyword
  | 10 => some .asyncKeyword
  | 11 => some .defaultKeyword
  | 12 => some .constKeyword
  | _ => none

variable {m m' : Modifiers} {i : Nat} {k : Kind}

theorem hasBit_or (m m' : Modifiers) (i : Nat) :
    hasBit (m ||| m') i = (hasBit m i || hasBit m' i) := by
  rw [hasBit, UInt32.toNat_or, Nat.testBit_or]
  rfl

theorem eq_of_hasBit (h : ∀ i, hasBit m i = hasBit m' i) : m = m' :=
  UInt32.toNat_inj.mp (Nat.eq_of_testBit_eq h)

theorem hasBit_zero (i : Nat) : hasBit 0 i = false :=
  Nat.zero_testBit i

theorem hasBit_export : hasBit Modifiers.export i = true ↔ i = 5 := by
  have hpower : (Modifiers.export : Modifiers).toNat = 2 ^ 5 := rfl
  rw [hasBit, hpower, Nat.testBit_two_pow, decide_eq_true_eq, eq_comm]

theorem contains_ambient (m : Modifiers) : m.contains ambient = m.hasBit 7 := by
  have hpower : (ambient : Modifiers).toNat = 2 ^ 7 := rfl
  have hand : (m &&& ambient).toNat = (m.hasBit 7).toNat * 2 ^ 7 := by
    rw [UInt32.toNat_and, hpower, Nat.and_two_pow]
    rfl
  rw [contains, Bool.eq_iff_iff, beq_iff_eq, ← UInt32.toNat_inj, hand, hpower]
  cases m.hasBit 7 <;> simp

theorem lt_of_keyword? (h : keyword? i = some k) : i < 13 := by
  by_contra hi
  obtain ⟨j, rfl⟩ := Nat.exists_eq_add_of_le (Nat.le_of_not_lt hi)
  rw [Nat.add_comm] at h
  cases h

/-- No two keywords stand for one bit, and no keyword for two. -/
theorem hasBit_ofToken : hasBit (ofToken k) i = true ↔ keyword? i = some k := by
  have hrows : (keywords.all fun row => (List.range 13).all fun i =>
      hasBit row.2 i == (keyword? i == some row.1)) = true := by decide
  have hhigh : (keywords.all fun row => row.2.toNat < 2 ^ 13) = true := by decide
  have hlisted : ∀ i < 13, ((keyword? i).all fun k => (keywords.lookup k).isSome) = true := by
    decide
  cases hlookup : keywords.lookup k with
  | some m =>
    have hrow : (k, m) ∈ keywords := by
      obtain ⟨before, after, hsplit, -⟩ := List.lookup_eq_some_iff.mp hlookup
      rw [hsplit]
      exact List.mem_append_right _ List.mem_cons_self
    have hm : ofToken k = m := by rw [ofToken, hlookup]; rfl
    rw [hm]
    by_cases hi : i < 13
    · have hcell := List.all_eq_true.mp (List.all_eq_true.mp hrows _ hrow) i (List.mem_range.mpr hi)
      rw [eq_of_beq hcell, beq_iff_eq]
    · have hlow : m.toNat < 2 ^ 13 := of_decide_eq_true (List.all_eq_true.mp hhigh _ hrow)
      have hbound : m.toNat < 2 ^ i :=
        Nat.lt_of_lt_of_le hlow (Nat.pow_le_pow_right (by omega) (by omega))
      have hbit : hasBit m i = false := Nat.testBit_lt_two_pow hbound
      rw [hbit]
      exact ⟨nofun, fun h => absurd (lt_of_keyword? h) hi⟩
  | none =>
    have hm : ofToken k = 0 := by rw [ofToken, hlookup]; rfl
    rw [hm, hasBit_zero]
    refine ⟨nofun, fun h => ?_⟩
    have hsome := hlisted i (lt_of_keyword? h)
    rw [h, Option.all_some, hlookup] at hsome
    cases hsome

theorem hasBit_foldl (tokens : List Kind) (m : Modifiers) (i : Nat) :
    hasBit (tokens.foldl (fun m token => m ||| ofToken token) m) i = true ↔
      hasBit m i = true ∨ ∃ token ∈ tokens, keyword? i = some token := by
  induction tokens generalizing m with
  | nil => simp
  | cons token tokens ih =>
    rw [List.foldl_cons, ih, hasBit_or, Bool.or_eq_true, hasBit_ofToken, or_assoc]
    simp

theorem or_known_of_hasBit (h : ∀ i, hasBit m i = true → (keyword? i).isSome = true) :
    m ||| names.known = names.known := by
  have hknown : ∀ i < 13, (keyword? i).isSome = true → hasBit names.known i = true := by decide
  refine eq_of_hasBit fun i => ?_
  rw [hasBit_or]
  by_cases hm : hasBit m i = true
  · obtain ⟨k, hk⟩ := Option.isSome_iff_exists.mp (h i hm)
    have hi := hknown i (lt_of_keyword? hk) (h i hm)
    rw [hm, hi]
    rfl
  · rw [Bool.eq_false_iff.mpr hm, Bool.false_or]

end Modifiers

namespace Content

/-- A token is in the list of modifiers of a content. All parts are written out, so that no list is
left out. -/
def ModifiedBy (n : NodeId) : Content → Prop
  | classLike ⟨modifiers, _name, _clauses, _members⟩
  | interface ⟨modifiers, _name, _clauses, _members⟩
  | function ⟨modifiers, _name, _parameters, _body⟩
  | signature ⟨modifiers, _name, _parameters, _typeAnnotation⟩
  | property ⟨modifiers, _name, _typeAnnotation, _initializer⟩
  | parameter ⟨modifiers, _name, _typeAnnotation, _initializer⟩
  | module ⟨modifiers, _name, _body⟩
  | enum ⟨modifiers, _name, _members⟩
  | typeAlias ⟨modifiers, _name, _type⟩
  | variableStatement ⟨modifiers, _declarations⟩
  | importDeclaration ⟨modifiers, _clause, _moduleSpecifier⟩
  | importEquals ⟨modifiers, _isTypeOnly, _name, _moduleReference⟩
  | exportDeclaration ⟨modifiers, _isTypeOnly, _clause, _moduleSpecifier⟩
  | exportAssignment ⟨modifiers, _isExportEquals, _expression⟩ => Listed n modifiers
  | identifier ⟨_text, _inDocNamespace⟩ => False
  | literal ⟨_text⟩ => False
  | heritageClause ⟨_token, _types⟩ => False
  | typeApplication ⟨_expression, _arguments⟩ => False
  | variableDeclaration ⟨_name, _typeAnnotation, _initializer⟩ => False
  | memberList ⟨_members⟩ => False
  | block ⟨_statements⟩ => False
  | propertyAccess ⟨_expression, _name⟩ => False
  | binaryExpression ⟨_left, _operator, _right⟩ => False
  | importClause ⟨_isTypeOnly, _name, _bindings⟩ => False
  | namedBindings ⟨_name, _elements⟩ => False
  | specifier ⟨_isTypeOnly, _propertyName, _name⟩ => False
  | externalModule ⟨_expression⟩ => False
  | sourceFile ⟨_statements, _fileName, _isDeclarationFile⟩ => False

theorem modifiedBy_iff {n : NodeId} {c : Content} :
    c.ModifiedBy n ↔ some n ∈ c.modifiers?.getD [] := by
  cases c <;> simp [ModifiedBy, modifiers?, mem_getD_iff]

end Content

namespace Arena

section Definitions

variable (a : Arena)

/-- A keyword is among the modifiers in the content of a node, which has the shape that the kind of
the node belongs to. -/
def HasKeyword (n : NodeRef) (k : Kind) : Prop :=
  ∃ shape c token, a.contentAs? shape n = some c ∧ c.ModifiedBy token ∧
    a.kind? (some token) = some k

def ExportedImplicitly (n : NodeRef) : Prop :=
  (∃ node, a.node? n = some node ∧ node.flags &&& NodeFlags.nestedNamespace ≠ 0) ∨
    ∃ d, a.contentAs? .identifier n = some (.identifier d) ∧ d.inDocNamespace = true

end Definitions

variable {a b : Arena} {n m : NodeRef} {k : Kind} {i : Nat}

theorem hasKeyword_iff :
    a.HasKeyword n k ↔ ∃ token ∈ (a.modifiers? n).getD [], a.kind? token = some k := by
  constructor
  · rintro ⟨shape, c, token, hc, htoken, hk⟩
    have hcontent := (contentAs?_eq_some_iff.mp hc).1
    refine ⟨some token, ?_, hk⟩
    rw [modifiers?, hcontent]
    exact Content.modifiedBy_iff.mp htoken
  · rintro ⟨token, htoken, hk⟩
    cases hcontent : a.content? n with
    | none =>
      rw [modifiers?, hcontent] at htoken
      cases htoken
    | some c =>
      rw [modifiers?, hcontent] at htoken
      cases token with
      | none => cases hk
      | some id =>
        have hc := contentAs?_eq_some_iff.mpr ⟨hcontent, rfl⟩
        exact ⟨c.shape, c, id, hc, Content.modifiedBy_iff.mpr htoken, hk⟩

theorem exportedImplicitly_iff : a.ExportedImplicitly n ↔ a.isImplicitlyExported n = true := by
  have hflag : (∃ node, a.node? n = some node ∧ node.flags &&& NodeFlags.nestedNamespace ≠ 0) ↔
      ((a.node? n).any fun node => node.flags &&& NodeFlags.nestedNamespace != 0) = true := by
    rw [Option.any_eq_true]
    simp
  rw [ExportedImplicitly, isImplicitlyExported, Bool.or_eq_true, hflag]
  refine or_congr_right ?_
  simp only [contentAs?_eq_some_iff, Content.shape]
  split
  · rename_i d hd
    simp [hd]
  · rename_i hother
    constructor
    · rintro ⟨d, ⟨hd, -⟩, -⟩
      exact absurd hd (hother d)
    · intro hfalse
      cases hfalse

theorem hasBit_modifiersOfList (tokens : NodeList) (i : Nat) :
    (a.modifiersOfList tokens).hasBit i = true ↔
      ∃ k, Modifiers.keyword? i = some k ∧ ∃ token ∈ tokens, a.kind? token = some k := by
  rw [modifiersOfList, Modifiers.hasBit_foldl, Modifiers.hasBit_zero]
  simp only [List.mem_filterMap]
  constructor
  · rintro (hzero | ⟨k, ⟨token, htoken, hk⟩, hi⟩)
    · cases hzero
    · exact ⟨k, hi, token, htoken, hk⟩
  · rintro ⟨k, hi, token, htoken, hk⟩
    exact .inr ⟨k, ⟨token, htoken, hk⟩, hi⟩

theorem hasBit_modifiers :
    (a.modifiers n).hasBit i = true ↔
      (∃ k, Modifiers.keyword? i = some k ∧ a.HasKeyword n k) ∨
        i = 5 ∧ a.ExportedImplicitly n := by
  rw [modifiers, Modifiers.hasBit_or, Bool.or_eq_true, hasBit_modifiersOfList,
    exportedImplicitly_iff]
  simp only [hasKeyword_iff]
  refine or_congr_right ?_
  by_cases himplicit : a.isImplicitlyExported n = true
  · rw [if_pos himplicit, Modifiers.hasBit_export, and_iff_left himplicit]
  · rw [if_neg himplicit, Modifiers.hasBit_zero]
    simp [himplicit]

theorem keyword?_of_hasBit_modifiers (h : (a.modifiers n).hasBit i = true) :
    (Modifiers.keyword? i).isSome = true := by
  rcases hasBit_modifiers.mp h with ⟨k, hk, -⟩ | ⟨rfl, -⟩
  · exact Option.isSome_of_eq_some hk
  · rfl

theorem modifiers_congr
    (hkeywords : ∀ i k, Modifiers.keyword? i = some k → (a.HasKeyword n k ↔ b.HasKeyword m k))
    (himplicit : a.ExportedImplicitly n ↔ b.ExportedImplicitly m) :
    a.modifiers n = b.modifiers m := by
  refine Modifiers.eq_of_hasBit fun i => ?_
  rw [Bool.eq_iff_iff, hasBit_modifiers, hasBit_modifiers, himplicit]
  have hsame : (∃ k, Modifiers.keyword? i = some k ∧ a.HasKeyword n k) ↔
      ∃ k, Modifiers.keyword? i = some k ∧ b.HasKeyword m k :=
    exists_congr fun k => and_congr_right fun hk => hkeywords i k hk
  rw [hsame]

end Arena

theorem Symbol.isAmbientModule_eq {s : Symbol} {a : Arena}
    (h : a.kind? s.firstDeclaration = some .moduleDeclaration) :
    s.isAmbientModule a = a.hasModifier s.firstDeclaration Modifiers.ambient := by
  have hbit : (a.modifiers s.firstDeclaration).hasBit 7 = true ↔
      a.HasKeyword s.firstDeclaration .declareKeyword := by
    rw [Arena.hasBit_modifiers]
    simp [Modifiers.keyword?]
  rw [Arena.hasModifier, Modifiers.contains_ambient, Bool.eq_iff_iff, hbit, Arena.hasKeyword_iff]
  simp [isAmbientModule, h]

namespace Arena

/-- A bit of the modifiers of a node is set just when its keyword is one of the tokens in the
modifier list of the node, or when it is that of `export` and the node is exported without the
keyword. So there are no bits without a keyword, only the set of these keywords counts, and a module
is known to be ambient by its modifiers. -/
theorem modifiers_bit_by_bit (a : Arena) (n : NodeRef) :
    (∀ i, (a.modifiers n).hasBit i = true ↔
      (∃ k, Modifiers.keyword? i = some k ∧ a.HasKeyword n k) ∨
        i = 5 ∧ a.ExportedImplicitly n) ∧
    a.modifiers n ||| Modifiers.names.known = Modifiers.names.known ∧
    (∀ (b : Arena) (m : NodeRef),
      (∀ i k, Modifiers.keyword? i = some k → (a.HasKeyword n k ↔ b.HasKeyword m k)) →
      (a.ExportedImplicitly n ↔ b.ExportedImplicitly m) → a.modifiers n = b.modifiers m) ∧
    ∀ s : Symbol, s.firstDeclaration = n → a.kind? n = some .moduleDeclaration →
      s.isAmbientModule a = a.hasModifier n Modifiers.ambient := by
  refine ⟨fun i => hasBit_modifiers, ?_, fun b m => modifiers_congr, ?_⟩
  · exact Modifiers.or_known_of_hasBit fun i => keyword?_of_hasBit_modifiers
  · rintro s rfl hkind
    exact Symbol.isAmbientModule_eq hkind

/-- Two modules. One of them has its keyword twice, with a node that does not exist and one that is
no modifier in between. -/
def ambientTwice : Arena :=
  let twice : NodeList := [Row.ofIndex 2, Row.ofIndex 9, Row.ofIndex 3, Row.ofIndex 2]
  let once : NodeList := [Row.ofIndex 2]
  { nodes := #[⟨.moduleDeclaration, 0, 0, 0, Row.ofIndex 0⟩,
      ⟨.moduleDeclaration, 0, 0, 0, Row.ofIndex 1⟩, ⟨.declareKeyword, 0, 0, 0, none⟩,
      ⟨.identifier, 0, 0, 0, none⟩]
    records := { modules := #[{ modifiers := some twice, name := none, body := none },
      { modifiers := some once, name := none, body := none }] } }

theorem hasKeyword_ambientTwice_iff {i : Nat} {k : Kind} (h : Modifiers.keyword? i = some k) :
    ambientTwice.HasKeyword (Row.ofIndex 0) k ↔ ambientTwice.HasKeyword (Row.ofIndex 1) k := by
  have hkinds : [Row.ofIndex 2, Row.ofIndex 9, Row.ofIndex 3, Row.ofIndex 2].map
      ambientTwice.kind? =
        [some .declareKeyword, none, some .identifier, some .declareKeyword] := by
    decide
  have hidentifier : k ≠ .identifier := by
    rintro rfl
    exact absurd h ((by decide : ∀ i < 13, Modifiers.keyword? i ≠ some .identifier) i
      (Modifiers.lt_of_keyword? h))
  have htwice : ambientTwice.HasKeyword (Row.ofIndex 0) k ↔ some k ∈
      [Row.ofIndex 2, Row.ofIndex 9, Row.ofIndex 3, Row.ofIndex 2].map ambientTwice.kind? := by
    rw [hasKeyword_iff, List.mem_map]
    rfl
  have honce : ambientTwice.HasKeyword (Row.ofIndex 1) k ↔
      some k ∈ [Row.ofIndex 2].map ambientTwice.kind? := by
    rw [hasKeyword_iff, List.mem_map]
    rfl
  have hkind : ambientTwice.kind? (Row.ofIndex 2) = some .declareKeyword := rfl
  rw [htwice, honce, hkinds]
  simp [hidentifier, hkind]

theorem ambientTwice_bit_by_bit :
    ambientTwice.modifiers (Row.ofIndex 0) = ambientTwice.modifiers (Row.ofIndex 1) ∧
      (ambientTwice.modifiers (Row.ofIndex 0)).hasBit 7 = true ∧
      ({ flags := 0, name := "A", declarations := [Row.ofIndex 0] } : Symbol).isAmbientModule
        ambientTwice = true := by
  obtain ⟨hbits, -, hsame, hambient⟩ := modifiers_bit_by_bit ambientTwice (Row.ofIndex 0)
  have himplicit : ambientTwice.ExportedImplicitly (Row.ofIndex 0) ↔
      ambientTwice.ExportedImplicitly (Row.ofIndex 1) := by
    rw [exportedImplicitly_iff, exportedImplicitly_iff]
    decide
  have hbit : (ambientTwice.modifiers (Row.ofIndex 0)).hasBit 7 = true := by
    refine (hbits 7).mpr (.inl ⟨.declareKeyword, rfl, hasKeyword_iff.mpr ?_⟩)
    exact ⟨Row.ofIndex 2, List.mem_cons_self, rfl⟩
  refine ⟨hsame _ _ (fun i k => hasKeyword_ambientTwice_iff) himplicit, hbit, ?_⟩
  rw [hambient _ rfl rfl, hasModifier, Modifiers.contains_ambient]
  exact hbit

end Arena

end TypeAtlas
