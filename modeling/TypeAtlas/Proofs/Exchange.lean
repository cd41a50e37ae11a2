import TypeAtlas.Program
import TypeAtlas.Proofs.Json.RoundTrip

/-! Programs survive their exchange format: every program is read back as it was written, with
all its tables, references that lead nowhere and texts of any characters. -/

namespace TypeAtlas

instance : NodeList.codec.Sound :=
  Fields.record_sound (by decide) fun _ => rfl

instance : NodeList.codec.NeverNull where
  encode_ne_null _ := nofun

namespace Field

instance {name : String} : (nodeRef name).Sound :=
  inferInstanceAs (required name Row.codec).Sound

instance {name : String} : (nodeList name).Sound :=
  inferInstanceAs (required name NodeList.codec).Sound

instance {name : String} : (nodeList? name).Sound :=
  inferInstanceAs (nullable name NodeList.codec).Sound

instance : modifiers.Sound :=
  inferInstanceAs (nodeList? "modifiers").Sound

instance {name : String} : (kind name).Sound :=
  inferInstanceAs (required name Codec.halfWord).Sound

instance {name : String} : (word name).Sound :=
  inferInstanceAs (required name Codec.word).Sound

instance {name : String} : (bool name).Sound :=
  inferInstanceAs (required name Codec.bool).Sound

instance {name : String} : (string name).Sound :=
  inferInstanceAs (required name Codec.string).Sound

instance {α : Type} {name : String} {c : Codec α} [c.Sound] : (table name c).Sound :=
  inferInstanceAs (required name c.array).Sound

end Field

instance : Node.codec.Sound :=
  Fields.record_sound (by decide) fun _ => rfl

instance : Link.codec.Sound :=
  Fields.record_sound (by decide) fun _ => rfl

instance : Identifier.codec.Sound :=
  Fields.record_sound (by decide) fun _ => rfl

instance : Literal.codec.Sound :=
  Fields.record_sound (by decide) fun _ => rfl

instance : ClassLike.codec.Sound :=
  Fields.record_sound (by decide) fun _ => rfl

instance : HeritageClause.codec.Sound :=
  Fields.record_sound (by decide) fun _ => rfl

instance : TypeApplication.codec.Sound :=
  Fields.record_sound (by decide) fun _ => rfl

instance : FunctionDeclaration.codec.Sound :=
  Fields.record_sound (by decide) fun _ => rfl

instance : Signature.codec.Sound :=
  Fields.record_sound (by decide) fun _ => rfl

instance : Property.codec.Sound :=
  Fields.record_sound (by decide) fun _ => rfl

instance : ModuleDeclaration.codec.Sound :=
  Fields.record_sound (by decide) fun _ => rfl

instance : EnumDeclaration.codec.Sound :=
  Fields.record_sound (by decide) fun _ => rfl

instance : TypeAlias.codec.Sound :=
  Fields.record_sound (by decide) fun _ => rfl

instance : VariableStatement.codec.Sound :=
  Fields.record_sound (by decide) fun _ => rfl

instance : VariableDeclaration.codec.Sound :=
  Fields.record_sound (by decide) fun _ => rfl

instance : MemberList.codec.Sound :=
  Fields.record_sound (by decide) fun _ => rfl

instance : Block.codec.Sound :=
  Fields.record_sound (by decide) fun _ => rfl

instance : PropertyAccess.codec.Sound :=
  Fields.record_sound (by decide) fun _ => rfl

instance : BinaryExpression.codec.Sound :=
  Fields.record_sound (by decide) fun _ => rfl

instance : ImportDeclaration.codec.Sound :=
  Fields.record_sound (by decide) fun _ => rfl

instance : ImportClause.codec.Sound :=
  Fields.record_sound (by decide) fun _ => rfl

instance : NamedBindings.codec.Sound :=
  Fields.record_sound (by decide) fun _ => rfl

instance : Specifier.codec.Sound :=
  Fields.record_sound (by decide) fun _ => rfl

instance : ImportEquals.codec.Sound :=
  Fields.record_sound (by decide) fun _ => rfl

instance : ExternalModule.codec.Sound :=
  Fields.record_sound (by decide) fun _ => rfl

instance : ExportDeclaration.codec.Sound :=
  Fields.record_sound (by decide) fun _ => rfl

instance : ExportAssignment.codec.Sound :=
  Fields.record_sound (by decide) fun _ => rfl

instance : SourceFile.codec.Sound :=
  Fields.record_sound (by decide) fun _ => rfl

instance : Arena.codec.Sound :=
  Fields.record_sound (by decide) fun _ => rfl

instance : Symbol.codec.Sound :=
  Fields.record_sound (by decide) fun _ => rfl

instance {α : Type} {c : Codec α} [c.Sound] : (symbolsAlone c).Sound :=
  Fields.record_sound (by simp [Fields.names]) fun _ => rfl

instance : Bindings.codec.Sound :=
  Fields.record_sound (by decide) fun _ => rfl

instance : TypeEntry.codec.Sound :=
  Fields.record_sound (by decide) fun _ => rfl

instance : TypeTable.codec.Sound :=
  Fields.record_sound (by decide) fun _ => rfl

instance : Program.codec.Sound :=
  Fields.record_sound (by decide) fun _ => rfl

/-- Every program is read back as it was written, on one line or indented. -/
theorem Program.read_write (p : Program) :
    codec.read (codec.write p) = .ok p ∧ codec.read (codec.encode p).toIndented = .ok p := by
  have h : codec.Sound := inferInstance
  exact ⟨h.read_written p, h.read_toIndented p⟩

end TypeAtlas
