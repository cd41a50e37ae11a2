import TypeAtlas.Row
import TypeAtlas.Tree.Kind

/-! What nodes hold. Besides its header a node may have a content, which lists the parts that
questions about declarations need: modifiers, a name, heritage clauses, child lists. Its shape
says which parts there are, and a kind of node belongs to at most one shape. -/

namespace TypeAtlas

abbrev NodeList := List NodeRef

structure Identifier where
  text : String
  /-- A segment of the name in a `@namespace` documentation tag. -/
  inDocNamespace : Bool
deriving DecidableEq

structure Literal where
  text : String
deriving DecidableEq

/-- A class or an interface. -/
structure ClassLike where
  modifiers : Option NodeList
  name : NodeRef
  heritageClauses : Option NodeList
  members : NodeList
deriving DecidableEq

/-- `extends` or `implements` with the types behind it. -/
structure HeritageClause where
  token : Kind
  types : NodeList
deriving DecidableEq

/-- `Base<T>` in a heritage clause. -/
structure TypeApplication where
  expression : NodeRef
  arguments : Option NodeList
deriving DecidableEq

structure FunctionDeclaration where
  modifiers : Option NodeList
  name : NodeRef
  parameters : NodeList
  body : NodeRef
deriving DecidableEq

structure Signature where
  modifiers : Option NodeList
  name : NodeRef
  parameters : NodeList
  typeAnnotation : NodeRef
deriving DecidableEq

/-- A property or a parameter. -/
structure Property where
  modifiers : Option NodeList
  name : NodeRef
  typeAnnotation : NodeRef
  initializer : NodeRef
deriving DecidableEq

structure ModuleDeclaration where
  modifiers : Option NodeList
  name : NodeRef
  /-- A block, or the inner declaration of `namespace A.B`. -/
  body : NodeRef
deriving DecidableEq

structure EnumDeclaration where
  modifiers : Option NodeList
  name : NodeRef
  members : NodeList
deriving DecidableEq

structure TypeAlias where
  modifiers : Option NodeList
  name : NodeRef
  type : NodeRef
deriving DecidableEq

structure VariableStatement where
  modifiers : Option NodeList
  declarations : NodeList
deriving DecidableEq

structure VariableDeclaration where
  name : NodeRef
  typeAnnotation : NodeRef
  initializer : NodeRef
deriving DecidableEq

/-- The members of a type literal, an object literal or the attributes of an element. -/
structure MemberList where
  members : NodeList
deriving DecidableEq

structure Block where
  statements : NodeList
deriving DecidableEq

structure PropertyAccess where
  expression : NodeRef
  name : NodeRef
deriving DecidableEq

structure BinaryExpression where
  left : NodeRef
  operator : Kind
  right : NodeRef
deriving DecidableEq

structure ImportDeclaration where
  modifiers : Option NodeList
  clause : NodeRef
  moduleSpecifier : NodeRef
deriving DecidableEq

structure ImportClause where
  isTypeOnly : Bool
  name : NodeRef
  namedBindings : NodeRef
deriving DecidableEq

/-- A namespace import, or the list of names of an import or an export. -/
structure NamedBindings where
  name : NodeRef
  elements : NodeList
deriving DecidableEq

structure Specifier where
  isTypeOnly : Bool
  propertyName : NodeRef
  name : NodeRef
deriving DecidableEq

/-- `import a = require("m")` or `import a = N.M`. -/
structure ImportEquals where
  modifiers : Option NodeList
  isTypeOnly : Bool
  name : NodeRef
  moduleReference : NodeRef
deriving DecidableEq

/-- `require("m")` in an import. -/
structure ExternalModule where
  expression : NodeRef
deriving DecidableEq

structure ExportDeclaration where
  modifiers : Option NodeList
  isTypeOnly : Bool
  clause : NodeRef
  moduleSpecifier : NodeRef
deriving DecidableEq

/-- `export = a` or `export default a`. -/
structure ExportAssignment where
  modifiers : Option NodeList
  isExportEquals : Bool
  expression : NodeRef
deriving DecidableEq

structure SourceFile where
  statements : NodeList
  fileName : String
  isDeclarationFile : Bool
deriving DecidableEq

inductive Shape where
  | identifier
  | literal
  | classLike
  | interface
  | heritageClause
  | typeApplication
  | function
  | signature
  | property
  | parameter
  | module
  | enum
  | typeAlias
  | variableStatement
  | variableDeclaration
  | memberList
  | block
  | propertyAccess
  | binaryExpression
  | importDeclaration
  | importClause
  | namedBindings
  | specifier
  | importEquals
  | externalModule
  | exportDeclaration
  | exportAssignment
  | sourceFile
deriving DecidableEq

namespace Shape

def kinds : Shape → List Kind
  | identifier => [.identifier, .privateIdentifier]
  | literal => [.stringLiteral, .numericLiteral, .noSubstitutionTemplateLiteral]
  | classLike => [.classDeclaration, .classExpression]
  | interface => [.interfaceDeclaration]
  | heritageClause => [.heritageClause]
  | typeApplication => [.expressionWithTypeArguments]
  | function =>
    [.functionDeclaration, .functionExpression, .arrowFunction, .methodDeclaration,
      .constructorDeclaration, .getAccessor, .setAccessor, .classStaticBlockDeclaration]
  | signature =>
    [.methodSignature, .callSignature, .constructSignature, .indexSignature, .functionType,
      .constructorType, .jsDocFunctionType]
  | property => [.propertyDeclaration, .propertySignature]
  | parameter => [.parameter]
  | module => [.moduleDeclaration]
  | enum => [.enumDeclaration]
  | typeAlias => [.typeAliasDeclaration]
  | variableStatement => [.variableStatement]
  | variableDeclaration => [.variableDeclaration]
  | memberList => [.typeLiteral, .jsDocTypeLiteral, .objectLiteralExpression, .jsxAttributes]
  | block => [.block, .moduleBlock, .caseBlock]
  | propertyAccess => [.propertyAccessExpression]
  | binaryExpression => [.binaryExpression]
  | importDeclaration => [.importDeclaration]
  | importClause => [.importClause]
  | namedBindings => [.namespaceImport, .namedImports, .namedExports, .namespaceExport]
  | specifier => [.importSpecifier, .exportSpecifier]
  | importEquals => [.importEqualsDeclaration]
  | externalModule => [.externalModuleReference]
  | exportDeclaration => [.exportDeclaration]
  | exportAssignment => [.exportAssignment]
  | sourceFile => [.sourceFile]

def all : List Shape :=
  [identifier, literal, classLike, interface, heritageClause, typeApplication, function, signature,
    property, parameter, module, enum, typeAlias, variableStatement, variableDeclaration, memberList,
    block, propertyAccess, binaryExpression, importDeclaration, importClause, namedBindings, specifier,
    importEquals, externalModule, exportDeclaration, exportAssignment, sourceFile]

theorem mem_all (s : Shape) : s ∈ all := by
  cases s <;> decide

def ofKind? (k : Kind) : Option Shape :=
  all.find? (·.kinds.contains k)

end Shape

inductive Content where
  | identifier (d : Identifier)
  | literal (d : Literal)
  | classLike (d : ClassLike)
  | interface (d : ClassLike)
  | heritageClause (d : HeritageClause)
  | typeApplication (d : TypeApplication)
  | function (d : FunctionDeclaration)
  | signature (d : Signature)
  | property (d : Property)
  | parameter (d : Property)
  | module (d : ModuleDeclaration)
  | enum (d : EnumDeclaration)
  | typeAlias (d : TypeAlias)
  | variableStatement (d : VariableStatement)
  | variableDeclaration (d : VariableDeclaration)
  | memberList (d : MemberList)
  | block (d : Block)
  | propertyAccess (d : PropertyAccess)
  | binaryExpression (d : BinaryExpression)
  | importDeclaration (d : ImportDeclaration)
  | importClause (d : ImportClause)
  | namedBindings (d : NamedBindings)
  | specifier (d : Specifier)
  | importEquals (d : ImportEquals)
  | externalModule (d : ExternalModule)
  | exportDeclaration (d : ExportDeclaration)
  | exportAssignment (d : ExportAssignment)
  | sourceFile (d : SourceFile)
deriving DecidableEq

namespace Content

def shape : Content → Shape
  | identifier _ => .identifier
  | literal _ => .literal
  | classLike _ => .classLike
  | interface _ => .interface
  | heritageClause _ => .heritageClause
  | typeApplication _ => .typeApplication
  | function _ => .function
  | signature _ => .signature
  | property _ => .property
  | parameter _ => .parameter
  | module _ => .module
  | enum _ => .enum
  | typeAlias _ => .typeAlias
  | variableStatement _ => .variableStatement
  | variableDeclaration _ => .variableDeclaration
  | memberList _ => .memberList
  | block _ => .block
  | propertyAccess _ => .propertyAccess
  | binaryExpression _ => .binaryExpression
  | importDeclaration _ => .importDeclaration
  | importClause _ => .importClause
  | namedBindings _ => .namedBindings
  | specifier _ => .specifier
  | importEquals _ => .importEquals
  | externalModule _ => .externalModule
  | exportDeclaration _ => .exportDeclaration
  | exportAssignment _ => .exportAssignment
  | sourceFile _ => .sourceFile

/-- The nodes that a content names, in the order of its parts. -/
def children : Content → NodeList
  | identifier _ | literal _ => []
  | classLike d | interface d =>
    d.modifiers.getD [] ++ d.name :: d.heritageClauses.getD [] ++ d.members
  | heritageClause d => d.types
  | typeApplication d => d.expression :: d.arguments.getD []
  | function d => d.modifiers.getD [] ++ d.name :: d.parameters ++ [d.body]
  | signature d => d.modifiers.getD [] ++ d.name :: d.parameters ++ [d.typeAnnotation]
  | property d | parameter d => d.modifiers.getD [] ++ [d.name, d.typeAnnotation, d.initializer]
  | module d => d.modifiers.getD [] ++ [d.name, d.body]
  | enum d => d.modifiers.getD [] ++ d.name :: d.members
  | typeAlias d => d.modifiers.getD [] ++ [d.name, d.type]
  | variableStatement d => d.modifiers.getD [] ++ d.declarations
  | variableDeclaration d => [d.name, d.typeAnnotation, d.initializer]
  | memberList d => d.members
  | block d => d.statements
  | propertyAccess d => [d.expression, d.name]
  | binaryExpression d => [d.left, d.right]
  | importDeclaration d => d.modifiers.getD [] ++ [d.clause, d.moduleSpecifier]
  | importClause d => [d.name, d.namedBindings]
  | namedBindings d => d.name :: d.elements
  | specifier d => [d.propertyName, d.name]
  | importEquals d => d.modifiers.getD [] ++ [d.name, d.moduleReference]
  | externalModule d => [d.expression]
  | exportDeclaration d => d.modifiers.getD [] ++ [d.clause, d.moduleSpecifier]
  | exportAssignment d => d.modifiers.getD [] ++ [d.expression]
  | sourceFile d => d.statements

def modifiers? : Content → Option NodeList
  | classLike d | interface d => d.modifiers
  | function d => d.modifiers
  | signature d => d.modifiers
  | property d | parameter d => d.modifiers
  | module d => d.modifiers
  | enum d => d.modifiers
  | typeAlias d => d.modifiers
  | variableStatement d => d.modifiers
  | importDeclaration d => d.modifiers
  | importEquals d => d.modifiers
  | exportDeclaration d => d.modifiers
  | exportAssignment d => d.modifiers
  | _ => none

def heritageClauses? : Content → Option NodeList
  | classLike d | interface d => d.heritageClauses
  | _ => none

def name? : Content → NodeRef
  | classLike d | interface d => d.name
  | function d => d.name
  | signature d => d.name
  | property d | parameter d => d.name
  | module d => d.name
  | enum d => d.name
  | typeAlias d => d.name
  | variableDeclaration d => d.name
  | importClause d => d.name
  | namedBindings d => d.name
  | specifier d => d.name
  | importEquals d => d.name
  | _ => none

end Content

end TypeAtlas
