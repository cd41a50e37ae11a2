import TypeAtlas.Tree.Arena

/-! Questions about imports, exports, aliases and assignments. A node that does not exist, or of
another kind than the question is about, has none of these properties. -/

namespace TypeAtlas

namespace Arena

def isIdentifier (a : Arena) (n : NodeRef) : Bool :=
  a.kind? n = some .identifier

def isNamespaceImport (a : Arena) (n : NodeRef) : Bool :=
  a.kind? n = some .namespaceImport

/-- The kinds of declarations that always declare an alias. -/
def aliasKinds : List Kind :=
  [.importEqualsDeclaration, .namespaceImport, .importSpecifier, .exportSpecifier]

/-- Declarations of an alias: besides `aliasKinds` an import clause with a name of its own and the
export of an identifier. -/
def isAlias (a : Arena) (n : NodeRef) : Bool :=
  match a.kind? n, a.content? n with
  | none, _ => false
  | some k, content =>
    aliasKinds.contains k ||
      match content with
      | some (.importClause d) => d.name.isSome
      | some (.exportAssignment d) => a.isIdentifier d.expression
      | _ => false

def importExportKinds : List Kind :=
  [.importDeclaration, .importEqualsDeclaration, .exportDeclaration]

def isImportOrExport (a : Arena) (n : NodeRef) : Bool :=
  (a.kind? n).any importExportKinds.contains

/-- The node that names the module of an import or an export: the text behind `from`, or the
argument of `require`. -/
def externalModuleName (a : Arena) (n : NodeRef) : NodeRef :=
  match a.content? n with
  | some (.importDeclaration d) => d.moduleSpecifier
  | some (.exportDeclaration d) => d.moduleSpecifier
  | some (.importEquals d) =>
    match a.content? d.moduleReference with
    | some (.externalModule d) => d.expression
    | _ => none
  | _ => none

/-- `x.prototype.y = …`. -/
def isPrototypeAssignment (a : Arena) (n : NodeRef) : Bool :=
  match a.content? n with
  | some (.binaryExpression assignment) =>
    assignment.operator = .equalsToken &&
      match a.content? assignment.left with
      | some (.propertyAccess outer) =>
        match a.content? outer.expression with
        | some (.propertyAccess inner) =>
          a.isIdentifier inner.expression && a.identifierText? inner.name = some "prototype"
        | _ => false
      | _ => false
  | _ => false

end Arena

end TypeAtlas
