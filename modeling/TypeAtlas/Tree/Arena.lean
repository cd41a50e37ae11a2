import TypeAtlas.Tree.Content

/-! The tree of a program as tables. Every node has a header and a link to its parent; its content
is a row of the records of its shape. Children are added before their parents, and adding a parent
links the children that its content names to it. -/

namespace TypeAtlas

structure Node where
  kind : Kind
  flags : UInt32
  start : UInt32
  stop : UInt32
  /-- Where the content of the node is among the records of its shape. -/
  record : RecordRef
deriving DecidableEq

structure Link where
  parent : NodeRef
  id : UInt32
deriving DecidableEq

structure Records where
  identifiers : Array Identifier := #[]
  literals : Array Literal := #[]
  classes : Array ClassLike := #[]
  interfaces : Array ClassLike := #[]
  heritageClauses : Array HeritageClause := #[]
  typeApplications : Array TypeApplication := #[]
  functions : Array FunctionDeclaration := #[]
  signatures : Array Signature := #[]
  properties : Array Property := #[]
  parameters : Array Property := #[]
  modules : Array ModuleDeclaration := #[]
  enums : Array EnumDeclaration := #[]
  typeAliases : Array TypeAlias := #[]
  variableStatements : Array VariableStatement := #[]
  variableDeclarations : Array VariableDeclaration := #[]
  memberLists : Array MemberList := #[]
  blocks : Array Block := #[]
  propertyAccesses : Array PropertyAccess := #[]
  binaryExpressions : Array BinaryExpression := #[]
  importDeclarations : Array ImportDeclaration := #[]
  importClauses : Array ImportClause := #[]
  namedBindings : Array NamedBindings := #[]
  specifiers : Array Specifier := #[]
  importEquals : Array ImportEquals := #[]
  externalModules : Array ExternalModule := #[]
  exportDeclarations : Array ExportDeclaration := #[]
  exportAssignments : Array ExportAssignment := #[]
  sourceFiles : Array SourceFile := #[]
deriving DecidableEq

namespace Records

def size (r : Records) : Shape → Nat
  | .identifier => r.identifiers.size
  | .literal => r.literals.size
  | .classLike => r.classes.size
  | .interface => r.interfaces.size
  | .heritageClause => r.heritageClauses.size
  | .typeApplication => r.typeApplications.size
  | .function => r.functions.size
  | .signature => r.signatures.size
  | .property => r.properties.size
  | .parameter => r.parameters.size
  | .module => r.modules.size
  | .enum => r.enums.size
  | .typeAlias => r.typeAliases.size
  | .variableStatement => r.variableStatements.size
  | .variableDeclaration => r.variableDeclarations.size
  | .memberList => r.memberLists.size
  | .block => r.blocks.size
  | .propertyAccess => r.propertyAccesses.size
  | .binaryExpression => r.binaryExpressions.size
  | .importDeclaration => r.importDeclarations.size
  | .importClause => r.importClauses.size
  | .namedBindings => r.namedBindings.size
  | .specifier => r.specifiers.size
  | .importEquals => r.importEquals.size
  | .externalModule => r.externalModules.size
  | .exportDeclaration => r.exportDeclarations.size
  | .exportAssignment => r.exportAssignments.size
  | .sourceFile => r.sourceFiles.size

def get? (r : Records) (s : Shape) (i : Nat) : Option Content :=
  match s with
  | .identifier => r.identifiers[i]?.map .identifier
  | .literal => r.literals[i]?.map .literal
  | .classLike => r.classes[i]?.map .classLike
  | .interface => r.interfaces[i]?.map .interface
  | .heritageClause => r.heritageClauses[i]?.map .heritageClause
  | .typeApplication => r.typeApplications[i]?.map .typeApplication
  | .function => r.functions[i]?.map .function
  | .signature => r.signatures[i]?.map .signature
  | .property => r.properties[i]?.map .property
  | .parameter => r.parameters[i]?.map .parameter
  | .module => r.modules[i]?.map .module
  | .enum => r.enums[i]?.map .enum
  | .typeAlias => r.typeAliases[i]?.map .typeAlias
  | .variableStatement => r.variableStatements[i]?.map .variableStatement
  | .variableDeclaration => r.variableDeclarations[i]?.map .variableDeclaration
  | .memberList => r.memberLists[i]?.map .memberList
  | .block => r.blocks[i]?.map .block
  | .propertyAccess => r.propertyAccesses[i]?.map .propertyAccess
  | .binaryExpression => r.binaryExpressions[i]?.map .binaryExpression
  | .importDeclaration => r.importDeclarations[i]?.map .importDeclaration
  | .importClause => r.importClauses[i]?.map .importClause
  | .namedBindings => r.namedBindings[i]?.map .namedBindings
  | .specifier => r.specifiers[i]?.map .specifier
  | .importEquals => r.importEquals[i]?.map .importEquals
  | .externalModule => r.externalModules[i]?.map .externalModule
  | .exportDeclaration => r.exportDeclarations[i]?.map .exportDeclaration
  | .exportAssignment => r.exportAssignments[i]?.map .exportAssignment
  | .sourceFile => r.sourceFiles[i]?.map .sourceFile

def push (r : Records) : Content → Records
  | .identifier d => { r with identifiers := r.identifiers.push d }
  | .literal d => { r with literals := r.literals.push d }
  | .classLike d => { r with classes := r.classes.push d }
  | .interface d => { r with interfaces := r.interfaces.push d }
  | .heritageClause d => { r with heritageClauses := r.heritageClauses.push d }
  | .typeApplication d => { r with typeApplications := r.typeApplications.push d }
  | .function d => { r with functions := r.functions.push d }
  | .signature d => { r with signatures := r.signatures.push d }
  | .property d => { r with properties := r.properties.push d }
  | .parameter d => { r with parameters := r.parameters.push d }
  | .module d => { r with modules := r.modules.push d }
  | .enum d => { r with enums := r.enums.push d }
  | .typeAlias d => { r with typeAliases := r.typeAliases.push d }
  | .variableStatement d => { r with variableStatements := r.variableStatements.push d }
  | .variableDeclaration d => { r with variableDeclarations := r.variableDeclarations.push d }
  | .memberList d => { r with memberLists := r.memberLists.push d }
  | .block d => { r with blocks := r.blocks.push d }
  | .propertyAccess d => { r with propertyAccesses := r.propertyAccesses.push d }
  | .binaryExpression d => { r with binaryExpressions := r.binaryExpressions.push d }
  | .importDeclaration d => { r with importDeclarations := r.importDeclarations.push d }
  | .importClause d => { r with importClauses := r.importClauses.push d }
  | .namedBindings d => { r with namedBindings := r.namedBindings.push d }
  | .specifier d => { r with specifiers := r.specifiers.push d }
  | .importEquals d => { r with importEquals := r.importEquals.push d }
  | .externalModule d => { r with externalModules := r.externalModules.push d }
  | .exportDeclaration d => { r with exportDeclarations := r.exportDeclarations.push d }
  | .exportAssignment d => { r with exportAssignments := r.exportAssignments.push d }
  | .sourceFile d => { r with sourceFiles := r.sourceFiles.push d }

end Records

structure Arena where
  nodes : Array Node := #[]
  records : Records := {}
  links : Array Link := #[]
deriving DecidableEq

namespace Arena

def empty : Arena :=
  {}

instance : Inhabited Arena :=
  ⟨empty⟩

/-- The number of nodes for which space is set aside at most. -/
def maxReserved : Nat :=
  5000000

/-- A tree without nodes that has space set aside for some. -/
def withCapacity (nodes : Nat) : Arena :=
  { nodes := Array.emptyWithCapacity (min nodes maxReserved)
    links := Array.emptyWithCapacity (min nodes maxReserved) }

theorem withCapacity_eq_empty (nodes : Nat) : withCapacity nodes = empty :=
  rfl

def node? (a : Arena) (n : NodeRef) : Option Node :=
  n.bind fun id => a.nodes[id.index]?

def kind? (a : Arena) (n : NodeRef) : Option Kind :=
  (a.node? n).map Node.kind

/-- The content of a header: a record of the shape that its kind belongs to. -/
def contentOf? (a : Arena) (node : Node) : Option Content := do
  let shape ← Shape.ofKind? node.kind
  let row ← node.record
  a.records.get? shape row.index

def content? (a : Arena) (n : NodeRef) : Option Content :=
  (a.node? n).bind a.contentOf?

def link? (a : Arena) (n : NodeRef) : Option Link :=
  n.bind fun id => a.links[id.index]?

/-- The parent of a node; none for roots and for nodes that do not exist. -/
def parent (a : Arena) (n : NodeRef) : NodeRef :=
  (a.link? n).bind Link.parent

/-- The longest way up that is followed; only parent links that form a circle are longer. -/
def maxClimb : Nat :=
  10000

/-- At most `steps` nodes: `n`, its parent and so on up to a root, or to a parent that does not
exist. -/
def climb (a : Arena) : Nat → NodeRef → List NodeId
  | 0, _ => []
  | steps + 1, n =>
    match n with
    | none => []
    | some id => if (a.node? n).isSome then id :: a.climb steps (a.parent n) else []

def ancestry (a : Arena) (n : NodeRef) : List NodeId :=
  a.climb maxClimb n

def nodeIds (a : Arena) : List NodeId :=
  (List.range a.nodes.size).filterMap Row.ofIndex

def identifierText? (a : Arena) (n : NodeRef) : Option String :=
  match a.content? n with
  | some (.identifier d) => some d.text
  | _ => none

def modifiers? (a : Arena) (n : NodeRef) : Option NodeList :=
  (a.content? n).bind Content.modifiers?

def heritageClauses? (a : Arena) (n : NodeRef) : Option NodeList :=
  (a.content? n).bind Content.heritageClauses?

def declaredName (a : Arena) (n : NodeRef) : NodeRef :=
  (a.content? n).bind Content.name?

/-- Overrides the parent of a node, if the node exists. -/
def setParent (a : Arena) (n parent : NodeRef) : Arena :=
  match n with
  | none => a
  | some id => { a with links := a.links.modify id.index fun link => { link with parent } }

def setParents (a : Arena) (children : NodeList) (parent : NodeRef) : Arena :=
  children.foldl (fun a child => a.setParent child parent) a

def next (a : Arena) : NodeRef :=
  Row.ofIndex a.nodes.size

def pushHeader (a : Arena) (kind : Kind) (start stop : UInt32) (record : RecordRef) : Arena :=
  { a with
    nodes := a.nodes.push { kind, flags := 0, start, stop, record }
    links := a.links.push { parent := none, id := 0 } }

/-- Adds a node without content, such as a token. -/
def addBare (a : Arena) (kind : Kind) (start stop : UInt32) : Arena × NodeRef :=
  (a.pushHeader kind start stop none, a.next)

/-- Adds a node and becomes the parent of the children that its content names. -/
def add (a : Arena) (kind : Kind) (start stop : UInt32) (content : Content) : Arena × NodeRef :=
  let record := Row.ofIndex (a.records.size content.shape)
  let stored := { a with records := a.records.push content }
  ((stored.pushHeader kind start stop record).setParents content.children a.next, a.next)

def modifyNode (a : Arena) (n : NodeRef) (f : Node → Node) : Arena :=
  match n with
  | none => a
  | some id => { a with nodes := a.nodes.modify id.index f }

def addFlags (a : Arena) (n : NodeRef) (flags : UInt32) : Arena :=
  a.modifyNode n fun node => { node with flags := node.flags ||| flags }

end Arena

end TypeAtlas
