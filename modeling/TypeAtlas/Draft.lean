import TypeAtlas.Program
import TypeAtlas.Tree.NodeFlags

/-! Programs made of class and interface declarations that are given by name. A draft lays out
the nodes of its declarations and declares their symbols; `finish` answers for the types as a
checker would. A heritage reference then names the type of the first declaration of its name, and
a reference to a name that is never declared stays without a type. -/

namespace TypeAtlas

structure DeclarationSpec where
  name : String
  modifiers : List Kind := []
  bases : List String := []
  implements : List String := []
  members : List String := []
  /-- The members are seen by declarations that inherit from this one. -/
  exportContext : Bool := false

/-- A name that has been declared, with the members of all its declarations. -/
structure DeclaredType where
  symbol : SymbolRef
  members : List SymbolRef

structure PendingReference where
  reference : NodeRef
  expression : NodeRef
  target : String

structure Draft where
  arena : Arena := .empty
  bindings : Bindings := .empty
  fileName : String
  statements : NodeList := []
  declared : List (String × DeclaredType) := []
  pending : List PendingReference := []

namespace Draft

def start (fileName : String) : Draft :=
  { fileName }

def addStatement (d : Draft) (n : NodeRef) : Draft :=
  { d with statements := d.statements ++ [n] }

/-- Adds a node of a kind that has a content; its place in a text is not known. -/
def addNode (d : Draft) (kind : Kind) (content : Content) : Draft × NodeRef :=
  let (arena, n) := d.arena.add kind 0 0 content
  ({ d with arena }, n)

/-- Identifiers stand at the beginning of the text, so they end where their own text does. -/
def addIdentifier (d : Draft) (text : String) : Draft × NodeRef :=
  let (arena, n) := d.arena.add .identifier 0 (.ofNat text.utf8ByteSize)
    (.identifier { text, inDocNamespace := false })
  ({ d with arena }, n)

def addToken (d : Draft) (kind : Kind) : Draft × NodeRef :=
  let (arena, n) := d.arena.addBare kind 0 0
  ({ d with arena }, n)

def addEach (add : Draft → α → Draft × NodeRef) (d : Draft) : List α → Draft × NodeList
  | [] => (d, [])
  | x :: rest =>
    let (d, n) := add d x
    let (d, nodes) := addEach add d rest
    (d, n :: nodes)

def addReference (d : Draft) (target : String) : Draft × NodeRef :=
  let (d, expression) := d.addIdentifier target
  let (d, reference) := d.addNode .expressionWithTypeArguments
    (.typeApplication { expression, arguments := none })
  ({ d with pending := d.pending ++ [{ reference, expression, target }] }, reference)

def addClause (d : Draft) (token : Kind) (targets : List String) : Draft × NodeList :=
  if targets.isEmpty then (d, [])
  else
    let (d, types) := addEach addReference d targets
    let (d, clause) := d.addNode .heritageClause (.heritageClause { token, types })
    (d, [clause])

def addMember (kind : Kind) (d : Draft) (name : String) : Draft × NodeRef :=
  let (d, name) := d.addIdentifier name
  d.addNode kind
    (.property { modifiers := none, name, typeAnnotation := none, initializer := none })

def listed (nodes : NodeList) : Option NodeList :=
  if nodes.isEmpty then none else some nodes

/-- Lays out the nodes of a declaration: modifiers, name, heritage clauses, members, and the
declaration itself. Gives the declaration and its members. -/
def layOut (d : Draft) (isClass : Bool) (spec : DeclarationSpec) : Draft × NodeRef × NodeList :=
  let (d, modifiers) := addEach addToken d spec.modifiers
  let (d, name) := d.addIdentifier spec.name
  let (d, bases) := d.addClause .extendsKeyword spec.bases
  let (d, implements) := d.addClause .implementsKeyword spec.implements
  let (d, members) :=
    addEach (addMember (if isClass then .propertyDeclaration else .propertySignature)) d spec.members
  let content : ClassLike :=
    { modifiers := listed modifiers, name, heritageClauses := listed (bases ++ implements),
      members }
  let (d, declaration) :=
    if isClass then d.addNode .classDeclaration (.classLike content)
    else d.addNode .interfaceDeclaration (.interface content)
  let flags := if spec.exportContext then NodeFlags.exportContext else 0
  ({ d with arena := d.arena.addFlags declaration flags }, declaration, members)

def declareMembers (owner : SymbolRef) :
    Bindings → List (NodeRef × String) → Bindings × List SymbolRef
  | b, [] => (b, [])
  | b, (n, name) :: rest =>
    let (b, s) := b.declareMember owner n SymbolFlags.property name
    let (b, symbols) := declareMembers owner b rest
    (b, s :: symbols)

/-- Notes the members of one more declaration of a name. The first declaration of the name gives
its symbol. -/
def note (name : String) (symbol : SymbolRef) (members : List SymbolRef) :
    List (String × DeclaredType) → List (String × DeclaredType)
  | [] => [(name, { symbol, members })]
  | (key, type) :: rest =>
    if key = name then (key, { type with members := type.members ++ members }) :: rest
    else (key, type) :: note name symbol members rest

def declare (d : Draft) (isClass : Bool) (spec : DeclarationSpec) : Draft × NodeRef :=
  let (d, declaration, members) := d.layOut isClass spec
  let flags := if isClass then SymbolFlags.classLike else SymbolFlags.interface
  let (bindings, symbol) := d.bindings.declare declaration flags spec.name
  let (bindings, memberSymbols) := declareMembers symbol bindings (members.zip spec.members)
  let d :=
    { d with bindings, declared := note spec.name symbol memberSymbols d.declared }
  (d.addStatement declaration, declaration)

/-- The types of the declared names, in the order of their first declarations. -/
def declaredTypes (d : Draft) : TypeTable :=
  d.declared.foldl
    (fun types (_, t) => (types.add { symbol := some t.symbol, properties := t.members }).1) .empty

def findType (name : String) (number : Nat) :
    List (String × DeclaredType) → Option (TypeId × DeclaredType)
  | [] => none
  | (key, type) :: rest =>
    if key = name then some (.ofNat number, type) else findType name (number + 1) rest

def resolve (d : Draft) (types : TypeTable) (r : PendingReference) : TypeTable :=
  match findType r.target 0 d.declared with
  | none => types
  | some (id, type) => (types.setTypeAt r.reference id).setSymbolAt r.expression type.symbol

/-- The program of a draft, with all statements in one source file. -/
def finish (d : Draft) : Program :=
  let file : SourceFile :=
    { statements := d.statements
      fileName := d.fileName
      isDeclarationFile := ".d.ts".toList.isSuffixOf d.fileName.toList }
  { arena := (d.arena.add .sourceFile 0 0 (.sourceFile file)).1
    bindings := d.bindings
    types := d.pending.foldl d.resolve d.declaredTypes }

end Draft

end TypeAtlas
