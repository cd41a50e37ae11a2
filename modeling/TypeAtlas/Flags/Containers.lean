import TypeAtlas.Flags.Names
import TypeAtlas.Tree.Arena

/-! The role of nodes as containers: which nodes open a scope for names, a scope for blocks, or a
region of control flow of their own. -/

namespace TypeAtlas

abbrev ContainerRole := UInt32

namespace ContainerRole

/-- The scope of the names declared in the node, and of its blocks. -/
def container : ContainerRole := 0x1

/-- The scope of a block only. -/
def blockScope : ContainerRole := 0x2

/-- The start of a control flow of its own. -/
def controlFlow : ContainerRole := 0x4

def functionLike : ContainerRole := 0x8

def functionExpression : ContainerRole := 0x10

def hasLocals : ContainerRole := 0x20

def interface : ContainerRole := 0x40

def literalMethod : ContainerRole := 0x80

def containerWithLocals : ContainerRole :=
  container ||| hasLocals

def functionContainer : ContainerRole :=
  container ||| controlFlow ||| hasLocals ||| functionLike

def names : FlagNames where
  single :=
    [("IS_CONTAINER", container), ("IS_BLOCK_SCOPED_CONTAINER", blockScope),
      ("IS_CONTROL_FLOW_CONTAINER", controlFlow), ("IS_FUNCTION_LIKE", functionLike),
      ("IS_FUNCTION_EXPRESSION", functionExpression), ("HAS_LOCALS", hasLocals),
      ("IS_INTERFACE", interface),
      ("IS_OBJECT_LITERAL_OR_CLASS_EXPRESSION_METHOD", literalMethod)]
  groups := [("IS_CONTAINER_WITH_LOCALS", containerWithLocals)]

/-- The roles that depend on the kind of a node alone. -/
def ofKinds : List (List Kind × ContainerRole) :=
  [([.classExpression, .classDeclaration, .enumDeclaration, .objectLiteralExpression, .typeLiteral,
      .jsDocTypeLiteral, .jsxAttributes], container),
    ([.interfaceDeclaration], container ||| interface),
    ([.moduleDeclaration, .typeAliasDeclaration, .mappedType], containerWithLocals),
    ([.sourceFile], containerWithLocals ||| controlFlow),
    ([.constructorDeclaration, .functionDeclaration, .methodSignature, .getAccessor, .setAccessor,
      .callSignature, .jsDocFunctionType, .functionType, .constructSignature, .indexSignature,
      .constructorType], functionContainer),
    ([.functionExpression, .arrowFunction], functionContainer ||| functionExpression),
    ([.moduleBlock], controlFlow),
    ([.catchClause, .forStatement, .forInStatement, .forOfStatement, .caseBlock], blockScope)]

def ofKind (k : Kind) : ContainerRole :=
  ((ofKinds.find? fun row => row.1.contains k).map Prod.snd).getD 0

end ContainerRole

namespace Arena

def isFunctionLike (a : Arena) (n : NodeRef) : Bool :=
  (a.kind? n).any Kind.isFunctionLike

/-- A method that stands directly in an object literal or a class expression. -/
def isLiteralMethod (a : Arena) (n : NodeRef) : Bool :=
  a.kind? n = some .methodDeclaration &&
    (a.kind? (a.parent n)).any [Kind.objectLiteralExpression, Kind.classExpression].contains

/-- A property that is given a value where it is declared. -/
def isInitialized (a : Arena) (n : NodeRef) : Bool :=
  match a.content? n with
  | some (.property d) => d.initializer.isSome
  | _ => false

/-- The role of a node. The body of a function is no scope of its own: names declared in it
stand beside the parameters. -/
def containerRole (a : Arena) (n : NodeRef) : ContainerRole :=
  match a.kind? n with
  | none => 0
  | some k =>
    if k = .methodDeclaration then
      if a.isLiteralMethod n then
        ContainerRole.functionContainer ||| ContainerRole.literalMethod
      else ContainerRole.functionContainer
    else if k = .propertyDeclaration then
      if a.isInitialized n then ContainerRole.controlFlow else 0
    else if k = .block then
      if a.isFunctionLike (a.parent n) then 0 else ContainerRole.blockScope
    else ContainerRole.ofKind k

end Arena

end TypeAtlas
