import TypeAtlas.Tree.Arena

/-! Heritage clauses of declarations and the source files that nodes belong to. -/

namespace TypeAtlas

namespace Arena

def heritageClause? (a : Arena) (n : NodeRef) : Option HeritageClause :=
  match a.content? n with
  | some (.heritageClause d) => some d
  | _ => none

/-- The type references of a heritage clause; other nodes have none. -/
def clauseTypes (a : Arena) (clause : NodeRef) : NodeList :=
  match a.heritageClause? clause with
  | some d => d.types
  | none => []

/-- The first heritage clause of a declaration that begins with a token. -/
def clauseWith? (a : Arena) (n : NodeRef) (token : Kind) : NodeRef :=
  ((a.heritageClauses? n).bind fun clauses =>
    clauses.find? fun clause => (a.heritageClause? clause).any (·.token = token)).join

def extendsClause? (a : Arena) (n : NodeRef) : NodeRef :=
  a.clauseWith? n .extendsKeyword

def implementsClause? (a : Arena) (n : NodeRef) : NodeRef :=
  a.clauseWith? n .implementsKeyword

def sourceFileOf? (a : Arena) (n : NodeRef) : NodeRef :=
  (a.ancestry n).find? fun id => a.kind? id = some .sourceFile

def isSourceCodeFile (a : Arena) (n : NodeRef) : Bool :=
  match a.content? n with
  | some (.sourceFile d) => !d.isDeclarationFile
  | _ => false

def classLikeKinds : List Kind :=
  [.classDeclaration, .classExpression, .interfaceDeclaration]

def isClassLike (a : Arena) (n : NodeRef) : Bool :=
  (a.kind? n).any classLikeKinds.contains

end Arena

end TypeAtlas
