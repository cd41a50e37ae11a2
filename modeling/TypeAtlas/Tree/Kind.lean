/-! Kinds of nodes. A kind is a 16-bit number: the tokens of the language come first, the nodes
that have parts of their own behind them, and a number that neither claims is a kind without a
name. -/

namespace TypeAtlas

abbrev Kind := UInt16

namespace Kind

/-- The names of the tokens, from 0 on. -/
def tokenNames : List String :=
  ["Unknown", "EndOfFileToken", "SingleLineCommentTrivia", "MultiLineCommentTrivia",
    "NewLineTrivia", "WhitespaceTrivia", "ShebangTrivia", "ConflictMarkerTrivia",
    "NonTextFileMarkerTrivia", "NumericLiteral", "BigIntLiteral", "StringLiteral", "JsxText",
    "JsxTextAllWhiteSpaces", "RegularExpressionLiteral", "NoSubstitutionTemplateLiteral",
    "TemplateHead", "TemplateMiddle", "TemplateTail", "OpenBraceToken", "CloseBraceToken",
    "OpenParenToken", "CloseParenToken", "OpenBracketToken", "CloseBracketToken", "DotToken",
    "DotDotDotToken", "SemicolonToken", "CommaToken", "QuestionDotToken", "LessThanToken",
    "LessThanSlashToken", "GreaterThanToken", "LessThanEqualsToken", "GreaterThanEqualsToken",
    "EqualsEqualsToken", "ExclamationEqualsToken", "EqualsEqualsEqualsToken",
    "ExclamationEqualsEqualsToken", "EqualsGreaterThanToken", "PlusToken", "MinusToken",
    "AsteriskToken", "AsteriskAsteriskToken", "SlashToken", "PercentToken", "PlusPlusToken",
    "MinusMinusToken", "LessThanLessThanToken", "GreaterThanGreaterThanToken",
    "GreaterThanGreaterThanGreaterThanToken", "AmpersandToken", "BarToken", "CaretToken",
    "ExclamationToken", "TildeToken", "AmpersandAmpersandToken", "BarBarToken", "QuestionToken",
    "ColonToken", "AtToken", "QuestionQuestionToken", "BacktickToken", "HashToken", "EqualsToken",
    "PlusEqualsToken", "MinusEqualsToken", "AsteriskEqualsToken", "AsteriskAsteriskEqualsToken",
    "SlashEqualsToken", "PercentEqualsToken", "LessThanLessThanEqualsToken",
    "GreaterThanGreaterThanEqualsToken", "GreaterThanGreaterThanGreaterThanEqualsToken",
    "AmpersandEqualsToken", "BarEqualsToken", "BarBarEqualsToken",
    "AmpersandAmpersandEqualsToken", "QuestionQuestionEqualsToken", "CaretEqualsToken",
    "Identifier", "PrivateIdentifier", "JSDocCommentTextToken", "BreakKeyword", "CaseKeyword",
    "CatchKeyword", "ClassKeyword", "ConstKeyword", "ContinueKeyword", "DebuggerKeyword",
    "DefaultKeyword", "DeleteKeyword", "DoKeyword", "ElseKeyword", "EnumKeyword", "ExportKeyword",
    "ExtendsKeyword", "FalseKeyword", "FinallyKeyword", "ForKeyword", "FunctionKeyword",
    "IfKeyword", "ImportKeyword", "InKeyword", "InstanceOfKeyword", "NewKeyword", "NullKeyword",
    "ReturnKeyword", "SuperKeyword", "SwitchKeyword", "ThisKeyword", "ThrowKeyword",
    "TrueKeyword", "TryKeyword", "TypeOfKeyword", "VarKeyword", "VoidKeyword", "WhileKeyword",
    "WithKeyword", "ImplementsKeyword", "InterfaceKeyword", "LetKeyword", "PackageKeyword",
    "PrivateKeyword", "ProtectedKeyword", "PublicKeyword", "StaticKeyword", "YieldKeyword",
    "AbstractKeyword", "AccessorKeyword", "AsKeyword", "AssertsKeyword", "AssertKeyword",
    "AnyKeyword", "AsyncKeyword", "AwaitKeyword", "BooleanKeyword", "ConstructorKeyword",
    "DeclareKeyword", "GetKeyword", "InferKeyword", "IntrinsicKeyword", "IsKeyword",
    "KeyOfKeyword", "ModuleKeyword", "NamespaceKeyword", "NeverKeyword", "OutKeyword",
    "ReadonlyKeyword", "RequireKeyword", "NumberKeyword", "ObjectKeyword", "SatisfiesKeyword",
    "SetKeyword", "StringKeyword", "SymbolKeyword", "TypeKeyword", "UndefinedKeyword",
    "UniqueKeyword", "UnknownKeyword", "UsingKeyword", "FromKeyword", "GlobalKeyword",
    "BigIntKeyword", "OverrideKeyword", "OfKeyword"]

def firstNode : Kind := 166

/-- The names of the nodes below the whole file, from `firstNode` on. -/
def nodeNames : List String :=
  ["QualifiedName", "ComputedPropertyName", "TypeParameter", "Parameter", "Decorator",
    "PropertySignature", "PropertyDeclaration", "MethodSignature", "MethodDeclaration",
    "ClassStaticBlockDeclaration", "Constructor", "GetAccessor", "SetAccessor", "CallSignature",
    "ConstructSignature", "IndexSignature", "TypePredicate", "TypeReference", "FunctionType",
    "ConstructorType", "TypeQuery", "TypeLiteral", "ArrayType", "TupleType", "OptionalType",
    "RestType", "UnionType", "IntersectionType", "ConditionalType", "InferType",
    "ParenthesizedType", "ThisType", "TypeOperator", "IndexedAccessType", "MappedType",
    "LiteralType", "NamedTupleMember", "TemplateLiteralType", "TemplateLiteralTypeSpan",
    "ImportType", "ObjectBindingPattern", "ArrayBindingPattern", "BindingElement",
    "ArrayLiteralExpression", "ObjectLiteralExpression", "PropertyAccessExpression",
    "ElementAccessExpression", "CallExpression", "NewExpression", "TaggedTemplateExpression",
    "TypeAssertionExpression", "ParenthesizedExpression", "FunctionExpression", "ArrowFunction",
    "DeleteExpression", "TypeofExpression", "VoidExpression", "AwaitExpression",
    "PrefixUnaryExpression", "PostfixUnaryExpression", "BinaryExpression",
    "ConditionalExpression", "TemplateExpression", "YieldExpression", "SpreadElement",
    "ClassExpression", "OmittedExpression", "ExpressionWithTypeArguments", "AsExpression",
    "NonNullExpression", "MetaProperty", "SyntheticExpression", "SatisfiesExpression",
    "TemplateSpan", "SemicolonClassElement", "Block", "EmptyStatement", "VariableStatement",
    "ExpressionStatement", "IfStatement", "DoStatement", "WhileStatement", "ForStatement",
    "ForInStatement", "ForOfStatement", "ContinueStatement", "BreakStatement", "ReturnStatement",
    "WithStatement", "SwitchStatement", "LabeledStatement", "ThrowStatement", "TryStatement",
    "DebuggerStatement", "VariableDeclaration", "VariableDeclarationList", "FunctionDeclaration",
    "ClassDeclaration", "InterfaceDeclaration", "TypeAliasDeclaration", "EnumDeclaration",
    "ModuleDeclaration", "ModuleBlock", "CaseBlock", "NamespaceExportDeclaration",
    "ImportEqualsDeclaration", "ImportDeclaration", "ImportClause", "NamespaceImport",
    "NamedImports", "ImportSpecifier", "ExportAssignment", "ExportDeclaration", "NamedExports",
    "NamespaceExport", "ExportSpecifier", "MissingDeclaration", "ExternalModuleReference",
    "JsxElement", "JsxSelfClosingElement", "JsxOpeningElement", "JsxClosingElement",
    "JsxFragment", "JsxOpeningFragment", "JsxClosingFragment", "JsxAttribute", "JsxAttributes",
    "JsxSpreadAttribute", "JsxExpression", "JsxNamespacedName", "CaseClause", "DefaultClause",
    "HeritageClause", "CatchClause", "ImportAttributes", "ImportAttribute", "PropertyAssignment",
    "ShorthandPropertyAssignment", "SpreadAssignment", "EnumMember"]

def firstFile : Kind := 308

/-- The names of whole files and of the parts of documentation comments, from `firstFile` on. -/
def fileNames : List String :=
  ["SourceFile", "Bundle", "JSDocTypeExpression", "JSDocNameReference", "JSDocMemberName",
    "JSDocAllType", "JSDocUnknownType", "JSDocNullableType", "JSDocNonNullableType",
    "JSDocOptionalType", "JSDocFunctionType", "JSDocVariadicType", "JSDocNamepathType", "JSDoc",
    "JSDocText", "JSDocTypeLiteral", "JSDocSignature"]

def tokenName? (k : Kind) : Option String :=
  tokenNames[k.toNat]?

def ofTokenName? (name : String) : Option Kind :=
  (tokenNames.idxOf? name).map UInt16.ofNat

def nodeName? (k : Kind) : Option String :=
  if k < firstNode then none
  else if k < firstFile then nodeNames[k.toNat - firstNode.toNat]?
  else fileNames[k.toNat - firstFile.toNat]?

def name (k : Kind) : String :=
  match k.tokenName?.or k.nodeName? with
  | some name => name
  | none => "Unknown(" ++ toString k.toNat ++ ")"

def firstTrivia : Kind := 2

def lastTrivia : Kind := 7

def firstPunctuation : Kind := 19

def lastPunctuation : Kind := 79

def firstKeyword : Kind := 83

def lastKeyword : Kind := 165

def lastToken : Kind := lastKeyword

def isToken (k : Kind) : Bool :=
  k ≤ lastToken

def isTrivia (k : Kind) : Bool :=
  firstTrivia ≤ k && k ≤ lastTrivia

def isPunctuation (k : Kind) : Bool :=
  firstPunctuation ≤ k && k ≤ lastPunctuation

def isKeyword (k : Kind) : Bool :=
  firstKeyword ≤ k && k ≤ lastKeyword

def identifier : Kind := 80

def privateIdentifier : Kind := 81

def numericLiteral : Kind := 9

def stringLiteral : Kind := 11

def noSubstitutionTemplateLiteral : Kind := 15

def equalsToken : Kind := 64

def constKeyword : Kind := 87

def defaultKeyword : Kind := 90

def exportKeyword : Kind := 95

def extendsKeyword : Kind := 96

def implementsKeyword : Kind := 119

def privateKeyword : Kind := 123

def protectedKeyword : Kind := 124

def publicKeyword : Kind := 125

def staticKeyword : Kind := 126

def abstractKeyword : Kind := 128

def asyncKeyword : Kind := 134

def declareKeyword : Kind := 138

def readonlyKeyword : Kind := 148

def parameter : Kind := 169

def propertySignature : Kind := 171

def propertyDeclaration : Kind := 172

def methodSignature : Kind := 173

def methodDeclaration : Kind := 174

def classStaticBlockDeclaration : Kind := 175

def constructorDeclaration : Kind := 176

def getAccessor : Kind := 177

def setAccessor : Kind := 178

def callSignature : Kind := 179

def constructSignature : Kind := 180

def indexSignature : Kind := 181

def functionType : Kind := 184

def constructorType : Kind := 185

def typeLiteral : Kind := 187

def mappedType : Kind := 200

def objectLiteralExpression : Kind := 210

def propertyAccessExpression : Kind := 211

def functionExpression : Kind := 218

def arrowFunction : Kind := 219

def binaryExpression : Kind := 226

def classExpression : Kind := 231

def expressionWithTypeArguments : Kind := 233

def block : Kind := 241

def variableStatement : Kind := 243

def forStatement : Kind := 248

def forInStatement : Kind := 249

def forOfStatement : Kind := 250

def variableDeclaration : Kind := 260

def functionDeclaration : Kind := 262

def classDeclaration : Kind := 263

def interfaceDeclaration : Kind := 264

def typeAliasDeclaration : Kind := 265

def enumDeclaration : Kind := 266

def moduleDeclaration : Kind := 267

def moduleBlock : Kind := 268

def caseBlock : Kind := 269

def importEqualsDeclaration : Kind := 271

def importDeclaration : Kind := 272

def importClause : Kind := 273

def namespaceImport : Kind := 274

def namedImports : Kind := 275

def importSpecifier : Kind := 276

def exportAssignment : Kind := 277

def exportDeclaration : Kind := 278

def namedExports : Kind := 279

def namespaceExport : Kind := 280

def exportSpecifier : Kind := 281

def externalModuleReference : Kind := 283

def jsxAttributes : Kind := 292

def heritageClause : Kind := 298

def catchClause : Kind := 299

def sourceFile : Kind := 308

def jsDocFunctionType : Kind := 318

def jsDocTypeLiteral : Kind := 323

/-- Declarations that carry a body of statements. -/
def functionDeclarations : List Kind :=
  [functionDeclaration, methodDeclaration, constructorDeclaration, getAccessor, setAccessor,
    functionExpression, arrowFunction]

/-- Signatures and function types, which have no body. -/
def functionSignatures : List Kind :=
  [methodSignature, callSignature, constructSignature, indexSignature, functionType,
    jsDocFunctionType, constructorType]

def isFunctionLikeDeclaration (k : Kind) : Bool :=
  functionDeclarations.contains k

def isFunctionLike (k : Kind) : Bool :=
  functionSignatures.contains k || isFunctionLikeDeclaration k

end Kind

end TypeAtlas
