import TypeAtlas.Json.Record
import TypeAtlas.Tree.Arena

/-! The exchange format of trees. -/

namespace TypeAtlas

def NodeList.codec : Codec NodeList :=
  Fields.record (.cons (.required "nodes" (Codec.list Row.codec)) .nil)
    (fun nodes => (nodes, ())) (fun (nodes, ()) => nodes)

namespace Field

def nodeRef (name : String) : Field NodeRef :=
  .required name Row.codec

def nodeList (name : String) : Field NodeList :=
  .required name NodeList.codec

/-- A list of nodes, or `null` where the declaration has none. -/
def nodeList? (name : String) : Field (Option NodeList) :=
  .nullable name NodeList.codec

def modifiers : Field (Option NodeList) :=
  .nodeList? "modifiers"

def kind (name : String) : Field Kind :=
  .required name Codec.halfWord

def word (name : String) : Field UInt32 :=
  .required name Codec.word

def bool (name : String) : Field Bool :=
  .required name Codec.bool

def string (name : String) : Field String :=
  .required name Codec.string

end Field

def Node.codec : Codec Node :=
  Fields.record
    (.cons (.kind "kind") <| .cons (.word "flags") <| .cons (.word "pos") <| .cons (.word "end") <|
      .cons (.required "data_index" Row.codec) .nil)
    (fun d => (d.kind, d.flags, d.start, d.stop, d.record, ()))
    (fun (kind, flags, start, stop, record, ()) => { kind, flags, start, stop, record })

def Link.codec : Codec Link :=
  Fields.record (.cons (.nodeRef "parent") <| .cons (.word "id") .nil)
    (fun d => (d.parent, d.id, ())) (fun (parent, id, ()) => { parent, id })

def Identifier.codec : Codec Identifier :=
  Fields.record
    (.cons (.string "escaped_text") <|
      .cons (.defaulted "is_in_jsdoc_namespace" Codec.bool false) .nil)
    (fun d => (d.text, d.inDocNamespace, ()))
    (fun (text, inDocNamespace, ()) => { text, inDocNamespace })

def Literal.codec : Codec Literal :=
  Fields.record (.cons (.string "text") .nil) (fun d => (d.text, ())) (fun (text, ()) => { text })

def ClassLike.codec : Codec ClassLike :=
  Fields.record
    (.cons .modifiers <| .cons (.nodeRef "name") <| .cons (.nodeList? "heritage_clauses") <|
      .cons (.nodeList "members") .nil)
    (fun d => (d.modifiers, d.name, d.heritageClauses, d.members, ()))
    (fun (modifiers, name, heritageClauses, members, ()) =>
      { modifiers, name, heritageClauses, members })

def HeritageClause.codec : Codec HeritageClause :=
  Fields.record (.cons (.kind "token") <| .cons (.nodeList "types") .nil)
    (fun d => (d.token, d.types, ())) (fun (token, types, ()) => { token, types })

def TypeApplication.codec : Codec TypeApplication :=
  Fields.record (.cons (.nodeRef "expression") <| .cons (.nodeList? "type_arguments") .nil)
    (fun d => (d.expression, d.arguments, ()))
    (fun (expression, arguments, ()) => { expression, arguments })

def FunctionDeclaration.codec : Codec FunctionDeclaration :=
  Fields.record
    (.cons .modifiers <| .cons (.nodeRef "name") <| .cons (.nodeList "parameters") <|
      .cons (.nodeRef "body") .nil)
    (fun d => (d.modifiers, d.name, d.parameters, d.body, ()))
    (fun (modifiers, name, parameters, body, ()) => { modifiers, name, parameters, body })

def Signature.codec : Codec Signature :=
  Fields.record
    (.cons .modifiers <| .cons (.nodeRef "name") <| .cons (.nodeList "parameters") <|
      .cons (.nodeRef "type_annotation") .nil)
    (fun d => (d.modifiers, d.name, d.parameters, d.typeAnnotation, ()))
    (fun (modifiers, name, parameters, typeAnnotation, ()) =>
      { modifiers, name, parameters, typeAnnotation })

def Property.codec : Codec Property :=
  Fields.record
    (.cons .modifiers <| .cons (.nodeRef "name") <| .cons (.nodeRef "type_annotation") <|
      .cons (.nodeRef "initializer") .nil)
    (fun d => (d.modifiers, d.name, d.typeAnnotation, d.initializer, ()))
    (fun (modifiers, name, typeAnnotation, initializer, ()) =>
      { modifiers, name, typeAnnotation, initializer })

def ModuleDeclaration.codec : Codec ModuleDeclaration :=
  Fields.record (.cons .modifiers <| .cons (.nodeRef "name") <| .cons (.nodeRef "body") .nil)
    (fun d => (d.modifiers, d.name, d.body, ()))
    (fun (modifiers, name, body, ()) => { modifiers, name, body })

def EnumDeclaration.codec : Codec EnumDeclaration :=
  Fields.record (.cons .modifiers <| .cons (.nodeRef "name") <| .cons (.nodeList "members") .nil)
    (fun d => (d.modifiers, d.name, d.members, ()))
    (fun (modifiers, name, members, ()) => { modifiers, name, members })

def TypeAlias.codec : Codec TypeAlias :=
  Fields.record (.cons .modifiers <| .cons (.nodeRef "name") <| .cons (.nodeRef "type_node") .nil)
    (fun d => (d.modifiers, d.name, d.type, ()))
    (fun (modifiers, name, type, ()) => { modifiers, name, type })

def VariableStatement.codec : Codec VariableStatement :=
  Fields.record (.cons .modifiers <| .cons (.nodeList "declarations") .nil)
    (fun d => (d.modifiers, d.declarations, ()))
    (fun (modifiers, declarations, ()) => { modifiers, declarations })

def VariableDeclaration.codec : Codec VariableDeclaration :=
  Fields.record
    (.cons (.nodeRef "name") <| .cons (.nodeRef "type_annotation") <|
      .cons (.nodeRef "initializer") .nil)
    (fun d => (d.name, d.typeAnnotation, d.initializer, ()))
    (fun (name, typeAnnotation, initializer, ()) => { name, typeAnnotation, initializer })

def MemberList.codec : Codec MemberList :=
  Fields.record (.cons (.nodeList "members") .nil)
    (fun d => (d.members, ())) (fun (members, ()) => { members })

def Block.codec : Codec Block :=
  Fields.record (.cons (.nodeList "statements") .nil)
    (fun d => (d.statements, ())) (fun (statements, ()) => { statements })

def PropertyAccess.codec : Codec PropertyAccess :=
  Fields.record (.cons (.nodeRef "expression") <| .cons (.nodeRef "name_or_argument") .nil)
    (fun d => (d.expression, d.name, ())) (fun (expression, name, ()) => { expression, name })

def BinaryExpression.codec : Codec BinaryExpression :=
  Fields.record
    (.cons (.nodeRef "left") <| .cons (.kind "operator_token") <| .cons (.nodeRef "right") .nil)
    (fun d => (d.left, d.operator, d.right, ()))
    (fun (left, operator, right, ()) => { left, operator, right })

def ImportDeclaration.codec : Codec ImportDeclaration :=
  Fields.record
    (.cons .modifiers <| .cons (.nodeRef "import_clause") <|
      .cons (.nodeRef "module_specifier") .nil)
    (fun d => (d.modifiers, d.clause, d.moduleSpecifier, ()))
    (fun (modifiers, clause, moduleSpecifier, ()) => { modifiers, clause, moduleSpecifier })

def ImportClause.codec : Codec ImportClause :=
  Fields.record
    (.cons (.bool "is_type_only") <| .cons (.nodeRef "name") <|
      .cons (.nodeRef "named_bindings") .nil)
    (fun d => (d.isTypeOnly, d.name, d.namedBindings, ()))
    (fun (isTypeOnly, name, namedBindings, ()) => { isTypeOnly, name, namedBindings })

def NamedBindings.codec : Codec NamedBindings :=
  Fields.record (.cons (.nodeRef "name") <| .cons (.nodeList "elements") .nil)
    (fun d => (d.name, d.elements, ())) (fun (name, elements, ()) => { name, elements })

def Specifier.codec : Codec Specifier :=
  Fields.record
    (.cons (.bool "is_type_only") <| .cons (.nodeRef "property_name") <|
      .cons (.nodeRef "name") .nil)
    (fun d => (d.isTypeOnly, d.propertyName, d.name, ()))
    (fun (isTypeOnly, propertyName, name, ()) => { isTypeOnly, propertyName, name })

def ImportEquals.codec : Codec ImportEquals :=
  Fields.record
    (.cons .modifiers <| .cons (.bool "is_type_only") <| .cons (.nodeRef "name") <|
      .cons (.nodeRef "module_reference") .nil)
    (fun d => (d.modifiers, d.isTypeOnly, d.name, d.moduleReference, ()))
    (fun (modifiers, isTypeOnly, name, moduleReference, ()) =>
      { modifiers, isTypeOnly, name, moduleReference })

def ExternalModule.codec : Codec ExternalModule :=
  Fields.record (.cons (.nodeRef "expression") .nil)
    (fun d => (d.expression, ())) (fun (expression, ()) => { expression })

def ExportDeclaration.codec : Codec ExportDeclaration :=
  Fields.record
    (.cons .modifiers <| .cons (.bool "is_type_only") <| .cons (.nodeRef "export_clause") <|
      .cons (.nodeRef "module_specifier") .nil)
    (fun d => (d.modifiers, d.isTypeOnly, d.clause, d.moduleSpecifier, ()))
    (fun (modifiers, isTypeOnly, clause, moduleSpecifier, ()) =>
      { modifiers, isTypeOnly, clause, moduleSpecifier })

def ExportAssignment.codec : Codec ExportAssignment :=
  Fields.record
    (.cons .modifiers <| .cons (.bool "is_export_equals") <| .cons (.nodeRef "expression") .nil)
    (fun d => (d.modifiers, d.isExportEquals, d.expression, ()))
    (fun (modifiers, isExportEquals, expression, ()) => { modifiers, isExportEquals, expression })

def SourceFile.codec : Codec SourceFile :=
  Fields.record
    (.cons (.nodeList "statements") <| .cons (.string "file_name") <|
      .cons (.bool "is_declaration_file") .nil)
    (fun d => (d.statements, d.fileName, d.isDeclarationFile, ()))
    (fun (statements, fileName, isDeclarationFile, ()) =>
      { statements, fileName, isDeclarationFile })

def Content.encode : Content → Json
  | .identifier d => Identifier.codec.encode d
  | .literal d => Literal.codec.encode d
  | .classLike d => ClassLike.codec.encode d
  | .interface d => ClassLike.codec.encode d
  | .heritageClause d => HeritageClause.codec.encode d
  | .typeApplication d => TypeApplication.codec.encode d
  | .function d => FunctionDeclaration.codec.encode d
  | .signature d => Signature.codec.encode d
  | .property d => Property.codec.encode d
  | .parameter d => Property.codec.encode d
  | .module d => ModuleDeclaration.codec.encode d
  | .enum d => EnumDeclaration.codec.encode d
  | .typeAlias d => TypeAlias.codec.encode d
  | .variableStatement d => VariableStatement.codec.encode d
  | .variableDeclaration d => VariableDeclaration.codec.encode d
  | .memberList d => MemberList.codec.encode d
  | .block d => Block.codec.encode d
  | .propertyAccess d => PropertyAccess.codec.encode d
  | .binaryExpression d => BinaryExpression.codec.encode d
  | .importDeclaration d => ImportDeclaration.codec.encode d
  | .importClause d => ImportClause.codec.encode d
  | .namedBindings d => NamedBindings.codec.encode d
  | .specifier d => Specifier.codec.encode d
  | .importEquals d => ImportEquals.codec.encode d
  | .externalModule d => ExternalModule.codec.encode d
  | .exportDeclaration d => ExportDeclaration.codec.encode d
  | .exportAssignment d => ExportAssignment.codec.encode d
  | .sourceFile d => SourceFile.codec.encode d

def Content.decode (s : Shape) (v : Json) : Except DecodeError Content :=
  match s with
  | .identifier => (Identifier.codec.decode v).map .identifier
  | .literal => (Literal.codec.decode v).map .literal
  | .classLike => (ClassLike.codec.decode v).map .classLike
  | .interface => (ClassLike.codec.decode v).map .interface
  | .heritageClause => (HeritageClause.codec.decode v).map .heritageClause
  | .typeApplication => (TypeApplication.codec.decode v).map .typeApplication
  | .function => (FunctionDeclaration.codec.decode v).map .function
  | .signature => (Signature.codec.decode v).map .signature
  | .property => (Property.codec.decode v).map .property
  | .parameter => (Property.codec.decode v).map .parameter
  | .module => (ModuleDeclaration.codec.decode v).map .module
  | .enum => (EnumDeclaration.codec.decode v).map .enum
  | .typeAlias => (TypeAlias.codec.decode v).map .typeAlias
  | .variableStatement => (VariableStatement.codec.decode v).map .variableStatement
  | .variableDeclaration => (VariableDeclaration.codec.decode v).map .variableDeclaration
  | .memberList => (MemberList.codec.decode v).map .memberList
  | .block => (Block.codec.decode v).map .block
  | .propertyAccess => (PropertyAccess.codec.decode v).map .propertyAccess
  | .binaryExpression => (BinaryExpression.codec.decode v).map .binaryExpression
  | .importDeclaration => (ImportDeclaration.codec.decode v).map .importDeclaration
  | .importClause => (ImportClause.codec.decode v).map .importClause
  | .namedBindings => (NamedBindings.codec.decode v).map .namedBindings
  | .specifier => (Specifier.codec.decode v).map .specifier
  | .importEquals => (ImportEquals.codec.decode v).map .importEquals
  | .externalModule => (ExternalModule.codec.decode v).map .externalModule
  | .exportDeclaration => (ExportDeclaration.codec.decode v).map .exportDeclaration
  | .exportAssignment => (ExportAssignment.codec.decode v).map .exportAssignment
  | .sourceFile => (SourceFile.codec.decode v).map .sourceFile

def Field.table (name : String) (c : Codec α) : Field (Array α) :=
  .required name c.array

def Arena.codec : Codec Arena :=
  Fields.record
    (.cons (.table "nodes" Node.codec) <|
      .cons (.table "identifiers" Identifier.codec) <|
      .cons (.table "literals" Literal.codec) <|
      .cons (.table "classes" ClassLike.codec) <|
      .cons (.table "interfaces" ClassLike.codec) <|
      .cons (.table "heritage_clauses" HeritageClause.codec) <|
      .cons (.table "expr_with_type_args" TypeApplication.codec) <|
      .cons (.table "functions" FunctionDeclaration.codec) <|
      .cons (.table "signatures" Signature.codec) <|
      .cons (.table "property_decls" Property.codec) <|
      .cons (.table "parameters" Property.codec) <|
      .cons (.table "modules" ModuleDeclaration.codec) <|
      .cons (.table "enums" EnumDeclaration.codec) <|
      .cons (.table "type_aliases" TypeAlias.codec) <|
      .cons (.table "variables" VariableStatement.codec) <|
      .cons (.table "variable_declarations" VariableDeclaration.codec) <|
      .cons (.table "member_lists" MemberList.codec) <|
      .cons (.table "blocks" Block.codec) <|
      .cons (.table "access_exprs" PropertyAccess.codec) <|
      .cons (.table "binary_exprs" BinaryExpression.codec) <|
      .cons (.table "import_decls" ImportDeclaration.codec) <|
      .cons (.table "import_clauses" ImportClause.codec) <|
      .cons (.table "named_imports" NamedBindings.codec) <|
      .cons (.table "specifiers" Specifier.codec) <|
      .cons (.table "import_equals" ImportEquals.codec) <|
      .cons (.table "external_module_refs" ExternalModule.codec) <|
      .cons (.table "export_decls" ExportDeclaration.codec) <|
      .cons (.table "export_assignments" ExportAssignment.codec) <|
      .cons (.table "source_files" SourceFile.codec) <|
      .cons (.table "extended_info" Link.codec) .nil)
    (fun a =>
      (a.nodes, a.records.identifiers, a.records.literals, a.records.classes, a.records.interfaces,
        a.records.heritageClauses, a.records.typeApplications, a.records.functions,
        a.records.signatures, a.records.properties, a.records.parameters, a.records.modules,
        a.records.enums, a.records.typeAliases, a.records.variableStatements,
        a.records.variableDeclarations, a.records.memberLists, a.records.blocks,
        a.records.propertyAccesses, a.records.binaryExpressions, a.records.importDeclarations,
        a.records.importClauses, a.records.namedBindings, a.records.specifiers,
        a.records.importEquals, a.records.externalModules, a.records.exportDeclarations,
        a.records.exportAssignments, a.records.sourceFiles, a.links, ()))
    (fun (nodes, identifiers, literals, classes, interfaces, heritageClauses, typeApplications,
        functions, signatures, properties, parameters, modules, enums, typeAliases,
        variableStatements, variableDeclarations, memberLists, blocks, propertyAccesses,
        binaryExpressions, importDeclarations, importClauses, namedBindings, specifiers,
        importEquals, externalModules, exportDeclarations, exportAssignments, sourceFiles, links,
        ()) =>
      { nodes, links
        records :=
          { identifiers, literals, classes, interfaces, heritageClauses, typeApplications,
            functions, signatures, properties, parameters, modules, enums, typeAliases,
            variableStatements, variableDeclarations, memberLists, blocks, propertyAccesses,
            binaryExpressions, importDeclarations, importClauses, namedBindings, specifiers,
            importEquals, externalModules, exportDeclarations, exportAssignments, sourceFiles } })

end TypeAtlas
