import TypeAtlas.Command.Report
import TypeAtlas.Heritage
import TypeAtlas.Json.Writer

/-! What the classes and interfaces of a program take from others, by name. -/

namespace TypeAtlas

/-- The names of the members that a declaration takes from others, and why not all of them can be
told. -/
structure HeritageReport where
  node : NodeId
  name : String
  inherited : List String := []
  abstract : List String := []
  implemented : List String := []
  error : Option HeritageError := none
deriving DecidableEq

namespace HeritageReport

def isFailure (r : HeritageReport) : Bool :=
  r.error.isSome

def lines (r : HeritageReport) : List String :=
  (r.name ++ " (" ++ Row.display (some r.node) ++ ")") ::
    match r.error with
    | some e => ["  error: " ++ e.message]
    | none =>
      ["  inherited: " ++ ", ".intercalate r.inherited,
        "  abstract: " ++ ", ".intercalate r.abstract,
        "  implemented: " ++ ", ".intercalate r.implemented]

def encode (r : HeritageReport) : Json :=
  let names := (Codec.list .string).encode
  .record
    ([("node", .ofNat r.node.index), ("name", .ofString r.name), ("inherited", names r.inherited),
      ("abstract", names r.abstract), ("implemented", names r.implemented)] ++
      match r.error with
      | some e => [("error", .ofString e.message)]
      | none => [])

end HeritageReport

namespace Program

variable (p : Program)

/-- The names of the members that a walk from a heritage clause gives; there are none without the
clause. -/
def clauseMembers (walk : NodeRef → Except HeritageError (List SymbolRef)) (clause : NodeRef) :
    Except HeritageError (List String) :=
  if clause.isNone then .ok [] else (walk clause).map p.symbolNames

def fillReport (r : HeritageReport) : HeritageReport :=
  match (p.inherited r.node).map p.symbolNames with
  | .error e => { r with error := some e }
  | .ok inherited =>
    match p.clauseMembers p.abstractMembers (p.arena.extendsClause? r.node) with
    | .error e => { r with inherited, error := some e }
    | .ok abstract =>
      match p.clauseMembers p.implementedMembers (p.arena.implementsClause? r.node) with
      | .error e => { r with inherited, abstract, error := some e }
      | .ok implemented => { r with inherited, abstract, implemented }

/-- The name in a declaration; some classes do without. -/
def declaredNameText (n : NodeId) : String :=
  (p.arena.identifierText? (p.arena.declaredName n)).getD "<anonymous>"

/-- The report on each class and interface, in the order of their creation. -/
def heritageReports : List HeritageReport :=
  (p.arena.nodeIds.filter fun (n : NodeId) => p.arena.isClassLike n).map fun (n : NodeId) =>
    p.fillReport { node := n, name := p.declaredNameText n }

def reportHeritage (json : Bool) : Report :=
  let reports := p.heritageReports
  { status := if reports.any HeritageReport.isFailure then Report.hasErrors else Report.success
    text :=
      if json then (Json.array (reports.map HeritageReport.encode)).toIndented ++ "\n"
      else Report.ofLines (reports.flatMap HeritageReport.lines) }

end Program

end TypeAtlas
