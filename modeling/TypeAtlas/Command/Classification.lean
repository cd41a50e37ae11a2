import TypeAtlas.Command.Report
import TypeAtlas.Flags.Containers
import TypeAtlas.Flags.Modifiers
import TypeAtlas.Json.Writer
import TypeAtlas.Program

/-! The flags of the nodes of a program. -/

namespace TypeAtlas

structure Classification where
  node : NodeId
  kind : Kind
  modifiers : Modifiers
  role : ContainerRole

namespace Classification

def ofNode (a : Arena) (n : NodeId) (kind : Kind) : Classification :=
  { node := n, kind, modifiers := a.modifiers n, role := a.containerRole n }

def hasFlags (c : Classification) : Bool :=
  c.modifiers != 0 || c.role != 0

/-- ` label=A|B`, or nothing for a set without flags. -/
def renderFlags (label : String) (names : FlagNames) (bits : UInt32) : String :=
  if bits = 0 then "" else " " ++ label ++ "=" ++ "|".intercalate (names.namesOf bits)

/-- `#3 ClassDeclaration modifiers=EXPORT container=IS_CONTAINER`. -/
def render (c : Classification) : String :=
  Row.display (some c.node) ++ " " ++ c.kind.name ++
    renderFlags "modifiers" Modifiers.names c.modifiers ++
    renderFlags "container" ContainerRole.names c.role

def encode (c : Classification) : Json :=
  .record
    [("node", .ofNat c.node.index), ("kind", .ofString c.kind.name),
      ("modifiers", .ofString (String.ofList (Modifiers.names.write c.modifiers))),
      ("container", .ofString (String.ofList (ContainerRole.names.write c.role)))]

end Classification

namespace Program

/-- The flags of all nodes in the order of their creation, or only of those that have any. -/
def classifications (p : Program) (all : Bool) : List Classification :=
  let rows := p.arena.nodeIds.filterMap fun (n : NodeId) =>
    (p.arena.kind? n).map (Classification.ofNode p.arena n)
  rows.filter fun c => all || c.hasFlags

def reportClassifications (p : Program) (json all : Bool) : Report where
  status := Report.success
  text :=
    let rows := p.classifications all
    if json then (Json.array (rows.map Classification.encode)).toIndented ++ "\n"
    else Report.ofLines (rows.map Classification.render)

end Program

end TypeAtlas
