import TypeAtlas.Flags.Names
import TypeAtlas.Tree.Arena
import TypeAtlas.Tree.NodeFlags

/-! The modifiers of declarations, as sets of flags. -/

namespace TypeAtlas

abbrev Modifiers := UInt32

namespace Modifiers

def «public» : Modifiers := 0x1

def «private» : Modifiers := 0x2

def «protected» : Modifiers := 0x4

def readonly : Modifiers := 0x8

def «export» : Modifiers := 0x20

def abstract : Modifiers := 0x40

/-- `declare`. -/
def ambient : Modifiers := 0x80

def static : Modifiers := 0x100

def async : Modifiers := 0x400

def default : Modifiers := 0x800

def const : Modifiers := 0x1000

def names : FlagNames where
  single :=
    [("PUBLIC", «public»), ("PRIVATE", «private»), ("PROTECTED", «protected»),
      ("READONLY", readonly), ("EXPORT", «export»), ("ABSTRACT", abstract), ("AMBIENT", ambient),
      ("STATIC", static), ("ASYNC", async), ("DEFAULT", default), ("CONST", const)]
  groups := [("ACCESSIBILITY", «public» ||| «private» ||| «protected»)]

/-- The modifiers of the language with the keywords that stand for them. -/
def keywords : List (Kind × Modifiers) :=
  [(.staticKeyword, static), (.publicKeyword, «public»), (.protectedKeyword, «protected»),
    (.privateKeyword, «private»), (.abstractKeyword, abstract), (.exportKeyword, «export»),
    (.declareKeyword, ambient), (.constKeyword, const), (.defaultKeyword, default),
    (.asyncKeyword, async), (.readonlyKeyword, readonly)]

/-- The modifier that a token stands for. Other tokens stand for none. -/
def ofToken (token : Kind) : Modifiers :=
  (keywords.lookup token).getD 0

def contains (modifiers flags : Modifiers) : Bool :=
  modifiers &&& flags == flags

end Modifiers

namespace Arena

def modifiersOfList (a : Arena) (tokens : NodeList) : Modifiers :=
  (tokens.filterMap a.kind?).foldl (fun modifiers token => modifiers ||| Modifiers.ofToken token) 0

/-- Inner declarations of dotted namespaces and identifiers in the name of a documented namespace
are exported without saying so. -/
def isImplicitlyExported (a : Arena) (n : NodeRef) : Bool :=
  (a.node? n).any (fun node => node.flags &&& NodeFlags.nestedNamespace != 0) ||
    match a.content? n with
    | some (.identifier d) => d.inDocNamespace
    | _ => false

def modifiers (a : Arena) (n : NodeRef) : Modifiers :=
  a.modifiersOfList ((a.modifiers? n).getD []) |||
    if a.isImplicitlyExported n then Modifiers.export else 0

def hasModifier (a : Arena) (n : NodeRef) (flags : Modifiers) : Bool :=
  (a.modifiers n).contains flags

end Arena

end TypeAtlas
