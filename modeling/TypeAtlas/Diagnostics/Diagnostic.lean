import TypeAtlas.Json.Record
import TypeAtlas.Text.Replace

/-! Messages about a program or its configuration, and the catalogue of those that this library
reports. -/

namespace TypeAtlas

inductive Category where
  | warning
  | error
  | suggestion
  | message
deriving DecidableEq

namespace Category

/-- As in `error TS6064`. -/
def label : Category → String
  | warning => "warning"
  | error => "error"
  | suggestion => "suggestion"
  | message => "message"

def name : Category → String
  | warning => "Warning"
  | error => "Error"
  | suggestion => "Suggestion"
  | message => "Message"

end Category

structure RelatedInformation where
  file : String
  start : UInt32
  length : UInt32
  text : String
  category : Category
  code : UInt32
deriving DecidableEq

/-- A message about a place in a file, or about the whole program where the file is empty. -/
structure Diagnostic where
  file : String
  start : UInt32
  length : UInt32
  text : String
  category : Category
  code : UInt32
  related : List RelatedInformation := []
deriving DecidableEq

namespace Diagnostic

def isGlobal (d : Diagnostic) : Bool :=
  d.file.isEmpty

def withRelated (d : Diagnostic) (file : String) (start length : UInt32) (text : String) :
    Diagnostic :=
  { d with
    related := d.related ++ [{ file, start, length, text, category := .message, code := 0 }] }

end Diagnostic

structure MessageTemplate where
  code : UInt32
  category : Category
  text : String
deriving DecidableEq

/-- The place of the argument number `i` in a template: the number between braces. -/
def placeholder (i : Nat) : List Char :=
  '{' :: Nat.toDigits 10 i ++ ['}']

/-- Puts arguments into a text from the number `i` on, one after the other. -/
def fillFrom (text : List Char) : Nat → List String → List Char
  | _, [] => text
  | i, arg :: args => fillFrom (Text.replaceAll (placeholder i) arg.toList text) (i + 1) args

/-- A template with its arguments. The arguments are put in by number, so a later one also fills
places that an earlier one has brought; places without an argument stay as they are. -/
def fill (template : String) (args : List String) : String :=
  String.ofList (fillFrom template.toList 0 args)

namespace MessageTemplate

def diagnostic (m : MessageTemplate) (args : List String) : Diagnostic :=
  { file := "", start := 0, length := 0, text := fill m.text args, category := m.category,
    code := m.code }

def unparsableFile : MessageTemplate :=
  ⟨5014, .error, "Failed to parse file '\x7b0\x7d': \x7b1\x7d."⟩

def unreadableFile : MessageTemplate :=
  ⟨5083, .error, "Cannot read file '\x7b0\x7d'."⟩

def unreadableProject : MessageTemplate :=
  ⟨6064, .error, "Cannot read project path '\x7b0\x7d'."⟩

def circularity : MessageTemplate :=
  ⟨18000, .error, "Circularity detected while resolving configuration: \x7b0\x7d"⟩

def noInputs : MessageTemplate :=
  ⟨18003, .error, "No inputs were found in config file '\x7b0\x7d'. Specified 'include' paths were '\x7b1\x7d' and 'exclude' paths were '\x7b2\x7d'."⟩

def catalogue : List MessageTemplate :=
  [unparsableFile, unreadableFile, unreadableProject, circularity, noInputs]

def ofCode? (code : UInt32) : Option MessageTemplate :=
  catalogue.find? (·.code = code)

end MessageTemplate

def RelatedInformation.encode (r : RelatedInformation) : Json :=
  .record
    [("file", .ofString r.file), ("start", .ofWord r.start), ("length", .ofWord r.length),
      ("message_text", .ofString r.text), ("category", .ofString r.category.name),
      ("code", .ofWord r.code)]

def Diagnostic.encode (d : Diagnostic) : Json :=
  .record
    ([("file", .ofString d.file), ("start", .ofWord d.start), ("length", .ofWord d.length),
      ("message_text", .ofString d.text), ("category", .ofString d.category.name),
      ("code", .ofWord d.code)] ++
      if d.related.isEmpty then []
      else [("related_information", .array (d.related.map RelatedInformation.encode))])

end TypeAtlas
