import TypeAtlas.Json.Record
import TypeAtlas.Project.Jsonc

/-! The configuration of a project, as its file says it. Everything in it may be left out, and
what is not known is passed over. -/

namespace TypeAtlas

structure CompilerOptions where
  target : Option String := none
  module : Option String := none
  moduleResolution : Option String := none
  lib : Option (List String) := none
  rootDir : Option String := none
  outDir : Option String := none
  declaration : Option Bool := none
  strict : Option Bool := none
  noEmit : Option Bool := none
  experimentalDecorators : Option Bool := none
deriving DecidableEq

structure Config where
  base : Option String := none
  options : Option CompilerOptions := none
  includes : Option (List String) := none
  excludes : Option (List String) := none
  files : Option (List String) := none
deriving DecidableEq

def truthWords : List (List Char × Bool) :=
  [("true".toList, true), ("1".toList, true), ("yes".toList, true), ("on".toList, true),
    ("false".toList, false), ("0".toList, false), ("no".toList, false), ("off".toList, false)]

/-- A truth value, or a word for one with letters of any case and blanks around it. -/
def Codec.truth : Codec Bool where
  encode := .bool
  decode
    | .bool b => .ok b
    | v =>
      match v.text? with
      | none => .error .malformed
      | some text =>
        match truthWords.lookup (Text.small (Text.trim text.toList)) with
        | some b => .ok b
        | none => .error (.invalidBoolean text)

def CompilerOptions.codec : Codec CompilerOptions :=
  Fields.record
    (.cons (.optional "target" .string) <| .cons (.optional "module" .string) <|
      .cons (.optional "moduleResolution" .string) <|
      .cons (.optional "lib" (Codec.list .string)) <|
      .cons (.optional "rootDir" .string) <| .cons (.optional "outDir" .string) <|
      .cons (.optional "declaration" .truth) <| .cons (.optional "strict" .truth) <|
      .cons (.optional "noEmit" .truth) <|
      .cons (.optional "experimentalDecorators" .truth) .nil)
    (fun o =>
      (o.target, o.module, o.moduleResolution, o.lib, o.rootDir, o.outDir, o.declaration, o.strict,
        o.noEmit, o.experimentalDecorators, ()))
    (fun (target, module, moduleResolution, lib, rootDir, outDir, declaration, strict, noEmit,
        experimentalDecorators, ()) =>
      { target, module, moduleResolution, lib, rootDir, outDir, declaration, strict, noEmit,
        experimentalDecorators })

namespace Config

def codec : Codec Config :=
  Fields.record
    (.cons (.optional "extends" .string) <|
      .cons (.optional "compilerOptions" CompilerOptions.codec) <|
      .cons (.optional "include" (Codec.list .string)) <|
      .cons (.optional "exclude" (Codec.list .string)) <|
      .cons (.optional "files" (Codec.list .string)) .nil)
    (fun c => (c.base, c.options, c.includes, c.excludes, c.files, ()))
    (fun (base, options, includes, excludes, files, ()) =>
      { base, options, includes, excludes, files })

/-- The configuration in the text of a file, which may have comments. -/
def parse (text : String) : Except DecodeError Config :=
  codec.read (Jsonc.plain text)

end Config

/-- The options of a configuration that extends one with the options `base`. -/
def CompilerOptions.extend (options base : CompilerOptions) : CompilerOptions where
  target := options.target.or base.target
  module := options.module.or base.module
  moduleResolution := options.moduleResolution.or base.moduleResolution
  lib := options.lib.or base.lib
  rootDir := options.rootDir.or base.rootDir
  outDir := options.outDir.or base.outDir
  declaration := options.declaration.or base.declaration
  strict := options.strict.or base.strict
  noEmit := options.noEmit.or base.noEmit
  experimentalDecorators := options.experimentalDecorators.or base.experimentalDecorators

namespace Config

/-- A configuration together with what it takes over from the one it extends. -/
def extend (config base : Config) : Config where
  base := none
  options := Option.merge CompilerOptions.extend config.options base.options
  includes := config.includes.or base.includes
  excludes := config.excludes.or base.excludes
  files := config.files.or base.files

end Config

end TypeAtlas
