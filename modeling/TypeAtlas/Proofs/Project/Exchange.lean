import TypeAtlas.Proofs.Json.RoundTrip
import TypeAtlas.Proofs.Project.Jsonc

/-! Configurations survive being written to a file. What is written has neither comments nor
trailing commas, whatever its strings look like, so nothing of it is taken away before it is
read. -/

namespace TypeAtlas

instance : Codec.truth.Sound where
  isSound b := ⟨_, .bool b⟩
  faithful _ := rfl

instance : Codec.truth.NeverNull where
  encode_ne_null _ := nofun

instance : CompilerOptions.codec.Sound :=
  Fields.record_sound (by decide) fun _ => rfl

instance : CompilerOptions.codec.NeverNull where
  encode_ne_null _ := nofun

instance : Config.codec.Sound :=
  Fields.record_sound (by decide) fun _ => rfl

namespace Config

theorem plain_write (config : Config) :
    Jsonc.plain (codec.write config) = codec.write config :=
  Jsonc.plain_of_isStrict (Codec.Sound.isSound config).isStrict_toCompact

theorem plain_toIndented (config : Config) :
    Jsonc.plain (codec.encode config).toIndented = (codec.encode config).toIndented :=
  Jsonc.plain_of_isStrict (Codec.Sound.isSound config).isStrict_toIndented

/-- Every configuration is read back as it was written, on one line or indented. -/
theorem parse_write (config : Config) :
    parse (codec.write config) = .ok config ∧
      parse (codec.encode config).toIndented = .ok config := by
  have h : codec.Sound := inferInstance
  constructor
  · rw [parse, plain_write, h.read_written]
  · rw [parse, plain_toIndented, h.read_toIndented]

end Config

end TypeAtlas
