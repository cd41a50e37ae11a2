import TypeAtlas.Json.Record
import TypeAtlas.Proofs.Json.Writing
import TypeAtlas.Row
import TypeAtlas.Table

/-! Codecs that read what they write. A codec built from such codecs is one again: a record needs
fields with different names, an optional value must not be written as `null`, and a table needs
keys that are spelled so that they can be told. -/

namespace TypeAtlas

namespace Codec

variable {α β : Type} {c : Codec α}

/-- What the codec writes is free of faults, and it is read back as what was written. -/
class Sound (c : Codec α) : Prop where
  isSound : ∀ a, (c.encode a).IsSound
  faithful : c.Faithful

instance : bool.Sound where
  isSound b := ⟨_, .bool b⟩
  faithful := bool_faithful

instance : string.Sound where
  isSound := Json.isSound_ofString
  faithful s := by simp [string, Json.text?_ofString]

instance : word.Sound where
  isSound w := Json.isSound_ofNat w.toNat
  faithful := word_faithful

instance : halfWord.Sound where
  isSound w := Json.isSound_ofNat w.toNat
  faithful := halfWord_faithful

theorem Sound.via (h : c.Sound) {forth : β → α} {back : α → β} (hback : ∀ b, back (forth b) = b) :
    (c.via forth back).Sound where
  isSound b := h.isSound (forth b)
  faithful := h.faithful.via hback

instance [h : c.Sound] : c.list.Sound where
  isSound _ := Json.isSound_array (List.forall_mem_map.mpr fun a _ => h.isSound a)
  faithful := h.faithful.list

instance [c.Sound] : c.array.Sound :=
  Sound.via inferInstance fun _ => rfl

/-- The codec leaves `null` free for what is absent. -/
class NeverNull (c : Codec α) : Prop where
  encode_ne_null : ∀ a, c.encode a ≠ .null

instance : word.NeverNull where
  encode_ne_null _ := nofun

instance : string.NeverNull where
  encode_ne_null _ := nofun

instance : c.list.NeverNull where
  encode_ne_null _ := nofun

theorem nullable_decode_of_ne_null {v : Json} (h : v ≠ .null) :
    c.nullable.decode v = (c.decode v).map some := by
  cases v with
  | null => exact absurd rfl h
  | _ => rfl

instance [h : c.Sound] [hc : c.NeverNull] : c.nullable.Sound where
  isSound
    | none => ⟨_, .null⟩
    | some a => h.isSound a
  faithful
    | none => rfl
    | some a => by
      have hdecode := nullable_decode_of_ne_null (c := c) (hc.encode_ne_null a)
      rw [h.faithful a] at hdecode
      exact hdecode

theorem Sound.read_written (h : c.Sound) (a : α) : c.read (c.write a) = .ok a := by
  simp [read, write, (h.isSound a).isStrict_toCompact.read, h.faithful a]

theorem Sound.read_toIndented (h : c.Sound) (a : α) :
    c.read (c.encode a).toIndented = .ok a := by
  simp [read, (h.isSound a).isStrict_toIndented.read, h.faithful a]

end Codec

namespace Field

variable {α : Type}

/-- A member that is written is read back, and a value for which none is written is the one that
its absence stands for. -/
class Sound (f : Field α) : Prop where
  written : ∀ a v, f.encode a = some v → v.IsSound ∧ f.decode v = .ok a
  omitted : ∀ a, f.encode a = none → f.unnamed = some a

instance {name : String} {c : Codec α} [h : c.Sound] : (required name c).Sound where
  written a v hv := by
    cases hv
    exact ⟨h.isSound a, h.faithful a⟩
  omitted := nofun

instance {name : String} {c : Codec α} [h : c.Sound] {value : α} :
    (defaulted name c value).Sound where
  written a v hv := by
    cases hv
    exact ⟨h.isSound a, h.faithful a⟩
  omitted := nofun

instance {name : String} {c : Codec α} [c.Sound] [c.NeverNull] : (nullable name c).Sound where
  written a v hv := by
    have h : c.nullable.Sound := inferInstance
    cases hv
    exact ⟨h.isSound a, h.faithful a⟩
  omitted := nofun

instance {name : String} {c : Codec α} [c.Sound] [c.NeverNull] : (optional name c).Sound where
  written a v hv := by
    have h : c.nullable.Sound := inferInstance
    obtain ⟨b, rfl, rfl⟩ := Option.map_eq_some_iff.mp hv
    exact ⟨h.isSound (some b), h.faithful (some b)⟩
  omitted a ha := by
    rw [Option.map_eq_none_iff.mp ha]
    rfl

end Field

namespace Fields

def names : {types : List Type} → Fields types → List String
  | [], .nil => []
  | _ :: _, .cons field fields => field.name :: fields.names

variable {types : List Type}

/-- The members that are written have the names of the fields, and are read back if no two fields
have one name. -/
class Sound (fields : Fields types) : Prop where
  of_mem_encode : ∀ {values key v}, (key, v) ∈ fields.encode values →
    (∃ name ∈ fields.names, key = Json.escape name.toList) ∧ v.IsSound
  putAll_encode : fields.names.Nodup → ∀ values,
    ∃ slots, fields.putAll (empty types) (fields.encode values) = .ok slots ∧
      fields.close slots = .ok values

instance : Fields.nil.Sound where
  of_mem_encode := nofun
  putAll_encode _ _ := ⟨(), rfl, rfl⟩

theorem putAll_cons {α : Type} {field : Field α} {fields : Fields types} {slot : Option α}
    {slots : Slots types} {members : List (List Char × Json)}
    (h : ∀ m ∈ members, ∃ name, field.name ≠ name ∧ m.1 = Json.escape name.toList) :
    (Fields.cons field fields).putAll (slot, slots) members =
      (fields.putAll slots members).map fun slots => (slot, slots) := by
  induction members generalizing slots with
  | nil => rfl
  | cons member members ih =>
    obtain ⟨key, v⟩ := member
    obtain ⟨⟨name, hname, rfl⟩, hmembers⟩ := List.forall_mem_cons.mp h
    simp only [putAll, Json.unescape_escape, String.ofList_toList, put, if_neg hname]
    cases fields.put slots name v with
    | error e => rfl
    | ok slots => exact ih hmembers

instance {α : Type} {field : Field α} {fields : Fields types} [hfield : field.Sound]
    [hfields : fields.Sound] : (Fields.cons field fields).Sound where
  of_mem_encode {values key v} hmem := by
    obtain ⟨a, values⟩ := values
    have behind (hmem : (key, v) ∈ fields.encode values) :
        (∃ name ∈ (Fields.cons field fields).names, key = Json.escape name.toList) ∧
          v.IsSound := by
      obtain ⟨⟨name, hname, hkey⟩, hv⟩ := hfields.of_mem_encode hmem
      exact ⟨⟨name, List.mem_cons_of_mem _ hname, hkey⟩, hv⟩
    rw [encode] at hmem
    split at hmem
    · rename_i w hw
      rcases List.mem_cons.mp hmem with heq | hmem
      · cases heq
        exact ⟨⟨field.name, List.mem_cons_self, rfl⟩, (hfield.written a v hw).1⟩
      · exact behind hmem
    · exact behind hmem
  putAll_encode hnodup values := by
    obtain ⟨a, values⟩ := values
    obtain ⟨hname, hnames⟩ := List.nodup_cons.mp hnodup
    obtain ⟨slots, hput, hclose⟩ := hfields.putAll_encode hnames values
    have hothers : ∀ m ∈ fields.encode values,
        ∃ name, field.name ≠ name ∧ m.1 = Json.escape name.toList := by
      rintro ⟨key, v⟩ hmem
      obtain ⟨⟨name, hmem, hkey⟩, -⟩ := hfields.of_mem_encode hmem
      exact ⟨name, fun heq => hname (heq ▸ hmem), hkey⟩
    cases hencode : field.encode a with
    | some v =>
      obtain ⟨-, hdecode⟩ := hfield.written a v hencode
      refine ⟨(some a, slots), ?_, ?_⟩
      · simp only [encode, hencode, putAll, empty, put, Json.unescape_escape, String.ofList_toList,
          if_pos, hdecode, Except.map, bind, Except.bind, putAll_cons hothers, hput]
      · simp [close, hclose, Except.map]
    | none =>
      refine ⟨(none, slots), ?_, ?_⟩
      · simp only [encode, hencode, empty, putAll_cons hothers, hput, Except.map]
      · simp [close, hfield.omitted a hencode, hclose, Except.map]

theorem record_sound {α : Type} {fields : Fields types} [h : fields.Sound]
    (hnames : fields.names.Nodup) {forth : α → Values types} {back : Values types → α}
    (hback : ∀ a, back (forth a) = a) : (record fields forth back).Sound := by
  have hcodec : fields.codec.Sound := by
    refine ⟨fun values => Json.isSound_object fun m hmem => ?_, fun values => ?_⟩
    · obtain ⟨⟨name, -, hkey⟩, hv⟩ := h.of_mem_encode hmem
      exact ⟨hkey ▸ Json.isString_escape name.toList, hv⟩
    · obtain ⟨slots, hput, hclose⟩ := h.putAll_encode hnames values
      simp [codec, hput, hclose, bind, Except.bind]
  exact hcodec.via hback

end Fields

instance Row.codec_sound {sheet : Sheet} : (Row.codec : Codec (Option (Row sheet))).Sound :=
  Codec.Sound.via inferInstance Row.ofWord_toWord

instance {sheet : Sheet} : (Row.codec : Codec (Option (Row sheet))).NeverNull where
  encode_ne_null _ := nofun

namespace Table

variable {κ ν : Type} [DecidableEq κ]

theorem put_of_not_mem {k : κ} {v : ν} {entries : List (κ × ν)}
    (h : k ∉ entries.map Prod.fst) : put k v entries = entries ++ [(k, v)] := by
  induction entries with
  | nil => rfl
  | cons entry entries ih =>
    obtain ⟨hfirst, hrest⟩ := not_or.mp (List.mem_cons.not.mp h)
    rw [put, if_neg (Ne.symm hfirst), ih hrest]
    rfl

theorem entries_foldl_insert {entries : List (κ × ν)} {t : Table κ ν}
    (h : ((t.entries ++ entries).map Prod.fst).Nodup) :
    (entries.foldl (fun t (k, v) => t.insert k v) t).entries = t.entries ++ entries := by
  induction entries generalizing t with
  | nil => exact (List.append_nil _).symm
  | cons entry entries ih =>
    obtain ⟨k, v⟩ := entry
    have hk : k ∉ t.entries.map Prod.fst := by
      rw [List.map_append, List.map_cons, List.nodup_middle] at h
      exact fun hmem => (List.nodup_cons.mp h).1 (List.mem_append_left _ hmem)
    have hentries : (t.insert k v).entries = t.entries ++ [(k, v)] := put_of_not_mem hk
    have hnext : (((t.insert k v).entries ++ entries).map Prod.fst).Nodup := by
      simpa [hentries] using h
    simpa [hentries] using ih hnext

theorem ofList_entries (t : Table κ ν) : ofList t.entries = t := by
  have hentries : (ofList t.entries).entries = t.entries := entries_foldl_insert t.keys_nodup
  cases h : ofList t.entries
  cases t
  simp_all

theorem codec_sound {spell : κ → List Char} {key? : List Char → Option κ} {c : Codec ν}
    [h : c.Sound] (hstring : ∀ k, Json.IsString (spell k)) (hkey : ∀ k, key? (spell k) = some k) :
    (codec spell key? c).Sound where
  isSound t := by
    refine Json.isSound_object (List.forall_mem_map.mpr ?_)
    rintro ⟨k, v⟩ -
    exact ⟨hstring k, h.isSound v⟩
  faithful t := by
    simp only [codec]
    refine bind_eq_ok_iff.mpr ⟨t.entries, mapM_map_eq_ok ?_ _, ?_⟩
    · rintro ⟨k, v⟩
      simp only [hkey, h.faithful v]
      rfl
    · exact congrArg Except.ok (ofList_entries t)

instance {c : Codec ν} [c.Sound] : (namedCodec c).Sound :=
  codec_sound (fun k => Json.isString_escape k.toList) fun k => by simp [Json.unescape_escape]

theorem isString_toDigits (n : Nat) : Json.IsString (Nat.toDigits 10 n) := by
  refine Json.isString_of_unescaped fun c hc => ?_
  have hdigit := Nat.isDigit_of_mem_toDigits (by decide) (by decide) hc
  obtain ⟨hlow, hhigh⟩ := Char.isDigit_iff_toNat.mp hdigit
  have hlow : 48 ≤ c.toNat := hlow
  refine ⟨by omega, ?_, ?_⟩ <;> rintro rfl <;> exact absurd hdigit (by decide)

instance {c : Codec ν} [c.Sound] : (numberedCodec c).Sound := by
  refine codec_sound (fun k => isString_toDigits k.toNat) fun k => ?_
  have hscan : Json.scanInteger (Nat.toDigits 10 k.toNat ++ []) = some (_, []) :=
    Json.scanInteger_append (Json.isInteger_toDigits k.toNat) (by simp)
  rw [List.append_nil] at hscan
  simp [hscan, Nat.ofDigitChars_ten_toDigits, k.toNat_lt_size]

end Table

end TypeAtlas
