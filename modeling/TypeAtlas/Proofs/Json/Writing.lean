import TypeAtlas.Json.Writer
import TypeAtlas.Proofs.Json.Reading

/-! What is written can be read. A text that is escaped comes back, a value without a fault is
written as a strict text, whether on one line or indented, and so the reader gives it back. -/

namespace TypeAtlas

namespace Json

theorem hexValue_digitChar {n : Nat} (h : n < 16) : hexValue (Nat.digitChar n) = some n := by
  have all : ∀ i : Fin 16, hexValue (Nat.digitChar i) = some i.1 := by decide
  exact all ⟨n, h⟩

theorem isHex_digitChar {n : Nat} (h : n < 16) : IsHex (Nat.digitChar n) := by
  have all : ∀ i : Fin 16, IsHex (Nat.digitChar i) := by unfold IsHex; decide
  exact all ⟨n, h⟩

/-- How a character is escaped: by a letter, by its number, or not at all. -/
inductive Escaped (c : Char) : List Char → Prop
  | short {letter : Char} (hmem : (letter, c) ∈ shortEscapes) : Escaped c ['\\', letter]
  | code (hcontrol : c.toNat < 0x20) :
      Escaped c
        ['\\', 'u', '0', '0', Nat.digitChar (c.toNat / 16), Nat.digitChar (c.toNat % 16)]
  | plain (hcontrol : 0x20 ≤ c.toNat) (hquote : c ≠ '"') (hbackslash : c ≠ '\\') : Escaped c [c]

theorem escaped_escapeChar (c : Char) : Escaped c (escapeChar c) := by
  unfold escapeChar
  split
  · rename_i letter c' hfind
    obtain rfl : c' = c := by simpa using List.find?_some hfind
    exact .short (List.mem_of_find?_eq_some hfind)
  · rename_i hfind
    have hnone : ∀ e ∈ shortEscapes, e.2 ≠ c := by simpa using hfind
    split
    · exact .code ‹_›
    · have hquote : '"' ≠ c := hnone ('"', '"') (by decide)
      have hbackslash : '\\' ≠ c := hnone ('\\', '\\') (by decide)
      exact .plain (Nat.not_lt.mp ‹_›) hquote.symm hbackslash.symm

theorem Escaped.isString {c : Char} {text s : List Char} (h : Escaped c text) (hs : IsString s) :
    IsString (text ++ s) := by
  cases h with
  | short hmem =>
    refine .short ?_ hs
    simp only [shortEscapes, List.mem_cons, Prod.mk.injEq, List.not_mem_nil, or_false] at hmem
    rcases hmem with ⟨rfl, -⟩ | ⟨rfl, -⟩ | ⟨rfl, -⟩ | ⟨rfl, -⟩ | ⟨rfl, -⟩ | ⟨rfl, -⟩ | ⟨rfl, -⟩ <;>
      decide
  | code hcontrol =>
    have hzero : IsHex '0' := .inl rfl
    exact .code hzero hzero (isHex_digitChar (by omega)) (isHex_digitChar (by omega)) hs
  | plain hcontrol hquote hbackslash => exact .char hcontrol hquote hbackslash hs

theorem isString_escape (s : List Char) : IsString (escape s) := by
  induction s with
  | nil => exact .nil
  | cons c s ih => exact (escaped_escapeChar c).isString ih

theorem hexWord_digitChars {n : Nat} (h : n < 0x20) :
    hexWord '0' '0' (Nat.digitChar (n / 16)) (Nat.digitChar (n % 16)) = some n := by
  have hhigh : n / 16 < 16 := by omega
  have hlow : n % 16 < 16 := by omega
  have hzero : hexValue '0' = some 0 := rfl
  have hsum : n / 16 * 16 + n % 16 = n := Nat.div_add_mod' n 16
  simp [hexWord, hzero, hexValue_digitChar hhigh, hexValue_digitChar hlow, hsum]

theorem Escaped.exists_piece {c : Char} {text : List Char} (h : Escaped c text) :
    ∃ piece, (∀ rest, pieces (text ++ rest) = (pieces rest).map (piece :: ·)) ∧
      ∀ more, joinPieces (piece :: more) = (joinPieces more).map (c :: ·) := by
  cases h with
  | @short letter hmem =>
    have hletter : letter ≠ 'u' ∧ unescapeShort letter = some c := by
      simp only [shortEscapes, List.mem_cons, Prod.mk.injEq, List.not_mem_nil, or_false] at hmem
      rcases hmem with ⟨rfl, rfl⟩ | ⟨rfl, rfl⟩ | ⟨rfl, rfl⟩ | ⟨rfl, rfl⟩ | ⟨rfl, rfl⟩ |
        ⟨rfl, rfl⟩ | ⟨rfl, rfl⟩ <;> decide
    obtain ⟨hu, hshort⟩ := hletter
    refine ⟨.char c, fun rest => ?_, fun _ => rfl⟩
    cases hrest : pieces rest <;> simp [pieces, hu, hshort, hrest]
  | code hcontrol =>
    refine ⟨.code c.toNat, fun rest => ?_, fun more => ?_⟩
    · cases hrest : pieces rest <;> simp [pieces, hexWord_digitChars hcontrol, hrest]
    · have hhigh : isHighSurrogate c.toNat = false := by
        simp only [isHighSurrogate, Bool.and_eq_false_iff, decide_eq_false_iff_not]
        omega
      have hlow : isLowSurrogate c.toNat = false := by
        simp only [isLowSurrogate, Bool.and_eq_false_iff, decide_eq_false_iff_not]
        omega
      rw [joinPieces.eq_def]
      simp [hhigh, hlow, Char.ofNat_toNat]
  | plain _ _ hbackslash =>
    refine ⟨.char c, fun rest => ?_, fun _ => rfl⟩
    cases hrest : pieces rest <;> simp [pieces, hbackslash, hrest]

theorem unescape_escape (s : List Char) : unescape (escape s) = some s := by
  induction s with
  | nil => rfl
  | cons c s ih =>
    obtain ⟨piece, hpieces, hjoin⟩ := (escaped_escapeChar c).exists_piece
    obtain ⟨more, hmore, hs⟩ := Option.bind_eq_some_iff.mp ih
    have hcons : escape (c :: s) = escapeChar c ++ escape s := rfl
    simp [unescape, hcons, hpieces, hmore, hjoin, hs]

theorem text?_ofString (s : String) : (ofString s).text? = some s := by
  simp [text?, ofString, unescape_escape]

theorem isInteger_toDigits (n : Nat) : IsInteger (Nat.toDigits 10 n) := by
  induction n using Nat.strongRecOn with
  | ind n ih =>
    rw [Nat.toDigits_eq_if (by decide)]
    split
    · rename_i hn
      have all : ∀ i : Fin 10, i.1 ≠ 0 →
          (Nat.digitChar i).isDigit = true ∧ Nat.digitChar i ≠ '0' := by decide
      rcases Nat.eq_zero_or_pos n with rfl | hpos
      · exact .zero
      · obtain ⟨hdigit, hzero⟩ := all ⟨n, hn⟩ (Nat.ne_of_gt hpos)
        exact .positive hdigit hzero (List.forall_mem_nil _)
    · rename_i hn
      have all : ∀ i : Fin 10, (Nat.digitChar i).isDigit = true := by decide
      have hlast : (Nat.digitChar (n % 10)).isDigit = true := all ⟨n % 10, Nat.mod_lt n (by decide)⟩
      have hpos : 0 < n / 10 := by omega
      have hne : Nat.toDigits 10 (n / 10) ≠ ['0'] := fun h => by
        have hvalue := Nat.ofDigitChars_ten_toDigits (n := n / 10)
        rw [h] at hvalue
        exact absurd hvalue (by simp [Nat.ofDigitChars]; omega)
      have hfront := ih (n / 10) (by omega)
      generalize Nat.toDigits 10 (n / 10) = front at hfront hne
      cases hfront with
      | zero => exact absurd rfl hne
      | positive hfirst hzero hothers =>
        refine .positive hfirst hzero fun c hc => ?_
        rcases List.mem_append.mp hc with hc | hc
        · exact hothers c hc
        · rwa [List.mem_singleton.mp hc]

theorem isNumber_toDigits (n : Nat) : IsNumber (Nat.toDigits 10 n) := by
  have hparts := IsUnsigned.parts (isInteger_toDigits n) .none .none
  rw [List.append_nil, List.append_nil] at hparts
  exact .unsigned hparts

/-- A value without a fault in it, which a strict text can spell. -/
def IsSound (v : Json) : Prop :=
  ∃ ts, Value false v ts

theorem isSound_ofString (s : String) : (ofString s).IsSound :=
  ⟨_, .string (isString_escape s.toList)⟩

theorem isSound_ofNat (n : Nat) : (ofNat n).IsSound :=
  ⟨_, .number (isNumber_toDigits n)⟩

theorem exists_items {items : List Json} (h : ∀ v ∈ items, v.IsSound) (hne : items ≠ []) :
    ∃ ts, Items false items ts := by
  induction items with
  | nil => exact absurd rfl hne
  | cons v items ih =>
    obtain ⟨hv, hitems⟩ := List.forall_mem_cons.mp h
    obtain ⟨ts, hts⟩ := hv
    cases items with
    | nil => exact ⟨ts, .last hts⟩
    | cons w items =>
      obtain ⟨us, hus⟩ := ih hitems (List.cons_ne_nil w items)
      exact ⟨_, .more hts hus⟩

theorem isSound_array {items : List Json} (h : ∀ v ∈ items, v.IsSound) :
    (array items).IsSound := by
  cases items with
  | nil => exact ⟨_, .emptyArray⟩
  | cons v items =>
    obtain ⟨ts, hts⟩ := exists_items h (List.cons_ne_nil v items)
    exact ⟨_, .array hts⟩

theorem exists_members {members : List (List Char × Json)}
    (h : ∀ m ∈ members, IsString m.1 ∧ m.2.IsSound) (hne : members ≠ []) :
    ∃ ts, Members false members ts := by
  induction members with
  | nil => exact absurd rfl hne
  | cons member members ih =>
    obtain ⟨⟨hkey, ts, hts⟩, hmembers⟩ := List.forall_mem_cons.mp h
    cases members with
    | nil => exact ⟨_, .last hkey hts⟩
    | cons next members =>
      obtain ⟨us, hus⟩ := ih hmembers (List.cons_ne_nil next members)
      exact ⟨_, .more hkey hts hus⟩

theorem isSound_object {members : List (List Char × Json)}
    (h : ∀ m ∈ members, IsString m.1 ∧ m.2.IsSound) : (object members).IsSound := by
  cases members with
  | nil => exact ⟨_, .emptyObject⟩
  | cons member members =>
    obtain ⟨ts, hts⟩ := exists_members h (List.cons_ne_nil member members)
    exact ⟨_, .object hts⟩

theorem isWhite_newLine (depth : Nat) : IsWhite (newLine depth) := by
  intro c hc
  rcases List.mem_cons.mp hc with rfl | hc
  · rfl
  · rw [List.eq_of_mem_replicate hc]
    rfl

/-- A text spells tokens wherever it stands in front of others. -/
def Spells (text : List Char) (ts : List Token) : Prop :=
  ∀ more s, Laid .white more s → Laid .white (ts ++ more) (text ++ s)

theorem spells_token (t : Token) : Spells t.text [t] := fun _ _ hs =>
  .token (g := []) (List.forall_mem_nil _) hs

theorem Spells.append {text text' : List Char} {ts us : List Token} (h : Spells text ts)
    (h' : Spells text' us) : Spells (text ++ text') (ts ++ us) := fun more s hs => by
  simpa using h _ _ (h' more s hs)

theorem Spells.behind {text gap : List Char} {ts : List Token} (hgap : IsWhite gap)
    (h : Spells text ts) : Spells (gap ++ text) ts := fun more s hs => by
  simpa using (h more s hs).append hgap

theorem isWhite_space : IsWhite [' '] := by
  simp [IsWhite, isSpace]

/-- A text of a value on one line, and its texts indented to any depth. -/
structure SpellsWritten (line : List Char) (block : Nat → List Char) (ts : List Token) : Prop where
  line : Spells line ts
  block : ∀ depth, Spells (block depth) ts

mutual

theorem Value.spellsWritten : ∀ {v : Json} {ts : List Token}, Value false v ts →
    SpellsWritten v.compact (fun depth => v.indented depth) ts
  | _, _, .null => ⟨spells_token .null, fun _ => spells_token .null⟩
  | _, _, .bool true => ⟨spells_token (.bool true), fun _ => spells_token (.bool true)⟩
  | _, _, .bool false => ⟨spells_token (.bool false), fun _ => spells_token (.bool false)⟩
  | _, _, .number h => ⟨spells_token (.number _ h), fun _ => spells_token (.number _ h)⟩
  | _, _, .string h => ⟨spells_token (.string _ h), fun _ => spells_token (.string _ h)⟩
  | _, _, .emptyArray =>
    have h := (spells_token .openArray).append (spells_token .closeArray)
    ⟨h, fun _ => h⟩
  | _, _, .array h => by
    obtain ⟨v, items, rfl, hline, hblock⟩ := h.spellsWritten
    have hopen := spells_token .openArray
    refine ⟨hopen.append hline, fun depth => ?_⟩
    have hitems := hopen.append ((hblock depth).behind (isWhite_newLine (depth + 1)))
    simpa [indented, Token.text] using hitems
  | _, _, .emptyObject =>
    have h := (spells_token .openObject).append (spells_token .closeObject)
    ⟨h, fun _ => h⟩
  | _, _, .object h => by
    obtain ⟨key, v, members, rfl, hline, hblock⟩ := h.spellsWritten
    have hopen := spells_token .openObject
    refine ⟨?_, fun depth => ?_⟩
    · simpa [compact, Token.text] using hopen.append hline
    · have hmembers := hopen.append ((hblock depth).behind (isWhite_newLine (depth + 1)))
      simpa [indented, Token.text] using hmembers

theorem Items.spellsWritten : ∀ {items : List Json} {ts : List Token}, Items false items ts →
    ∃ v rest, items = v :: rest ∧
      SpellsWritten (v.compact ++ compactItems rest)
        (fun depth => v.indented (depth + 1) ++ indentedItems depth rest) (ts ++ [.closeArray])
  | _, _, .last h => by
    obtain ⟨hline, hblock⟩ := h.spellsWritten
    have hclose := spells_token .closeArray
    exact ⟨_, [], rfl, hline.append hclose, fun depth =>
      (hblock (depth + 1)).append (hclose.behind (isWhite_newLine depth))⟩
  | _, _, .more h hs => by
    obtain ⟨hline, hblock⟩ := h.spellsWritten
    obtain ⟨w, rest, rfl, hlines, hblocks⟩ := hs.spellsWritten
    have hcomma := spells_token .comma
    refine ⟨_, w :: rest, rfl, ?_, fun depth => ?_⟩
    · simpa [compactItems, Token.text] using hline.append (hcomma.append hlines)
    · have hitem := hcomma.append ((hblocks depth).behind (isWhite_newLine (depth + 1)))
      simpa [indentedItems, Token.text] using (hblock (depth + 1)).append hitem

theorem Members.spellsWritten : ∀ {members : List (List Char × Json)} {ts : List Token},
    Members false members ts → ∃ key v rest, members = (key, v) :: rest ∧
      SpellsWritten (quoted key ++ ':' :: (v.compact ++ compactMembers rest))
        (fun depth => quoted key ++ ':' :: ' ' :: (v.indented (depth + 1) ++
          indentedMembers depth rest)) (ts ++ [.closeObject])
  | _, _, .last hkey h => by
    obtain ⟨hline, hblock⟩ := h.spellsWritten
    have hclose := spells_token .closeObject
    have hname := (spells_token (.string _ hkey)).append (spells_token .colon)
    refine ⟨_, _, [], rfl, ?_, fun depth => ?_⟩
    · simpa [quoted, compactMembers, Token.text] using hname.append (hline.append hclose)
    · have hvalue := (hblock (depth + 1)).append (hclose.behind (isWhite_newLine depth))
      simpa [quoted, indentedMembers, Token.text] using hname.append (hvalue.behind isWhite_space)
  | _, _, .more hkey h hs => by
    obtain ⟨hline, hblock⟩ := h.spellsWritten
    obtain ⟨next, w, rest, rfl, hlines, hblocks⟩ := hs.spellsWritten
    have hcomma := spells_token .comma
    have hname := (spells_token (.string _ hkey)).append (spells_token .colon)
    refine ⟨_, _, (next, w) :: rest, rfl, ?_, fun depth => ?_⟩
    · have hvalue := hline.append (hcomma.append hlines)
      simpa [quoted, compactMembers, Token.text] using hname.append hvalue
    · have hmember := hcomma.append ((hblocks depth).behind (isWhite_newLine (depth + 1)))
      have hvalue := (hblock (depth + 1)).append hmember
      simpa [quoted, indentedMembers, Token.text] using hname.append (hvalue.behind isWhite_space)

end

theorem Spells.isStrict {v : Json} {ts : List Token} {text : List Char} (h : Value false v ts)
    (htext : Spells text ts) : IsStrict v text := by
  have hlaid := htext [] [] (.final (List.forall_mem_nil _))
  rw [List.append_nil, List.append_nil] at hlaid
  exact ⟨ts, h, hlaid⟩

theorem IsSound.isStrict_toCompact {v : Json} (h : v.IsSound) : IsStrict v v.toCompact.toList := by
  obtain ⟨ts, hts⟩ := h
  rw [toCompact, String.toList_ofList]
  exact hts.spellsWritten.line.isStrict hts

theorem IsSound.isStrict_toIndented {v : Json} (h : v.IsSound) :
    IsStrict v v.toIndented.toList := by
  obtain ⟨ts, hts⟩ := h
  rw [toIndented, String.toList_ofList]
  exact (hts.spellsWritten.block 0).isStrict hts

end Json

end TypeAtlas
