import TypeAtlas.Project.Config
import TypeAtlas.Proofs.Json.Reading

/-! Comments and trailing commas have no meaning: a text with them is read as the text of JSON
with the same values, and a text without them is left alone. -/

namespace TypeAtlas

namespace Jsonc

open Json

/-- White space with comments in it: block comments that are closed and line comments with the
end of their line. -/
inductive IsGap : List Char → Prop
  | nil : IsGap []
  | space {c : Char} {g : List Char} (hc : isSpace c = true) (h : IsGap g) : IsGap (c :: g)
  | block {body g : List Char} (hbody : ¬ ['*', '/'] <:+: body) (h : IsGap g) :
      IsGap ('/' :: '*' :: (body ++ '*' :: '/' :: g))
  | line {body g : List Char} (hbody : '\n' ∉ body) (h : IsGap g) :
      IsGap ('/' :: '/' :: (body ++ '\n' :: g))

/-- A gap at the end of a text, which may cut a line comment off. -/
inductive IsFinalGap : List Char → Prop
  | gap {g : List Char} (h : IsGap g) : IsFinalGap g
  | line {g body : List Char} (h : IsGap g) (hbody : '\n' ∉ body) :
      IsFinalGap (g ++ '/' :: '/' :: body)

def gaps : Gaps where
  before := IsGap
  final := IsFinalGap

/-- A text of JSON with comments and trailing commas, and the value it spells. -/
def IsDecorated (v : Json) (s : List Char) : Prop :=
  ∃ ts, Value true v ts ∧ Laid gaps ts s

/-- Strings are copied, and outside of them all that is neither a slash nor a comma. -/
structure Copies (f : Region → List Char → List Char) : Prop where
  nil : f .outside [] = []
  outside : ∀ {c rest}, c ≠ '/' → c ≠ ',' →
    f .outside (c :: rest) = c :: f (if c = '"' then .string else .outside) rest
  string : ∀ {c rest}, f .string (c :: rest) =
    c :: f (if c = '\\' then .escaped else if c = '"' then .outside else .string) rest
  escaped : ∀ {c rest}, f .escaped (c :: rest) = c :: f .string rest

theorem copies_withoutComments : Copies withoutComments where
  nil := rfl
  outside hslash _ := by simp [withoutComments, hslash]
  string := by simp [withoutComments]
  escaped := by simp [withoutComments]

theorem copies_withoutTrailingCommas : Copies withoutTrailingCommas where
  nil := rfl
  outside _ hcomma := by simp [withoutTrailingCommas, hcomma]
  string := rfl
  escaped := rfl

namespace Copies

variable {f : Region → List Char → List Char}

theorem append (hf : Copies f) {s rest : List Char}
    (h : ∀ c ∈ s, c ≠ '/' ∧ c ≠ ',' ∧ c ≠ '"') :
    f .outside (s ++ rest) = s ++ f .outside rest := by
  induction s with
  | nil => rfl
  | cons c s ih =>
    obtain ⟨hslash, hcomma, hquote⟩ := h c List.mem_cons_self
    have ih := ih fun c hc => h c (List.mem_cons_of_mem _ hc)
    simp [hf.outside hslash hcomma, hquote, ih]

theorem white (hf : Copies f) {g : List Char} (hg : IsWhite g) (rest : List Char) :
    f .outside (g ++ rest) = g ++ f .outside rest := by
  refine hf.append fun c hc => ?_
  have hc := hg c hc
  simp only [isSpace, Bool.or_eq_true, decide_eq_true_eq] at hc
  rcases hc with ((rfl | rfl) | rfl) | rfl <;> decide

theorem final (hf : Copies f) {g : List Char} (hg : IsWhite g) : f .outside g = g := by
  have hcopy := hf.white hg []
  rwa [hf.nil, List.append_nil] at hcopy

theorem stringEnd (hf : Copies f) {s rest : List Char} (h : IsString s) :
    f .string (s ++ '"' :: rest) = s ++ '"' :: f .outside rest := by
  have hex {c : Char} (hc : IsHex c) {rest : List Char} :
      f .string (c :: rest) = c :: f .string rest := by
    have hbackslash : c ≠ '\\' := by rintro rfl; revert hc; simp [IsHex]
    have hquote : c ≠ '"' := by rintro rfl; revert hc; simp [IsHex]
    simp [hf.string, hbackslash, hquote]
  induction h with
  | nil => simp [hf.string]
  | char hcontrol hquote hbackslash h ih => simp [hf.string, hquote, hbackslash, ih]
  | short hletter h ih => simp [hf.string, hf.escaped, ih]
  | code ha hb hc hd h ih =>
    simp only [List.cons_append]
    rw [hf.string, if_pos rfl, hf.escaped, hex ha, hex hb, hex hc, hex hd, ih]

theorem token (hf : Copies f) {t : Token} {s : List Char} (ht : t ≠ .comma) :
    f .outside (t.text ++ s) = t.text ++ f .outside s := by
  cases t with
  | comma => exact absurd rfl ht
  | string s h => simp [Token.text, hf.outside, hf.stringEnd h]
  | number s h =>
    refine hf.append fun c hc => ?_
    have hc := h.isNumeral c hc
    refine ⟨?_, ?_, ?_⟩ <;> rintro rfl <;> revert hc <;> simp [IsNumeral]
  | bool b => cases b <;> exact hf.append (by simp [Token.text])
  | _ => exact hf.append (by simp [Token.text])

end Copies

theorem withoutComments_lineComment {body : List Char} (hbody : '\n' ∉ body) (rest : List Char) :
    withoutComments .lineComment (body ++ rest) = withoutComments .lineComment rest := by
  induction body with
  | nil => rfl
  | cons c body ih =>
    obtain ⟨hc, hbody⟩ := not_or.1 (mt List.mem_cons.2 hbody)
    simp [withoutComments, Ne.symm hc, ih hbody]

theorem withoutComments_blockComment {body : List Char} (hbody : ¬ ['*', '/'] <:+: body)
    (rest : List Char) :
    withoutComments .blockComment (body ++ '*' :: '/' :: rest) =
      body.filter (· = '\n') ++ withoutComments .outside rest := by
  induction body with
  | nil => simp [withoutComments]
  | cons c body ih =>
    have hslash : c = '*' → (body ++ '*' :: '/' :: rest).head? ≠ some '/' := by
      rintro rfl
      cases body with
      | nil => simp
      | cons d body =>
        simp only [List.cons_append, List.head?_cons, ne_eq, Option.some.injEq]
        rintro rfl
        exact hbody ⟨[], body, rfl⟩
    have ih := ih fun h => hbody (h.trans (List.suffix_cons c body).isInfix)
    rw [List.cons_append, withoutComments]
    · by_cases hc : c = '\n' <;> simp [hc, ih]
    · intro rest' hc hrest
      simp [hrest] at hslash
      exact hslash hc

theorem withoutComments_gap {g : List Char} (h : IsGap g) : ∃ white, IsWhite white ∧
    ∀ rest, withoutComments .outside (g ++ rest) = white ++ withoutComments .outside rest := by
  induction h with
  | nil => exact ⟨[], by simp [IsWhite], fun _ => rfl⟩
  | @space c g hc h ih =>
    obtain ⟨white, hwhite, hg⟩ := ih
    refine ⟨c :: white, List.forall_mem_cons.2 ⟨hc, hwhite⟩, fun rest => ?_⟩
    have hc : IsWhite [c] := by simpa [IsWhite] using hc
    have hcopy := copies_withoutComments.white hc (g ++ rest)
    rw [hg] at hcopy
    exact hcopy
  | @block body g hbody h ih =>
    obtain ⟨white, hwhite, hg⟩ := ih
    refine ⟨body.filter (· = '\n') ++ white, ?_, fun rest => ?_⟩
    · intro c hc
      rcases List.mem_append.1 hc with hc | hc
      · obtain ⟨-, hc⟩ := List.mem_filter.1 hc
        simp [isSpace, of_decide_eq_true hc]
      · exact hwhite c hc
    · simp [withoutComments, withoutComments_blockComment hbody, hg]
  | @line body g hbody h ih =>
    obtain ⟨white, hwhite, hg⟩ := ih
    refine ⟨'\n' :: white, List.forall_mem_cons.2 ⟨rfl, hwhite⟩, fun rest => ?_⟩
    simp [withoutComments, withoutComments_lineComment hbody, hg]

theorem withoutComments_finalGap {g : List Char} (h : IsFinalGap g) :
    IsWhite (withoutComments .outside g) := by
  cases h with
  | gap h =>
    obtain ⟨white, hwhite, hg⟩ := withoutComments_gap h
    have hg : withoutComments .outside g = white := by simpa [withoutComments] using hg []
    exact hg ▸ hwhite
  | @line g body h hbody =>
    obtain ⟨white, hwhite, hg⟩ := withoutComments_gap h
    have hline : withoutComments .lineComment body = [] := by
      simpa [withoutComments] using withoutComments_lineComment hbody []
    simpa [hg, withoutComments, hline] using hwhite

theorem withoutComments_token (t : Token) (s : List Char) :
    withoutComments .outside (t.text ++ s) = t.text ++ withoutComments .outside s := by
  by_cases ht : t = .comma
  · subst ht
    simp [Token.text, withoutComments]
  · exact copies_withoutComments.token ht

theorem laid_withoutComments {ts : List Token} {s : List Char} (h : Laid gaps ts s) :
    Laid .white ts (withoutComments .outside s) := by
  induction h with
  | final hg => exact .final (withoutComments_finalGap hg)
  | @token t ts g s hg h ih =>
    obtain ⟨white, hwhite, hg⟩ := withoutComments_gap hg
    rw [hg, withoutComments_token]
    exact .token hwhite ih

theorem withoutComments_of_laid {ts : List Token} {s : List Char} (h : Laid .white ts s) :
    withoutComments .outside s = s := by
  induction h with
  | final hg => exact copies_withoutComments.final hg
  | @token t ts g s hg h ih =>
    rw [copies_withoutComments.white hg, withoutComments_token, ih]

theorem isClosing_of_laid {ts : List Token} {s : List Char} (h : Laid .white ts s) :
    isClosing s = ts.head?.any Token.isClosing := by
  have blank {g : List Char} (hg : IsWhite g) : ∀ c ∈ g, Text.isBlank c = true := fun c hc =>
    isBlank_of_isSpace (hg c hc)
  cases h with
  | final hg =>
    have hs : s.dropWhile Text.isBlank = [] := List.dropWhile_eq_nil_iff.2 (blank hg)
    simp [isClosing, hs]
  | @token t ts g s hg h =>
    obtain ⟨c, text, htext, hblank, hclosing⟩ := t.text_eq_cons
    have hs : (g ++ (t.text ++ s)).dropWhile Text.isBlank = t.text ++ s :=
      dropWhile_append_eq (blank hg) (by simp [htext, hblank])
    rw [htext, List.cons_append] at hs
    simp only [isClosing, htext, List.cons_append, hs, List.head?_cons, Option.any_some]
    split
    · next h =>
      obtain ⟨rfl, -⟩ := List.cons.inj h
      exact (hclosing.2 (.inr rfl)).symm
    · next h =>
      obtain ⟨rfl, -⟩ := List.cons.inj h
      exact (hclosing.2 (.inl rfl)).symm
    · next hbrace hbracket =>
      refine (Bool.eq_false_iff.2 fun h => ?_).symm
      rcases hclosing.1 h with rfl | rfl
      · exact hbracket _ rfl
      · exact hbrace _ rfl

/-- Tokens without the commas in front of closing ones. -/
def strictTokens : List Token → List Token
  | [] => []
  | .comma :: ts =>
    if ts.head?.any Token.isClosing then strictTokens ts else .comma :: strictTokens ts
  | t :: ts => t :: strictTokens ts

theorem strictTokens_cons {t : Token} (ht : t ≠ .comma) (ts : List Token) :
    strictTokens (t :: ts) = t :: strictTokens ts := by
  cases t with
  | comma => exact absurd rfl ht
  | _ => rfl

theorem withoutTrailingCommas_comma {ts : List Token} {s : List Char} (h : Laid .white ts s) :
    withoutTrailingCommas .outside (Token.comma.text ++ s) =
      if ts.head?.any Token.isClosing then withoutTrailingCommas .outside s
      else ',' :: withoutTrailingCommas .outside s := by
  simp [Token.text, withoutTrailingCommas, isClosing_of_laid h]

theorem laid_withoutTrailingCommas {ts : List Token} {s : List Char} (h : Laid .white ts s) :
    Laid .white (strictTokens ts) (withoutTrailingCommas .outside s) := by
  induction h with
  | final hg =>
    rw [copies_withoutTrailingCommas.final hg]
    exact .final hg
  | @token t ts g s hg h ih =>
    rw [copies_withoutTrailingCommas.white hg]
    by_cases ht : t = .comma
    · subst ht
      rw [withoutTrailingCommas_comma h, strictTokens]
      split
      · exact ih.append hg
      · exact .token hg ih
    · rw [copies_withoutTrailingCommas.token ht, strictTokens_cons ht]
      exact .token hg ih

theorem length_strictTokens_le (ts : List Token) : (strictTokens ts).length ≤ ts.length := by
  fun_induction strictTokens ts with
  | case1 => simp
  | case2 ts hclosing ih => simp; omega
  | case3 ts hclosing ih => simpa using ih
  | case4 t ts ht ih => simpa using ih

theorem withoutTrailingCommas_of_laid {ts : List Token} {s : List Char} (h : Laid .white ts s)
    (hts : strictTokens ts = ts) : withoutTrailingCommas .outside s = s := by
  induction h with
  | final hg => exact copies_withoutTrailingCommas.final hg
  | @token t ts g s hg h ih =>
    rw [copies_withoutTrailingCommas.white hg]
    by_cases ht : t = .comma
    · subst ht
      rw [withoutTrailingCommas_comma h]
      rw [strictTokens] at hts
      split at hts
      · -- a dropped comma would make the list shorter
        have hlength := length_strictTokens_le ts
        rw [hts, List.length_cons] at hlength
        omega
      · next hclosing => rw [if_neg hclosing, ih (List.cons.inj hts).2]; rfl
    · rw [strictTokens_cons ht] at hts
      rw [copies_withoutTrailingCommas.token ht, ih (List.cons.inj hts).2]

theorem strictTokens_closing {t : Token} (ht : t.isClosing = true) (ts : List Token) :
    strictTokens (t :: ts) = t :: strictTokens ts :=
  strictTokens_cons (by rintro rfl; simp [Token.isClosing] at ht) ts

theorem strictTokens_comma {t : Token} (ht : t.isClosing = false) (ts : List Token) :
    strictTokens (.comma :: t :: ts) = .comma :: strictTokens (t :: ts) := by
  rw [strictTokens, List.head?_cons, Option.any_some, ht, if_neg Bool.false_ne_true]

theorem strictTokens_comma_closing {t : Token} (ht : t.isClosing = true) (ts : List Token) :
    strictTokens (.comma :: t :: ts) = t :: strictTokens ts := by
  rw [strictTokens, List.head?_cons, Option.any_some, ht, if_pos rfl, strictTokens_closing ht]

mutual

theorem value_strictTokens {b : Bool} : ∀ {v : Json} {ts : List Token}, Value b v ts →
    ∃ us, Value false v us ∧ (b = false → us = ts) ∧
      ∀ more, strictTokens (ts ++ more) = us ++ strictTokens more
  | _, _, .null => ⟨_, .null, fun _ => rfl, fun _ => rfl⟩
  | _, _, .bool b => ⟨_, .bool b, fun _ => rfl, fun _ => rfl⟩
  | _, _, .number h => ⟨_, .number h, fun _ => rfl, fun _ => rfl⟩
  | _, _, .string h => ⟨_, .string h, fun _ => rfl, fun _ => rfl⟩
  | _, _, .emptyArray => ⟨_, .emptyArray, fun _ => rfl, fun _ => rfl⟩
  | _, _, .array h => by
    obtain ⟨us, hus, hsame, hstrict⟩ := items_strictTokens h
    refine ⟨_, .array hus, fun hb => by rw [hsame hb], fun more => ?_⟩
    have hstrict := hstrict (t := .closeArray) rfl more
    simpa [strictTokens] using hstrict
  | _, _, .emptyObject => ⟨_, .emptyObject, fun _ => rfl, fun _ => rfl⟩
  | _, _, .object h => by
    obtain ⟨us, hus, hsame, hstrict⟩ := members_strictTokens h
    refine ⟨_, .object hus, fun hb => by rw [hsame hb], fun more => ?_⟩
    have hstrict := hstrict (t := .closeObject) rfl more
    simpa [strictTokens] using hstrict

theorem items_strictTokens {b : Bool} : ∀ {items : List Json} {ts : List Token},
    Items b items ts →
    ∃ us, Items false items us ∧ (b = false → us = ts) ∧
      ∀ {t}, t.isClosing = true → ∀ more,
        strictTokens (ts ++ t :: more) = us ++ t :: strictTokens more
  | _, _, .last h => by
    obtain ⟨us, hus, hsame, hstrict⟩ := value_strictTokens h
    exact ⟨us, .last hus, hsame, fun ht more => by rw [hstrict, strictTokens_closing ht]⟩
  | _, _, .trailing hb h => by
    obtain ⟨us, hus, -, hstrict⟩ := value_strictTokens h
    refine ⟨us, .last hus, by simp [hb], fun ht more => ?_⟩
    rw [List.append_assoc, hstrict, List.singleton_append, strictTokens_comma_closing ht]
  | _, _, .more h hs => by
    obtain ⟨us, hus, hsame, hstrict⟩ := value_strictTokens h
    obtain ⟨vs, hvs, hsames, hstricts⟩ := items_strictTokens hs
    refine ⟨_, .more hus hvs, fun hb => by rw [hsame hb, hsames hb], fun ht more => ?_⟩
    have hstricts := hstricts ht more
    obtain ⟨first, ts, rfl, hfirst⟩ := hs.head
    simp only [List.append_assoc, List.cons_append] at hstricts ⊢
    rw [hstrict, strictTokens_comma hfirst, hstricts]

theorem members_strictTokens {b : Bool} : ∀ {members : List (List Char × Json)}
    {ts : List Token}, Members b members ts →
    ∃ us, Members false members us ∧ (b = false → us = ts) ∧
      ∀ {t}, t.isClosing = true → ∀ more,
        strictTokens (ts ++ t :: more) = us ++ t :: strictTokens more
  | _, _, .last hkey h => by
    obtain ⟨us, hus, hsame, hstrict⟩ := value_strictTokens h
    refine ⟨_, .last hkey hus, fun hb => by rw [hsame hb], fun ht more => ?_⟩
    simp [strictTokens, hstrict, strictTokens_closing ht]
  | _, _, .trailing hb hkey h => by
    obtain ⟨us, hus, -, hstrict⟩ := value_strictTokens h
    refine ⟨_, .last hkey hus, by simp [hb], fun {t} ht more => ?_⟩
    have hstrict := hstrict (.comma :: t :: more)
    rw [strictTokens_comma_closing ht] at hstrict
    simp [strictTokens, hstrict]
  | _, _, .more hkey h hs => by
    obtain ⟨us, hus, hsame, hstrict⟩ := value_strictTokens h
    obtain ⟨vs, hvs, hsames, hstricts⟩ := members_strictTokens hs
    refine ⟨_, .more hkey hus hvs, fun hb => by rw [hsame hb, hsames hb], fun {t} ht more => ?_⟩
    have hstricts := hstricts ht more
    obtain ⟨first, ts, rfl, hfirst⟩ := hs.head
    have hstrict := hstrict (.comma :: first :: (ts ++ t :: more))
    simp only [List.cons_append] at hstricts
    rw [strictTokens_comma hfirst, hstricts] at hstrict
    simp [strictTokens, hstrict]

end

/-- Both steps together make a decorated text a strict one. -/
theorem IsDecorated.plain {v : Json} {text : String} (h : IsDecorated v text.toList) :
    IsStrict v (plain text).toList := by
  obtain ⟨ts, hvalue, htext⟩ := h
  obtain ⟨us, hus, -, hstrict⟩ := value_strictTokens hvalue
  have hts : strictTokens ts = us := by simpa [strictTokens] using hstrict []
  have hplain := laid_withoutTrailingCommas (laid_withoutComments htext)
  refine ⟨us, hus, ?_⟩
  rw [Jsonc.plain, String.toList_ofList]
  exact hts ▸ hplain

theorem plain_of_isStrict {v : Json} {text : String} (h : IsStrict v text.toList) :
    plain text = text := by
  obtain ⟨ts, hvalue, htext⟩ := h
  obtain ⟨us, -, hsame, hstrict⟩ := value_strictTokens hvalue
  have hts : strictTokens ts = ts := by
    obtain rfl := hsame rfl
    simpa [strictTokens] using hstrict []
  rw [plain, withoutComments_of_laid htext, withoutTrailingCommas_of_laid htext hts,
    String.ofList_toList]

end Jsonc

/-- Config files may have comments and trailing commas: a strict text is left as it is, and
however it is decorated, the configuration in it or the fault in it stays the same. -/
theorem Config.parse_decorated {v : Json} {text : String} (h : Json.IsStrict v text.toList) :
    Jsonc.plain text = text ∧
      ∀ decorated : String, Jsonc.IsDecorated v decorated.toList →
        Config.parse decorated = Config.parse text := by
  have hplain := Jsonc.plain_of_isStrict h
  refine ⟨hplain, fun decorated hdecorated => ?_⟩
  have hread := hdecorated.plain.read
  simp only [Config.parse, Codec.read, hplain, h.read, hread]

/-- A list of files in which the name of one has a comment and a trailing comma. -/
def Config.oddName : Json :=
  .object [(['f', 'i', 'l', 'e', 's'], .array [.string ['/', '/', ',', ']']])]

def Config.oddNameText : String :=
  "\x7b\"files\":[\"//,]\"]\x7d"

def Config.decoratedOddNameText : String :=
  "\x7b\"files\" :[ // ]\n\"//,]\",/*,*/],\x7d//"

theorem Config.parse_decoratedOddNameText :
    Json.IsStrict oddName oddNameText.toList ∧
      Jsonc.plain oddNameText = oddNameText ∧
      Config.parse decoratedOddNameText = Config.parse oddNameText := by
  have hkey : Json.IsString ['f', 'i', 'l', 'e', 's'] := Json.isString_of_unescaped (by simp)
  have hitem : Json.IsString ['/', '/', ',', ']'] := Json.isString_of_unescaped (by simp)
  have hwhite : Json.IsWhite [] := List.forall_mem_nil _
  have hstrict : Json.IsStrict oddName oddNameText.toList := by
    refine ⟨_, .object (.last hkey (.array (.last (.string hitem)))), ?_⟩
    exact .token hwhite <| .token hwhite <| .token hwhite <| .token hwhite <| .token hwhite <|
      .token hwhite <| .token hwhite <| @Json.Laid.final .white _ hwhite
  have hnil : Jsonc.IsGap [] := .nil
  have hspace : Jsonc.IsGap [' '] := .space rfl .nil
  have hline : Jsonc.IsGap " // ]\n".toList := by
    have hline : Jsonc.IsGap "// ]\n".toList := by
      simpa using @Jsonc.IsGap.line [' ', ']'] [] (by decide) .nil
    simpa using Jsonc.IsGap.space (c := ' ') rfl hline
  have hblock : Jsonc.IsGap "/*,*/".toList := by
    simpa using @Jsonc.IsGap.block [','] [] (by decide) .nil
  have hend : Jsonc.IsFinalGap "//".toList := by
    simpa using @Jsonc.IsFinalGap.line [] [] .nil (by decide)
  have hdecorated : Jsonc.IsDecorated oddName decoratedOddNameText.toList := by
    refine ⟨_, .object (.trailing rfl hkey (.array (.trailing rfl (.string hitem)))), ?_⟩
    exact .token hnil <| .token hnil <| .token hspace <| .token hnil <| .token hline <|
      .token hnil <| .token hblock <| .token hnil <| .token hnil <|
      @Json.Laid.final Jsonc.gaps _ hend
  obtain ⟨hplain, hparse⟩ := Config.parse_decorated hstrict
  exact ⟨hstrict, hplain, hparse _ hdecorated⟩

end TypeAtlas
