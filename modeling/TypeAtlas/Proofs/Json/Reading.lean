import Mathlib.Data.List.TakeWhile
import TypeAtlas.Proofs.Json.Grammar
import TypeAtlas.Proofs.Sequences

/-! The reader gives every strict text the value it spells. A number is the longest one at the
front of a text, so its end shows only in what follows it. -/

namespace TypeAtlas

namespace Json

theorem scanDigits_append {s rest : List Char} (h : IsDigits s)
    (hrest : ∀ c ∈ rest.head?, c.isDigit = false) : scanDigits (s ++ rest) = some (s, rest) := by
  obtain ⟨hne, hdigits⟩ := h
  rw [scanDigits, takeWhile_append_eq hdigits hrest, dropWhile_append_eq hdigits hrest]
  cases s with
  | nil => exact absurd rfl hne
  | cons c s => rfl

theorem scanInteger_append {s rest : List Char} (h : IsInteger s)
    (hrest : ∀ c ∈ rest.head?, c.isDigit = false) : scanInteger (s ++ rest) = some (s, rest) := by
  cases h with
  | zero =>
    have h : scanDigits (['0'] ++ rest) = some (['0'], rest) :=
      scanDigits_append ⟨by simp, by simp⟩ hrest
    simp only [scanInteger, h]
    rfl
  | @positive first others hfirst hzero hothers =>
    have h : scanDigits (first :: others ++ rest) = some (first :: others, rest) :=
      scanDigits_append ⟨by simp, by simpa [hfirst] using hothers⟩ hrest
    rw [scanInteger, h]
    simp [hzero]

theorem scanFraction_append {s rest : List Char} (h : IsFraction s)
    (hrest : ∀ c ∈ rest.head?, c.isDigit = false ∧ c ≠ '.') :
    scanFraction (s ++ rest) = some (s, rest) := by
  cases h with
  | none =>
    cases rest with
    | nil => rfl
    | cons c rest =>
      have hc : c ≠ '.' := (hrest c rfl).2
      simp [scanFraction, hc]
  | point h =>
    have h := scanDigits_append h fun c hc => (hrest c hc).1
    simp [scanFraction, h]

def EndsNumber (rest : List Char) : Prop :=
  ∀ c ∈ rest.head?, c.isDigit = false ∧ c ≠ '.' ∧ c ≠ 'e' ∧ c ≠ 'E'

theorem scanExponent_append {s rest : List Char} (h : IsExponent s) (hrest : EndsNumber rest) :
    scanExponent (s ++ rest) = some (s, rest) := by
  have hdigit : ∀ c ∈ rest.head?, c.isDigit = false := fun c hc => (hrest c hc).1
  cases h with
  | none =>
    cases rest with
    | nil => rfl
    | cons c rest =>
      obtain ⟨-, -, he, hE⟩ := hrest c rfl
      simp [scanExponent, he, hE]
  | @unsigned mark digits hmark h =>
    have hscan := scanDigits_append h hdigit
    obtain ⟨hne, hdigits⟩ := h
    cases digits with
    | nil => exact absurd rfl hne
    | cons c digits =>
      have hsign : c ≠ '+' ∧ c ≠ '-' := by
        constructor <;> rintro rfl <;> exact absurd (hdigits _ List.mem_cons_self) (by decide)
      simp only [List.cons_append] at hscan
      simp [scanExponent, hmark, hsign, hscan]
  | signed hmark hsign h =>
    simp [scanExponent, hmark, hsign, scanDigits_append h hdigit]

theorem scanUnsigned_append {s rest : List Char} (h : IsUnsigned s) (hrest : EndsNumber rest) :
    scanUnsigned (s ++ rest) = some (s, rest) := by
  cases h with
  | @parts integer fraction exponent hi hf he =>
    have hexponent : ∀ c ∈ (exponent ++ rest).head?, c.isDigit = false ∧ c ≠ '.' := by
      cases he with
      | none => exact fun c hc => ⟨(hrest c hc).1, (hrest c hc).2.1⟩
      | unsigned hmark h => rcases hmark with rfl | rfl <;> simp
      | signed hmark hsign h => rcases hmark with rfl | rfl <;> simp
    have hfraction : ∀ c ∈ (fraction ++ (exponent ++ rest)).head?, c.isDigit = false := by
      cases hf with
      | none => exact fun c hc => (hexponent c hc).1
      | point h => simp
    have hinteger := scanInteger_append hi hfraction
    simp only [List.append_assoc]
    simp [scanUnsigned, hinteger, scanFraction_append hf hexponent, scanExponent_append he hrest]

theorem scanNumber_append {s rest : List Char} (h : IsNumber s) (hrest : EndsNumber rest) :
    scanNumber (s ++ rest) = some (s, rest) := by
  cases h with
  | unsigned h =>
    have hscan := scanUnsigned_append h hrest
    obtain ⟨c, s, rfl, hc⟩ := h.head
    have hsign : c ≠ '-' := by rintro rfl; exact absurd hc (by decide)
    simpa [scanNumber, hsign] using hscan
  | negative h => simp [scanNumber, scanUnsigned_append h hrest]

theorem hexValue_of_isHex {c : Char} (h : IsHex c) : ∃ n, hexValue c = some n := by
  unfold hexValue
  by_cases hdigit : c.isDigit = true
  · exact ⟨_, if_pos hdigit⟩
  rw [if_neg hdigit]
  by_cases hsmall : 'a' ≤ c ∧ c ≤ 'f'
  · exact ⟨_, if_pos hsmall⟩
  rw [if_neg hsmall]
  exact ⟨_, if_pos ((h.resolve_left hdigit).resolve_left hsmall)⟩

theorem hexWord_of_isHex {a b c d : Char} (ha : IsHex a) (hb : IsHex b) (hc : IsHex c)
    (hd : IsHex d) : ∃ n, hexWord a b c d = some n := by
  obtain ⟨m, hm⟩ := hexValue_of_isHex ha
  obtain ⟨n, hn⟩ := hexValue_of_isHex hb
  obtain ⟨p, hp⟩ := hexValue_of_isHex hc
  obtain ⟨q, hq⟩ := hexValue_of_isHex hd
  exact ⟨_, by simp [hexWord, hm, hn, hp, hq]; rfl⟩

theorem scanString_append {s rest : List Char} (h : IsString s) :
    scanString (s ++ '"' :: rest) = some (s, rest) := by
  induction h with
  | nil => simp [scanString]
  | char hcontrol hquote hbackslash h ih =>
    have hcontrol := Nat.not_lt.2 hcontrol
    simp [scanString, hbackslash, hcontrol, ih]
  | @short letter s hletter h ih =>
    have hu : letter ≠ 'u' := by rintro rfl; exact absurd hletter (by decide)
    have hshort : ∃ c, unescapeShort letter = some c := by
      simp only [List.mem_cons, List.not_mem_nil, or_false] at hletter
      rcases hletter with rfl | rfl | rfl | rfl | rfl | rfl | rfl | rfl <;> exact ⟨_, rfl⟩
    obtain ⟨c, hc⟩ := hshort
    simp [scanString, hu, hc, ih]
  | code ha hb hc hd h ih =>
    obtain ⟨n, hn⟩ := hexWord_of_isHex ha hb hc hd
    simp [scanString, hn, ih]

theorem Laid.skipSpace {t : Token} {ts : List Token} {s : List Char}
    (h : Laid .white (t :: ts) s) :
    ∃ rest, Json.skipSpace s = t.text ++ rest ∧ Laid .white ts rest := by
  cases h with
  | @token _ _ g rest hg h =>
    refine ⟨rest, dropWhile_append_eq hg ?_, h⟩
    obtain ⟨c, text, htext, hblank, -⟩ := t.text_eq_cons
    have hspace : isSpace c = false :=
      Bool.eq_false_iff.2 fun h => absurd (isBlank_of_isSpace h) (by simp [hblank])
    simp [htext, hspace]

/-- Behind a value stands the end of the text or a token that no value begins with. -/
def EndsValue (ts : List Token) : Prop :=
  ∀ t ∈ ts.head?, t = .comma ∨ t.isClosing = true

theorem EndsValue.isWord_head {ts : List Token} (h : EndsValue ts) :
    ∀ t ∈ ts.head?, t.isWord = false := by
  intro t ht
  rcases h t ht with rfl | hclosing
  · rfl
  · cases t <;> simp_all [Token.isClosing, Token.isWord]

theorem endsNumber_of_isSpace {c : Char} {rest : List Char} (h : isSpace c = true) :
    EndsNumber (c :: rest) := by
  simp only [isSpace, Bool.or_eq_true, decide_eq_true_eq] at h
  rcases h with ((rfl | rfl) | rfl) | rfl <;> simp [EndsNumber]

theorem Laid.endsNumber {ts : List Token} {s : List Char} (h : Laid .white ts s)
    (hts : ∀ t ∈ ts.head?, t.isWord = false) : EndsNumber s := by
  cases h with
  | final hg =>
    cases s with
    | nil => simp [EndsNumber]
    | cons c s => exact endsNumber_of_isSpace (hg c List.mem_cons_self)
  | @token t ts g rest hg h =>
    cases g with
    | nil =>
      cases t with
      | null | bool | number => exact absurd (hts _ rfl) (by simp [Token.isWord])
      | _ => simp [EndsNumber, Token.text]
    | cons c g => exact endsNumber_of_isSpace (hg c List.mem_cons_self)

theorem readValue_number {s text rest : List Char} {fuel : Nat} (h : IsNumber text)
    (hs : skipSpace s = text ++ rest) (hrest : EndsNumber rest) :
    readValue (fuel + 1) s = (.number text, some rest) := by
  have hscan := scanNumber_append h hrest
  obtain ⟨c, text, rfl, hc⟩ := h.head
  simp only [List.cons_append] at hs hscan
  simp only [readValue, hs]
  split <;> simp_all

theorem readValue_array {t : Token} {s rest after : List Char} {fuel : Nat}
    (ht : t.isClosing = false) (hs : skipSpace s = '[' :: rest)
    (hrest : skipSpace rest = t.text ++ after) :
    readValue (fuel + 1) s =
      (.array (readItems fuel (t.text ++ after)).1, (readItems fuel (t.text ++ after)).2) := by
  obtain ⟨c, text, htext, -, hclosing⟩ := t.text_eq_cons
  have hc : c ≠ ']' := by
    rintro rfl
    simp [ht] at hclosing
  simp only [htext, List.cons_append] at hrest ⊢
  simp [readValue, hs, hrest, hc]

theorem readValue_object {t : Token} {s rest after : List Char} {fuel : Nat}
    (ht : t.isClosing = false) (hs : skipSpace s = '{' :: rest)
    (hrest : skipSpace rest = t.text ++ after) :
    readValue (fuel + 1) s =
      (.object (readMembers fuel (t.text ++ after)).1, (readMembers fuel (t.text ++ after)).2) := by
  obtain ⟨c, text, htext, -, hclosing⟩ := t.text_eq_cons
  have hc : c ≠ '}' := by
    rintro rfl
    simp [ht] at hclosing
  simp only [htext, List.cons_append] at hrest ⊢
  simp [readValue, hs, hrest, hc]

mutual

/-- The number of its tokens is fuel enough for a value: a value and what stands behind a comma
cost one unit and have a token of their own. -/
theorem Value.readValue : ∀ {v : Json} {ts more : List Token} {s : List Char} {fuel : Nat},
    Value false v ts → ts.length ≤ fuel + 1 → EndsValue more → Laid .white (ts ++ more) s →
    ∃ rest, Json.readValue (fuel + 1) s = (v, some rest) ∧ Laid .white more rest
  | _, _, _, _, _, .null, _, _, hs => by
    obtain ⟨rest, hskip, hrest⟩ := hs.skipSpace
    exact ⟨rest, by simp [Json.readValue, hskip, Token.text], hrest⟩
  | _, _, _, _, _, .bool b, _, _, hs => by
    obtain ⟨rest, hskip, hrest⟩ := hs.skipSpace
    exact ⟨rest, by cases b <;> simp [Json.readValue, hskip, Token.text], hrest⟩
  | _, _, _, _, _, .number h, _, hmore, hs => by
    obtain ⟨rest, hskip, hrest⟩ := hs.skipSpace
    exact ⟨rest, readValue_number h hskip (hrest.endsNumber hmore.isWord_head), hrest⟩
  | _, _, _, _, _, .string h, _, _, hs => by
    obtain ⟨rest, hskip, hrest⟩ := hs.skipSpace
    exact ⟨rest, by simp [Json.readValue, hskip, Token.text, scanString_append h], hrest⟩
  | _, _, _, _, _, .emptyArray, _, _, hs => by
    obtain ⟨rest, hskip, hs⟩ := hs.skipSpace
    obtain ⟨rest, hclose, hrest⟩ := hs.skipSpace
    exact ⟨rest, by simp [Json.readValue, hskip, hclose, Token.text], hrest⟩
  | _, _, more, _, fuel, @Value.array _ _ ts h, hfuel, _, hs => by
    have hfuel : ts.length + 1 ≤ fuel := by simpa using hfuel
    obtain ⟨fuel, rfl⟩ : ∃ n, fuel = n + 1 := Nat.exists_eq_add_one.2 (Nat.zero_lt_of_lt hfuel)
    obtain ⟨rest, hskip, hs⟩ := hs.skipSpace
    obtain ⟨t, us, rfl, ht⟩ := h.head
    obtain ⟨after, hfirst, hs⟩ := hs.skipSpace
    have hitems : Laid .white (t :: us ++ .closeArray :: more) (t.text ++ after) :=
      .token (g := []) (by simp [Gaps.white, IsWhite]) (by simpa using hs)
    obtain ⟨rest, hread, hrest⟩ := h.readItems (Nat.le_of_succ_le_succ hfuel) hitems
    exact ⟨rest, by rw [readValue_array ht hskip hfirst, hread], hrest⟩
  | _, _, _, _, _, .emptyObject, _, _, hs => by
    obtain ⟨rest, hskip, hs⟩ := hs.skipSpace
    obtain ⟨rest, hclose, hrest⟩ := hs.skipSpace
    exact ⟨rest, by simp [Json.readValue, hskip, hclose, Token.text], hrest⟩
  | _, _, more, _, fuel, @Value.object _ _ ts h, hfuel, _, hs => by
    have hfuel : ts.length + 1 ≤ fuel := by simpa using hfuel
    obtain ⟨fuel, rfl⟩ : ∃ n, fuel = n + 1 := Nat.exists_eq_add_one.2 (Nat.zero_lt_of_lt hfuel)
    obtain ⟨rest, hskip, hs⟩ := hs.skipSpace
    obtain ⟨t, us, rfl, ht⟩ := h.head
    obtain ⟨after, hfirst, hs⟩ := hs.skipSpace
    have hmembers : Laid .white (t :: us ++ .closeObject :: more) (t.text ++ after) :=
      .token (g := []) (by simp [Gaps.white, IsWhite]) (by simpa using hs)
    obtain ⟨rest, hread, hrest⟩ := h.readMembers (Nat.le_of_succ_le_succ hfuel) hmembers
    exact ⟨rest, by rw [readValue_object ht hskip hfirst, hread], hrest⟩

theorem Items.readItems : ∀ {items : List Json} {ts more : List Token} {s : List Char}
    {fuel : Nat}, Items false items ts → ts.length ≤ fuel →
    Laid .white (ts ++ .closeArray :: more) s →
    ∃ rest, Json.readItems (fuel + 1) s = (items, some rest) ∧ Laid .white more rest
  | _, _, _, _, fuel, .last h, hfuel, hs => by
    obtain ⟨fuel, rfl⟩ : ∃ n, fuel = n + 1 := 
      Nat.exists_eq_add_one.2 (Nat.lt_of_lt_of_le h.length_pos hfuel)
    obtain ⟨rest, hread, hs⟩ := h.readValue hfuel (by simp [EndsValue, Token.isClosing]) hs
    obtain ⟨rest, hclose, hrest⟩ := hs.skipSpace
    exact ⟨rest, by simp [Json.readItems, hread, hclose, Token.text], hrest⟩
  | _, _, _, _, fuel, @Items.more _ _ _ ts us h hitems, hfuel, hs => by
    have hfuel : ts.length + us.length + 1 ≤ fuel := by simpa [Nat.add_assoc] using hfuel
    obtain ⟨fuel, rfl⟩ : ∃ n, fuel = n + 1 := Nat.exists_eq_add_one.2 (Nat.zero_lt_of_lt hfuel)
    simp only [List.append_assoc, List.cons_append] at hs
    have hvalue : ts.length ≤ fuel + 1 := by omega
    obtain ⟨rest, hread, hs⟩ := h.readValue hvalue (by simp [EndsValue]) hs
    obtain ⟨rest, hcomma, hs⟩ := hs.skipSpace
    have hothers : us.length ≤ fuel := by omega
    obtain ⟨rest, hothers, hrest⟩ := hitems.readItems hothers hs
    rw [Json.readItems]
    exact ⟨rest, by simp [hread, hcomma, hothers, Token.text], hrest⟩

theorem Members.readMembers : ∀ {members : List (List Char × Json)} {ts more : List Token}
    {s : List Char} {fuel : Nat}, Members false members ts → ts.length ≤ fuel →
    Laid .white (ts ++ .closeObject :: more) s →
    ∃ rest, Json.readMembers (fuel + 1) s = (members, some rest) ∧ Laid .white more rest
  | _, _, _, _, fuel, @Members.last _ _ _ ts hkey h, hfuel, hs => by
    have hfuel : ts.length + 2 ≤ fuel := hfuel
    obtain ⟨fuel, rfl⟩ : ∃ n, fuel = n + 1 := Nat.exists_eq_add_one.2 (Nat.zero_lt_of_lt hfuel)
    obtain ⟨rest, hname, hs⟩ := hs.skipSpace
    obtain ⟨after, hcolon, hs⟩ := hs.skipSpace
    have hvalue : ts.length ≤ fuel + 1 := by omega
    obtain ⟨rest, hread, hs⟩ := h.readValue hvalue (by simp [EndsValue, Token.isClosing]) hs
    obtain ⟨rest, hclose, hrest⟩ := hs.skipSpace
    rw [Json.readMembers]
    exact ⟨rest, by simp [hname, hcolon, hread, hclose, Token.text, scanString_append hkey], hrest⟩
  | _, _, _, _, fuel, @Members.more _ _ _ _ ts us hkey h hmembers, hfuel, hs => by
    have hfuel : ts.length + us.length + 3 ≤ fuel := by simpa [Nat.add_assoc] using hfuel
    obtain ⟨fuel, rfl⟩ : ∃ n, fuel = n + 1 := Nat.exists_eq_add_one.2 (Nat.zero_lt_of_lt hfuel)
    simp only [List.append_assoc, List.cons_append] at hs
    obtain ⟨rest, hname, hs⟩ := hs.skipSpace
    obtain ⟨after, hcolon, hs⟩ := hs.skipSpace
    have hvalue : ts.length ≤ fuel + 1 := by omega
    obtain ⟨rest, hread, hs⟩ := h.readValue hvalue (by simp [EndsValue]) hs
    obtain ⟨rest, hcomma, hs⟩ := hs.skipSpace
    have hothers : us.length ≤ fuel := by omega
    obtain ⟨rest, hothers, hrest⟩ := hmembers.readMembers hothers hs
    rw [Json.readMembers]
    exact ⟨rest, by simp [hname, hcolon, hread, hcomma, hothers, Token.text,
      scanString_append hkey], hrest⟩

end

theorem Laid.length_le {ts : List Token} {s : List Char} (h : Laid .white ts s) :
    ts.length ≤ s.length := by
  induction h with
  | final hg => simp
  | @token t ts g s hg h ih =>
    obtain ⟨c, text, htext, -, -⟩ := t.text_eq_cons
    simp only [htext, List.length_cons, List.length_append]
    omega

theorem IsStrict.read {v : Json} {s : List Char} (h : IsStrict v s) : Json.read s = (v, true) := by
  obtain ⟨ts, hvalue, hs⟩ := h
  have hfuel : ts.length ≤ 2 * s.length + 1 + 1 := by
    have := hs.length_le
    omega
  have hs : Laid .white (ts ++ []) s := by simpa using hs
  obtain ⟨rest, hread, hrest⟩ := hvalue.readValue hfuel (by simp [EndsValue]) hs
  have hempty : Json.skipSpace rest = [] := by
    cases hrest with
    | final hg => exact List.dropWhile_eq_nil_iff.2 hg
  simp [Json.read, hread, hempty]

end Json

end TypeAtlas
