import TypeAtlas.Json.Reader
import TypeAtlas.Text.Blank

/-! The grammar of JSON text, told without a reader: how numbers and strings are spelled, which
tokens a value is made of, and how tokens are laid out in a text. Two things about it are
parameters, whether a comma may follow a last item and what may stand between tokens. A value
keeps the spelling of its numbers and strings, so texts of one value have the same tokens up to
trailing commas. -/

namespace TypeAtlas

namespace Json

def IsDigits (s : List Char) : Prop :=
  s ≠ [] ∧ ∀ c ∈ s, c.isDigit = true

inductive IsInteger : List Char → Prop
  | zero : IsInteger ['0']
  | positive {first : Char} {others : List Char} (hfirst : first.isDigit = true)
      (hzero : first ≠ '0') (hothers : ∀ c ∈ others, c.isDigit = true) :
      IsInteger (first :: others)

inductive IsFraction : List Char → Prop
  | none : IsFraction []
  | point {digits : List Char} (h : IsDigits digits) : IsFraction ('.' :: digits)

inductive IsExponent : List Char → Prop
  | none : IsExponent []
  | unsigned {mark : Char} {digits : List Char} (hmark : mark = 'e' ∨ mark = 'E')
      (h : IsDigits digits) : IsExponent (mark :: digits)
  | signed {mark sign : Char} {digits : List Char} (hmark : mark = 'e' ∨ mark = 'E')
      (hsign : sign = '+' ∨ sign = '-') (h : IsDigits digits) :
      IsExponent (mark :: sign :: digits)

inductive IsUnsigned : List Char → Prop
  | parts {integer fraction exponent : List Char} (hi : IsInteger integer)
      (hf : IsFraction fraction) (he : IsExponent exponent) :
      IsUnsigned (integer ++ fraction ++ exponent)

inductive IsNumber : List Char → Prop
  | unsigned {s : List Char} (h : IsUnsigned s) : IsNumber s
  | negative {s : List Char} (h : IsUnsigned s) : IsNumber ('-' :: s)

theorem IsUnsigned.head {s : List Char} (h : IsUnsigned s) :
    ∃ c rest, s = c :: rest ∧ c.isDigit = true := by
  cases h with
  | parts hi hf he =>
    cases hi with
    | zero => exact ⟨_, _, rfl, rfl⟩
    | positive hfirst hzero hothers => exact ⟨_, _, rfl, hfirst⟩

theorem IsNumber.head {s : List Char} (h : IsNumber s) :
    ∃ c rest, s = c :: rest ∧ (c.isDigit = true ∨ c = '-') := by
  cases h with
  | unsigned h =>
    obtain ⟨c, rest, rfl, hc⟩ := h.head
    exact ⟨c, rest, rfl, .inl hc⟩
  | negative h => exact ⟨_, _, rfl, .inr rfl⟩

def IsNumeral (c : Char) : Prop :=
  c.isDigit = true ∨ c ∈ ['-', '+', '.', 'e', 'E']

theorem IsUnsigned.isNumeral {s : List Char} (h : IsUnsigned s) : ∀ c ∈ s, IsNumeral c := by
  cases h with
  | @parts integer fraction exponent hi hf he =>
    have hinteger : ∀ c ∈ integer, IsNumeral c := by
      cases hi with
      | zero => simp [IsNumeral]
      | positive hfirst hzero hothers =>
        simpa [IsNumeral, hfirst] using fun c hc => .inl (hothers c hc)
    have hfraction : ∀ c ∈ fraction, IsNumeral c := by
      cases hf with
      | none => simp
      | point h => simpa [IsNumeral] using fun c hc => .inl (h.2 c hc)
    have hexponent : ∀ c ∈ exponent, IsNumeral c := by
      cases he with
      | none => simp
      | unsigned hmark h =>
        rcases hmark with rfl | rfl <;> simpa [IsNumeral] using fun c hc => .inl (h.2 c hc)
      | signed hmark hsign h =>
        rcases hmark with rfl | rfl <;> rcases hsign with rfl | rfl <;>
          simpa [IsNumeral] using fun c hc => .inl (h.2 c hc)
    intro c hc
    rcases List.mem_append.1 hc with hc | hc
    · rcases List.mem_append.1 hc with hc | hc
      · exact hinteger c hc
      · exact hfraction c hc
    · exact hexponent c hc

theorem IsNumber.isNumeral {s : List Char} (h : IsNumber s) : ∀ c ∈ s, IsNumeral c := by
  cases h with
  | unsigned h => exact h.isNumeral
  | negative h => exact List.forall_mem_cons.2 ⟨.inr (by decide), h.isNumeral⟩

def IsHex (c : Char) : Prop :=
  c.isDigit = true ∨ ('a' ≤ c ∧ c ≤ 'f') ∨ ('A' ≤ c ∧ c ≤ 'F')

/-- The characters between the quotes of a string. -/
inductive IsString : List Char → Prop
  | nil : IsString []
  | char {c : Char} {s : List Char} (hcontrol : 0x20 ≤ c.toNat) (hquote : c ≠ '"')
      (hbackslash : c ≠ '\\') (h : IsString s) : IsString (c :: s)
  | short {letter : Char} {s : List Char}
      (hletter : letter ∈ ['"', '\\', '/', 'b', 'f', 'n', 'r', 't']) (h : IsString s) :
      IsString ('\\' :: letter :: s)
  | code {a b c d : Char} {s : List Char} (ha : IsHex a) (hb : IsHex b) (hc : IsHex c)
      (hd : IsHex d) (h : IsString s) : IsString ('\\' :: 'u' :: a :: b :: c :: d :: s)

theorem isString_of_unescaped {s : List Char}
    (h : ∀ c ∈ s, 0x20 ≤ c.toNat ∧ c ≠ '"' ∧ c ≠ '\\') : IsString s := by
  induction s with
  | nil => exact .nil
  | cons c s ih =>
    obtain ⟨hcontrol, hquote, hbackslash⟩ := h c List.mem_cons_self
    exact .char hcontrol hquote hbackslash (ih fun c hc => h c (List.mem_cons_of_mem _ hc))

inductive Token where
  | openArray
  | closeArray
  | openObject
  | closeObject
  | colon
  | comma
  | null
  | bool (value : Bool)
  | number (spelling : List Char) (h : IsNumber spelling)
  | string (spelling : List Char) (h : IsString spelling)

namespace Token

def text : Token → List Char
  | openArray => ['[']
  | closeArray => [']']
  | openObject => ['{']
  | closeObject => ['}']
  | colon => [':']
  | comma => [',']
  | null => ['n', 'u', 'l', 'l']
  | bool true => ['t', 'r', 'u', 'e']
  | bool false => ['f', 'a', 'l', 's', 'e']
  | number spelling _ => spelling
  | string spelling _ => '"' :: (spelling ++ ['"'])

def isClosing : Token → Bool
  | closeArray => true
  | closeObject => true
  | _ => false

/-- A token of letters, digits and signs, which another one behind it could continue. -/
def isWord : Token → Bool
  | null => true
  | bool _ => true
  | number _ _ => true
  | _ => false

end Token

theorem isBlank_of_isSpace {c : Char} (h : isSpace c = true) : Text.isBlank c = true := by
  simp only [isSpace, Bool.or_eq_true, decide_eq_true_eq] at h
  rcases h with ((rfl | rfl) | rfl) | rfl <;> decide

theorem not_isBlank_of_isDigit {c : Char} (h : c.isDigit = true) : Text.isBlank c = false := by
  obtain ⟨hlow, hhigh⟩ := Char.isDigit_iff_toNat.1 h
  have hlow : 48 ≤ c.toNat := hlow
  have hhigh : c.toNat ≤ 57 := hhigh
  simp [Text.isBlank]
  omega

theorem Token.text_eq_cons (t : Token) : ∃ c rest, t.text = c :: rest ∧ Text.isBlank c = false ∧
    (t.isClosing = true ↔ c = ']' ∨ c = '}') := by
  cases t with
  | bool b => cases b <;> exact ⟨_, _, rfl, by decide, by decide⟩
  | number s h =>
    obtain ⟨c, rest, hs, hc⟩ := h.head
    have hblank : Text.isBlank c = false := by
      rcases hc with hc | rfl
      · exact not_isBlank_of_isDigit hc
      · decide
    have hclosing : c ≠ ']' ∧ c ≠ '}' := by
      constructor <;> rintro rfl <;> exact absurd hc (by decide)
    exact ⟨c, rest, hs, hblank, by simp [isClosing, hclosing]⟩
  | string s h => exact ⟨_, _, rfl, by decide, by simp [isClosing]⟩
  | _ => exact ⟨_, _, rfl, by decide, by decide⟩

mutual

/-- The tokens of a value. `trailing` says whether a comma may follow the last item of an array
and the last member of an object. -/
inductive Value (trailing : Bool) : Json → List Token → Prop
  | null : Value trailing .null [.null]
  | bool (b : Bool) : Value trailing (.bool b) [.bool b]
  | number {s : List Char} (h : IsNumber s) : Value trailing (.number s) [.number s h]
  | string {s : List Char} (h : IsString s) : Value trailing (.string s) [.string s h]
  | emptyArray : Value trailing (.array []) [.openArray, .closeArray]
  | array {items : List Json} {ts : List Token} (h : Items trailing items ts) :
      Value trailing (.array items) (.openArray :: (ts ++ [.closeArray]))
  | emptyObject : Value trailing (.object []) [.openObject, .closeObject]
  | object {members : List (List Char × Json)} {ts : List Token}
      (h : Members trailing members ts) :
      Value trailing (.object members) (.openObject :: (ts ++ [.closeObject]))

inductive Items (trailing : Bool) : List Json → List Token → Prop
  | last {v : Json} {ts : List Token} (h : Value trailing v ts) : Items trailing [v] ts
  | trailing {v : Json} {ts : List Token} (ht : trailing = true) (h : Value trailing v ts) :
      Items trailing [v] (ts ++ [.comma])
  | more {v : Json} {items : List Json} {ts us : List Token} (h : Value trailing v ts)
      (hs : Items trailing items us) : Items trailing (v :: items) (ts ++ .comma :: us)

inductive Members (trailing : Bool) : List (List Char × Json) → List Token → Prop
  | last {key : List Char} {v : Json} {ts : List Token} (hkey : IsString key)
      (h : Value trailing v ts) : Members trailing [(key, v)] (.string key hkey :: .colon :: ts)
  | trailing {key : List Char} {v : Json} {ts : List Token} (ht : trailing = true)
      (hkey : IsString key) (h : Value trailing v ts) :
      Members trailing [(key, v)] (.string key hkey :: .colon :: (ts ++ [.comma]))
  | more {key : List Char} {v : Json} {members : List (List Char × Json)} {ts us : List Token}
      (hkey : IsString key) (h : Value trailing v ts) (hs : Members trailing members us) :
      Members trailing ((key, v) :: members)
        (.string key hkey :: .colon :: (ts ++ .comma :: us))

end

theorem Value.head {b : Bool} {v : Json} {ts : List Token} (h : Value b v ts) :
    ∃ t us, ts = t :: us ∧ t.isClosing = false := by
  cases h <;> exact ⟨_, _, rfl, rfl⟩

theorem Value.length_pos {b : Bool} {v : Json} {ts : List Token} (h : Value b v ts) :
    0 < ts.length := by
  obtain ⟨t, us, rfl, -⟩ := h.head
  exact Nat.succ_pos _

theorem Items.head {b : Bool} {items : List Json} {ts : List Token} (h : Items b items ts) :
    ∃ t us, ts = t :: us ∧ t.isClosing = false := by
  cases h with
  | last h => exact h.head
  | trailing ht h =>
    obtain ⟨t, us, rfl, ht⟩ := h.head
    exact ⟨t, us ++ [.comma], rfl, ht⟩
  | more h hs =>
    obtain ⟨t, us, rfl, ht⟩ := h.head
    exact ⟨t, _, rfl, ht⟩

theorem Members.head {b : Bool} {members : List (List Char × Json)} {ts : List Token}
    (h : Members b members ts) : ∃ t us, ts = t :: us ∧ t.isClosing = false := by
  cases h <;> exact ⟨_, _, rfl, rfl⟩

/-- What may stand in front of a token, and what may stand behind the last one. -/
structure Gaps where
  before : List Char → Prop
  final : List Char → Prop

/-- Tokens in a text, with a gap in front of each and one at the end. -/
inductive Laid (gaps : Gaps) : List Token → List Char → Prop
  | final {g : List Char} (hg : gaps.final g) : Laid gaps [] g
  | token {t : Token} {ts : List Token} {g s : List Char} (hg : gaps.before g)
      (h : Laid gaps ts s) : Laid gaps (t :: ts) (g ++ (t.text ++ s))

def IsWhite (s : List Char) : Prop :=
  ∀ c ∈ s, isSpace c = true

def Gaps.white : Gaps where
  before := IsWhite
  final := IsWhite

theorem Laid.append {ts : List Token} {g s : List Char} (h : Laid .white ts s) (hg : IsWhite g) :
    Laid .white ts (g ++ s) := by
  have join {g' : List Char} (hg' : IsWhite g') : IsWhite (g ++ g') := fun c hc =>
    (List.mem_append.1 hc).elim (hg c) (hg' c)
  cases h with
  | final hg' => exact .final (join hg')
  | token hg' h =>
    rw [← List.append_assoc]
    exact .token (join hg') h

/-- A text of JSON without anything that JSON does not have, and the value it spells. -/
def IsStrict (v : Json) (s : List Char) : Prop :=
  ∃ ts, Value false v ts ∧ Laid .white ts s

end Json

end TypeAtlas
