import TypeAtlas.Proofs.Json.Accepting
import Mathlib.Data.List.Chain

/-! Which tokens a text is made of. Tokens can be told apart by their first characters, and as long
as no two words stand side by side, there is only one way to take a text apart. -/

namespace TypeAtlas

namespace Json

namespace Token

def isOpening : Token → Bool
  | openArray => true
  | openObject => true
  | _ => false

/-- Two tokens can stand side by side unless both are words, or the first is an opening bracket and
the second a comma. -/
def CanPrecede (t u : Token) : Prop :=
  ¬ (t.isWord = true ∧ u.isWord = true) ∧ ¬ (t.isOpening = true ∧ u = comma)

deriving instance DecidableEq for Token

def fixed : List Token :=
  [openArray, closeArray, openObject, closeObject, colon, comma, null, bool true, bool false]

theorem fixed_or (t : Token) :
    t ∈ fixed ∨ (∃ s h, t = number s h) ∨ ∃ s h, t = string s h := by
  cases t with
  | number s h => exact .inr (.inl ⟨s, h, rfl⟩)
  | string s h => exact .inr (.inr ⟨s, h, rfl⟩)
  | bool b => cases b <;> simp [fixed]
  | _ => simp [fixed]

theorem eq_of_head_fixed : ∀ t ∈ fixed, ∀ u ∈ fixed, t.text.head? = u.text.head? → t = u := by
  decide

theorem head_of_fixed :
    ∀ t ∈ fixed, ∀ c ∈ t.text.head?, c.isDigit = false ∧ c ≠ '-' ∧ c ≠ '"' := by
  simp [fixed, text]

theorem number_of_head {t : Token} {c : Char} {rest : List Char} (h : t.text = c :: rest)
    (hc : c.isDigit = true ∨ c = '-') : ∃ s hs, t = number s hs := by
  rcases t.fixed_or with hfixed | hnumber | ⟨s, hs, rfl⟩
  · obtain ⟨hdigit, hsign, -⟩ := head_of_fixed t hfixed c (by rw [h]; rfl)
    rcases hc with hc | hc
    · rw [hc] at hdigit
      cases hdigit
    · exact absurd hc hsign
  · exact hnumber
  · obtain ⟨rfl, -⟩ := List.cons.inj h
    exact absurd hc (by decide)

theorem string_of_head {t : Token} {rest : List Char} (h : t.text = '"' :: rest) :
    ∃ s hs, t = string s hs := by
  rcases t.fixed_or with hfixed | ⟨s, hs, rfl⟩ | hstring
  · obtain ⟨-, -, hquote⟩ := head_of_fixed t hfixed '"' (by rw [h]; rfl)
    exact absurd rfl hquote
  · obtain ⟨c, text, hs', hc⟩ := hs.head
    obtain ⟨rfl, -⟩ := List.cons.inj (hs'.symm.trans h)
    exact absurd hc (by decide)
  · exact hstring

theorem eq_of_head {t u : Token} {c : Char} {s s' : List Char} (ht : t ∈ fixed)
    (h : t.text = c :: s) (h' : u.text = c :: s') : t = u := by
  obtain ⟨hdigit, hsign, hquote⟩ := head_of_fixed t ht c (by rw [h]; rfl)
  rcases u.fixed_or with hu | ⟨spelling, hspelling, rfl⟩ | ⟨spelling, hspelling, rfl⟩
  · exact eq_of_head_fixed t ht u hu (by rw [h, h']; rfl)
  · obtain ⟨d, text, hd, hnumber⟩ := hspelling.head
    obtain ⟨rfl, -⟩ := List.cons.inj (hd.symm.trans h')
    rcases hnumber with hnumber | hnumber
    · rw [hnumber] at hdigit
      cases hdigit
    · exact absurd hnumber hsign
  · exact absurd (List.cons.inj h').1.symm hquote

theorem fixed_append_inj {t u : Token} {rest rest' : List Char} (ht : t ∈ fixed)
    (h : t.text ++ rest = u.text ++ rest') : t = u ∧ rest = rest' := by
  obtain ⟨c, s, hc, -⟩ := t.text_eq_cons
  obtain ⟨d, s', hd, -⟩ := u.text_eq_cons
  have hhead : c = d := by
    rw [hc, hd] at h
    exact (List.cons.inj h).1
  obtain rfl := eq_of_head ht hc (hhead ▸ hd)
  exact ⟨rfl, List.append_cancel_left h⟩

theorem number_append_inj {u : Token} {s rest rest' : List Char} (hs : IsNumber s)
    (h : s ++ rest = u.text ++ rest') (hrest : EndsNumber rest)
    (hu : u.isWord = true → EndsNumber rest') : number s hs = u ∧ rest = rest' := by
  obtain ⟨c, text, hcons, hc⟩ := hs.head
  obtain ⟨d, text', hcons', -⟩ := u.text_eq_cons
  have hhead : c = d := by
    rw [hcons, hcons'] at h
    exact (List.cons.inj h).1
  obtain ⟨s', hs', rfl⟩ := number_of_head hcons' (hhead ▸ hc)
  have hscan := scanNumber_append hs hrest
  rw [show s ++ rest = s' ++ rest' from h, scanNumber_append hs' (hu rfl)] at hscan
  obtain ⟨rfl, rfl⟩ := Prod.mk.inj (Option.some.inj hscan)
  exact ⟨rfl, rfl⟩

theorem string_append_inj {u : Token} {s rest rest' : List Char} (hs : IsString s)
    (h : '"' :: (s ++ '"' :: rest) = u.text ++ rest') : string s hs = u ∧ rest = rest' := by
  obtain ⟨d, text', hcons, -⟩ := u.text_eq_cons
  have hhead : '"' = d := by
    rw [hcons] at h
    exact (List.cons.inj h).1
  obtain ⟨s', hs', rfl⟩ := string_of_head (hhead ▸ hcons)
  have hquoted : s ++ '"' :: rest = s' ++ '"' :: rest' := by simpa [Token.text] using h
  have hscan := congrArg scanString hquoted
  rw [scanString_append hs, scanString_append hs'] at hscan
  obtain ⟨rfl, rfl⟩ := Prod.mk.inj (Option.some.inj hscan)
  exact ⟨rfl, rfl⟩

theorem sign_append_inj {t u : Token} {rest rest' : List Char} (ht : t.isWord = false)
    (h : t.text ++ rest = u.text ++ rest') : t = u ∧ rest = rest' := by
  rcases t.fixed_or with hfixed | ⟨s, hs, rfl⟩ | ⟨s, hs, rfl⟩
  · exact fixed_append_inj hfixed h
  · cases ht
  · exact string_append_inj hs (by simpa [Token.text] using h)

/-- The token at the front of a text is determined if no word is cut short. -/
theorem text_append_inj {t u : Token} {rest rest' : List Char}
    (h : t.text ++ rest = u.text ++ rest') (ht : t.isWord = true → EndsNumber rest)
    (hu : u.isWord = true → EndsNumber rest') : t = u ∧ rest = rest' := by
  cases hword : t.isWord with
  | false => exact sign_append_inj hword h
  | true =>
    rcases t.fixed_or with hfixed | ⟨s, hs, rfl⟩ | ⟨s, hs, rfl⟩
    · exact fixed_append_inj hfixed h
    · exact number_append_inj hs h (ht rfl) hu
    · cases hword

end Token

theorem Token.canPrecede_of_isClosing (t : Token) {u : Token} (hu : u.isClosing = true) :
    t.CanPrecede u := by
  constructor
  · rintro ⟨-, hword⟩
    cases u <;> simp [isClosing, isWord] at hu hword
  · rintro ⟨-, rfl⟩
    cases hu

theorem isChain_cons_atom {t : Token} {ts : List Token} (ht : t.isOpening = false)
    (hts : ∀ u ∈ ts.head?, u.isWord = false) (h : ts.IsChain Token.CanPrecede) :
    (t :: ts).IsChain Token.CanPrecede := by
  refine List.isChain_cons.mpr ⟨fun u hu => ⟨fun hwords => ?_, fun hcomma => ?_⟩, h⟩
  · rw [hts u hu] at hwords
    exact Bool.false_ne_true hwords.2
  · rw [ht] at hcomma
    exact Bool.false_ne_true hcomma.1

theorem isChain_cons_sign {t : Token} {ts : List Token} (ht : t.isWord = false)
    (hts : t.isOpening = true → .comma ∉ ts.head?) (h : ts.IsChain Token.CanPrecede) :
    (t :: ts).IsChain Token.CanPrecede := by
  refine List.isChain_cons.mpr ⟨fun u hu => ⟨fun hwords => ?_, ?_⟩, h⟩
  · rw [ht] at hwords
    exact Bool.false_ne_true hwords.1
  · rintro ⟨hopen, rfl⟩
    exact hts hopen hu

theorem Value.comma_not_mem_head? {b : Bool} {v : Json} {ts : List Token} (h : Value b v ts)
    (more : List Token) : .comma ∉ (ts ++ more).head? := by
  cases h <;> simp

theorem Items.comma_not_mem_head? {b : Bool} {items : List Json} {ts : List Token}
    (h : Items b items ts) (more : List Token) : .comma ∉ (ts ++ more).head? := by
  cases h with
  | last h => exact h.comma_not_mem_head? more
  | trailing ht h | more h hs =>
    rw [List.append_assoc]
    exact h.comma_not_mem_head? _

mutual

theorem Value.isChain {b : Bool} : ∀ {v : Json} {ts more : List Token}, Value b v ts →
    (∀ u ∈ more.head?, u.isWord = false) → more.IsChain Token.CanPrecede →
    (ts ++ more).IsChain Token.CanPrecede
  | _, _, _, .null, hmore, h => isChain_cons_atom rfl hmore h
  | _, _, _, .bool _, hmore, h => isChain_cons_atom rfl hmore h
  | _, _, _, .number _, hmore, h => isChain_cons_atom rfl hmore h
  | _, _, _, .string _, hmore, h => isChain_cons_atom rfl hmore h
  | _, _, _, .emptyArray, _, h =>
    isChain_cons_sign rfl (fun _ => by simp) (isChain_cons_sign rfl nofun h)
  | _, _, more, .array hitems, _, h => by
    have hclose := isChain_cons_sign (t := .closeArray) rfl nofun h
    rw [List.cons_append, List.append_assoc]
    exact isChain_cons_sign rfl (fun _ => hitems.comma_not_mem_head? _)
      (hitems.isChain rfl hclose)
  | _, _, _, .emptyObject, _, h =>
    isChain_cons_sign rfl (fun _ => by simp) (isChain_cons_sign rfl nofun h)
  | _, _, more, .object hmembers, _, h => by
    have hclose := isChain_cons_sign (t := .closeObject) rfl nofun h
    rw [List.cons_append, List.append_assoc]
    refine isChain_cons_sign rfl (fun _ => ?_) (hmembers.isChain rfl hclose)
    cases hmembers <;> simp

theorem Items.isChain {b : Bool} : ∀ {items : List Json} {ts more : List Token} {t : Token},
    Items b items ts → t.isWord = false → (t :: more).IsChain Token.CanPrecede →
    (ts ++ t :: more).IsChain Token.CanPrecede
  | _, _, _, _, .last hvalue, ht, h => hvalue.isChain (by simpa using ht) h
  | _, _, _, _, .trailing _ hvalue, ht, h => by
    rw [List.append_assoc]
    exact hvalue.isChain (by simp [Token.isWord]) (isChain_cons_sign rfl nofun h)
  | _, _, _, _, .more hvalue hitems, ht, h => by
    rw [List.append_assoc, List.cons_append]
    exact hvalue.isChain (by simp [Token.isWord])
      (isChain_cons_sign rfl nofun (hitems.isChain ht h))

theorem Members.isChain {b : Bool} : ∀ {members : List (List Char × Json)}
    {ts more : List Token} {t : Token}, Members b members ts → t.isWord = false →
    (t :: more).IsChain Token.CanPrecede → (ts ++ t :: more).IsChain Token.CanPrecede
  | _, _, _, _, .last _ hvalue, ht, h =>
    isChain_cons_sign rfl nofun <| isChain_cons_sign rfl nofun <|
      hvalue.isChain (by simpa using ht) h
  | _, _, _, _, .trailing _ _ hvalue, ht, h => by
    simp only [List.cons_append, List.append_assoc]
    exact isChain_cons_sign rfl nofun <| isChain_cons_sign rfl nofun <|
      hvalue.isChain (by simp [Token.isWord]) (isChain_cons_sign rfl nofun h)
  | _, _, _, _, .more _ hvalue hmembers, ht, h => by
    simp only [List.cons_append, List.append_assoc]
    exact isChain_cons_sign rfl nofun <| isChain_cons_sign rfl nofun <|
      hvalue.isChain (by simp [Token.isWord])
        (isChain_cons_sign rfl nofun (hmembers.isChain ht h))

end

theorem Value.isChain_self {b : Bool} {v : Json} {ts : List Token} (h : Value b v ts) :
    ts.IsChain Token.CanPrecede := by
  have hnone : ∀ u ∈ ([] : List Token).head?, u.isWord = false := by simp
  have hchain := h.isChain hnone .nil
  rwa [List.append_nil] at hchain

theorem Laid.skipSpace_of_nil {s : List Char} (h : Laid .white [] s) : Json.skipSpace s = [] := by
  cases h with
  | final hg => exact List.dropWhile_eq_nil_iff.mpr hg

theorem not_laid_nil_cons {t : Token} {ts : List Token} {s : List Char}
    (h : Laid .white [] s) (h' : Laid .white (t :: ts) s) : False := by
  obtain ⟨rest, hskip, -⟩ := h'.skipSpace
  obtain ⟨c, text, htext, -⟩ := t.text_eq_cons
  rw [h.skipSpace_of_nil, htext] at hskip
  cases hskip

theorem Laid.endsNumber_of_isWord {t : Token} {ts : List Token} {s : List Char}
    (h : Laid .white ts s) (hts : (t :: ts).IsChain Token.CanPrecede) (ht : t.isWord = true) :
    EndsNumber s := by
  refine h.endsNumber fun u hu => Bool.eq_false_iff.mpr fun hword => ?_
  exact ((List.isChain_cons.mp hts).1 u hu).1 ⟨ht, hword⟩

theorem Laid.unique {ts us : List Token} {s : List Char} (h : Laid .white ts s)
    (h' : Laid .white us s) (hts : ts.IsChain Token.CanPrecede)
    (hus : us.IsChain Token.CanPrecede) : ts = us := by
  induction ts generalizing us s with
  | nil =>
    cases us with
    | nil => rfl
    | cons u us => exact (not_laid_nil_cons h h').elim
  | cons t ts ih =>
    cases us with
    | nil => exact (not_laid_nil_cons h' h).elim
    | cons u us =>
      obtain ⟨rest, hskip, hrest⟩ := h.skipSpace
      obtain ⟨rest', hskip', hrest'⟩ := h'.skipSpace
      obtain ⟨rfl, rfl⟩ := Token.text_append_inj (hskip.symm.trans hskip')
        (hrest.endsNumber_of_isWord hts) (hrest'.endsNumber_of_isWord hus)
      rw [ih hrest hrest' hts.tail hus.tail]

end Json

end TypeAtlas
