import TypeAtlas.Proofs.Json.Tokens
import TypeAtlas.Proofs.Json.Writing
import TypeAtlas.Proofs.Project.Jsonc

/-! Which texts of configurations mean what they seem to mean. Comments vanish without a trace and
commas go by what follows them, so words can grow together, a comma can stand alone and a comment
can stay open; all other texts that are read are JSON with comments and trailing commas. -/

namespace TypeAtlas

theorem Codec.read_eq_ok_iff {α : Type} {c : Codec α} {text : String} {a : α} :
    c.read text = .ok a ↔ ∃ v, Json.IsStrict v text.toList ∧ c.decode v = .ok a := by
  simp only [← Json.read_eq_iff, read]
  obtain ⟨v, ended⟩ := Json.read text.toList
  cases hdecode : c.decode v <;> cases ended <;> simp [hdecode]

namespace Json

theorem Token.plain_text {t : Token} (ht : ∀ s h, t ≠ .string s h) :
    ∀ c ∈ t.text, c ≠ ' ' ∧ c ≠ '"' ∧ c ≠ '/' := by
  rcases t.fixed_or with hfixed | ⟨s, hs, rfl⟩ | ⟨s, hs, rfl⟩
  · have hall : ∀ t ∈ fixed, ∀ c ∈ t.text, c ≠ ' ' ∧ c ≠ '"' ∧ c ≠ '/' := by
      simp [fixed, text]
    exact hall t hfixed
  · intro c hc
    have hnumeral := hs.isNumeral c hc
    refine ⟨?_, ?_, ?_⟩ <;> rintro rfl <;> revert hnumeral <;> simp [IsNumeral]
  · exact absurd rfl (ht s hs)

theorem Laid.eq_nil {ts : List Token} {s : List Char} (hs : IsWhite s) (h : Laid .white ts s) :
    ts = [] := by
  cases ts with
  | nil => rfl
  | cons t ts => exact (not_laid_nil_cons (.final hs) h).elim

theorem Laid.of_white_append {ts : List Token} {g s : List Char} (hg : IsWhite g)
    (h : Laid .white ts (g ++ s)) : Laid .white ts s := by
  have hskip : Json.skipSpace (g ++ s) = Json.skipSpace s := List.dropWhile_append_of_pos hg
  cases ts with
  | nil => exact .final (List.dropWhile_eq_nil_iff.mp (hskip.symm.trans h.skipSpace_of_nil))
  | cons t ts =>
    obtain ⟨rest, htext, hrest⟩ := h.skipSpace
    exact laid_of_skipSpace (hskip.symm.trans htext) hrest

theorem Laid.of_cons {gaps : Gaps} {ts : List Token} {c : Char} {s : List Char}
    (hbefore : ∀ g, ¬ gaps.before (c :: g)) (hfinal : ¬ gaps.final (c :: s))
    (h : Laid gaps ts (c :: s)) :
    ∃ t us rest, ts = t :: us ∧ c :: s = t.text ++ rest ∧ Laid gaps us rest := by
  generalize htext : c :: s = text at h
  cases h with
  | final hg =>
    subst htext
    exact absurd hg hfinal
  | @token t us g rest hg h =>
    cases g with
    | nil => exact ⟨t, us, rest, rfl, rfl, h⟩
    | cons d g =>
      obtain ⟨rfl, -⟩ := List.cons.inj htext
      exact absurd hg (hbefore g)

theorem not_isWhite_cons {c : Char} (hc : isSpace c = false) (g : List Char) :
    ¬ IsWhite (c :: g) := fun hg => by
  rw [hg c List.mem_cons_self] at hc
  cases hc

end Json

namespace Jsonc

open Json

/-- A text, and the text with a blank in the place of each comment, in which line breaks stay.
Comments do not begin in strings, and a block comment is closed. -/
inductive Spaced : List Char → List Char → Prop
  | nil : Spaced [] []
  | char {c : Char} {s s' : List Char} (hquote : c ≠ '"')
      (hcomment : c = '/' → '/' ∉ s.head? ∧ '*' ∉ s.head?) (h : Spaced s s') :
      Spaced (c :: s) (c :: s')
  | string {spelling s s' : List Char} (hspelling : IsString spelling) (h : Spaced s s') :
      Spaced ('"' :: (spelling ++ '"' :: s)) ('"' :: (spelling ++ '"' :: s'))
  | line {body s s' : List Char} (hbody : '\n' ∉ body) (h : Spaced s s') :
      Spaced ('/' :: '/' :: (body ++ '\n' :: s)) (' ' :: '\n' :: s')
  | lastLine {body : List Char} (hbody : '\n' ∉ body) : Spaced ('/' :: '/' :: body) [' ']
  | block {body s s' : List Char} (hbody : ¬ ['*', '/'] <:+: body) (h : Spaced s s') :
      Spaced ('/' :: '*' :: (body ++ '*' :: '/' :: s)) (' ' :: (body.filter (· = '\n') ++ s'))

theorem Spaced.append {w s s' : List Char} (hw : ∀ c ∈ w, c ≠ '"' ∧ c ≠ '/') (h : Spaced s s') :
    Spaced (w ++ s) (w ++ s') := by
  induction w with
  | nil => exact h
  | cons c w ih =>
    obtain ⟨⟨hquote, hslash⟩, hw⟩ := List.forall_mem_cons.mp hw
    exact .char hquote (fun hc => absurd hc hslash) (ih hw)

theorem Spaced.token (t : Token) {s s' : List Char} (h : Spaced s s') :
    Spaced (t.text ++ s) (t.text ++ s') := by
  by_cases ht : ∃ s h, t = .string s h
  · obtain ⟨spelling, hspelling, rfl⟩ := ht
    simpa [Token.text] using Spaced.string hspelling h
  · push Not at ht
    exact h.append fun c hc => (Token.plain_text ht c hc).2

theorem isWhite_lineBreaks (body : List Char) : IsWhite (body.filter (· = '\n')) := by
  intro c hc
  obtain ⟨-, hc⟩ := List.mem_filter.mp hc
  simp [isSpace, of_decide_eq_true hc]

theorem isWhite_cons {c : Char} {g : List Char} (hc : isSpace c = true) (hg : IsWhite g) :
    IsWhite (c :: g) :=
  List.forall_mem_cons.mpr ⟨hc, hg⟩

theorem spaced_gap {g : List Char} (h : IsGap g) :
    ∃ white, IsWhite white ∧ ∀ s s', Spaced s s' → Spaced (g ++ s) (white ++ s') := by
  induction h with
  | nil => exact ⟨[], List.forall_mem_nil _, fun _ _ h => h⟩
  | @space c g hc h ih =>
    obtain ⟨white, hwhite, hg⟩ := ih
    refine ⟨c :: white, isWhite_cons hc hwhite, fun s s' hs => .char ?_ ?_ (hg s s' hs)⟩
    · rintro rfl
      exact absurd hc (by decide)
    · rintro rfl
      exact absurd hc (by decide)
  | @block body g hbody h ih =>
    obtain ⟨white, hwhite, hg⟩ := ih
    refine ⟨' ' :: (body.filter (· = '\n') ++ white), isWhite_cons rfl ?_, fun s s' hs => ?_⟩
    · exact List.forall_mem_append.mpr ⟨isWhite_lineBreaks body, hwhite⟩
    · simpa using Spaced.block hbody (hg s s' hs)
  | @line body g hbody h ih =>
    obtain ⟨white, hwhite, hg⟩ := ih
    refine ⟨' ' :: '\n' :: white, isWhite_cons rfl (isWhite_cons rfl hwhite), fun s s' hs => ?_⟩
    simpa using Spaced.line hbody (hg s s' hs)

theorem spaced_finalGap {g : List Char} (h : IsFinalGap g) :
    ∃ white, IsWhite white ∧ Spaced g white := by
  cases h with
  | gap h =>
    obtain ⟨white, hwhite, hg⟩ := spaced_gap h
    exact ⟨white, hwhite, by simpa using hg _ _ .nil⟩
  | line h hbody =>
    obtain ⟨white, hwhite, hg⟩ := spaced_gap h
    exact ⟨white ++ [' '], List.forall_mem_append.mpr ⟨hwhite, isWhite_space⟩,
      hg _ _ (.lastLine hbody)⟩

theorem exists_spaced {ts : List Token} {s : List Char} (h : Laid gaps ts s) :
    ∃ s', Spaced s s' ∧ Laid .white ts s' := by
  induction h with
  | final hg =>
    obtain ⟨white, hwhite, hspaced⟩ := spaced_finalGap hg
    exact ⟨white, hspaced, .final hwhite⟩
  | @token t ts g s hg h ih =>
    obtain ⟨s', hspaced, hlaid⟩ := ih
    obtain ⟨white, hwhite, hg⟩ := spaced_gap hg
    exact ⟨_, hg _ _ (hspaced.token t), .token hwhite hlaid⟩

theorem IsGap.append {g g' : List Char} (h : IsGap g) (h' : IsGap g') : IsGap (g ++ g') := by
  induction h with
  | nil => exact h'
  | space hc h ih => exact .space hc ih
  | block hbody h ih => simpa using IsGap.block hbody ih
  | line hbody h ih => simpa using IsGap.line hbody ih

theorem laid_gap_append {ts : List Token} {g s : List Char} (hg : IsGap g) (h : Laid gaps ts s) :
    Laid gaps ts (g ++ s) := by
  cases h with
  | final hfinal =>
    cases hfinal with
    | gap hgap => exact .final (.gap (hg.append hgap))
    | line hgap hbody =>
      rw [← List.append_assoc]
      exact .final (.line (hg.append hgap) hbody)
  | token hgap h =>
    rw [← List.append_assoc]
    exact .token (hg.append hgap) h

theorem Spaced.of_cons {c : Char} {s s' : List Char} (hblank : c ≠ ' ') (hquote : c ≠ '"')
    (h : Spaced s (c :: s')) : ∃ rest, s = c :: rest ∧ Spaced rest s' := by
  cases h with
  | char _ _ h => exact ⟨_, rfl, h⟩
  | string => exact absurd rfl hquote
  | line | lastLine | block => exact absurd rfl hblank

theorem Spaced.of_append {w s s' : List Char} (hw : ∀ c ∈ w, c ≠ ' ' ∧ c ≠ '"')
    (h : Spaced s (w ++ s')) : ∃ rest, s = w ++ rest ∧ Spaced rest s' := by
  induction w generalizing s with
  | nil => exact ⟨s, rfl, h⟩
  | cons c w ih =>
    obtain ⟨⟨hblank, hquote⟩, hw⟩ := List.forall_mem_cons.mp hw
    rw [List.cons_append] at h
    obtain ⟨s, rfl, hs⟩ := h.of_cons hblank hquote
    obtain ⟨rest, rfl, hrest⟩ := ih hw hs
    exact ⟨rest, rfl, hrest⟩

/-- Where comments have become blanks, all tokens come from the text, and comments stand between
them. -/
theorem laid_of_spaced {ts : List Token} {s s' : List Char} (h : Spaced s s')
    (hlaid : Laid .white ts s') : Laid gaps ts s := by
  induction hlength : s.length using Nat.strongRecOn generalizing ts s s' with
  | ind n ih =>
    subst hlength
    cases h with
    | nil =>
      obtain rfl := hlaid.eq_nil (List.forall_mem_nil _)
      exact .final (.gap .nil)
    | lastLine hbody =>
      obtain rfl := hlaid.eq_nil isWhite_space
      exact .final (.line .nil hbody)
    | @line body s s' hbody h =>
      have hwhite : IsWhite [' ', '\n'] := isWhite_cons rfl (isWhite_cons rfl nofun)
      have hrest := ih _ (by simp; omega) h (hlaid.of_white_append hwhite) rfl
      simpa using laid_gap_append (.line hbody .nil) hrest
    | @block body s s' hbody h =>
      have hwhite := isWhite_cons (c := ' ') rfl (isWhite_lineBreaks body)
      have hrest := ih _ (by simp; omega) h (hlaid.of_white_append hwhite) rfl
      simpa using laid_gap_append (.block hbody .nil) hrest
    | @string spelling s s' hspelling h =>
      obtain ⟨t, us, rest, rfl, htext, hus⟩ :=
        hlaid.of_cons (not_isWhite_cons rfl) (not_isWhite_cons rfl _)
      obtain ⟨rfl, rfl⟩ := Token.string_append_inj hspelling htext
      have hrest := ih _ (by simp; omega) h hus rfl
      have hgap : gaps.before [] := IsGap.nil
      simpa [Token.text] using Laid.token (t := .string spelling hspelling) hgap hrest
    | @char c s s' hquote hcomment h =>
      cases hc : isSpace c with
      | true =>
        have hwhite : IsWhite [c] := isWhite_cons hc nofun
        have hrest := ih _ (by simp) h (hlaid.of_white_append hwhite) rfl
        exact laid_gap_append (.space hc .nil) hrest
      | false =>
        obtain ⟨t, us, rest', rfl, htext, hus⟩ :=
          hlaid.of_cons (not_isWhite_cons hc) (not_isWhite_cons hc _)
        have ht : ∀ spelling h, t ≠ .string spelling h := by
          rintro spelling h rfl
          exact hquote (List.cons.inj htext).1
        have hspaced : Spaced (c :: s) (t.text ++ rest') := htext ▸ .char hquote hcomment h
        obtain ⟨rest, hs, hrest⟩ := hspaced.of_append fun d hd =>
          ⟨(Token.plain_text ht d hd).1, (Token.plain_text ht d hd).2.1⟩
        have hlt : rest.length < (c :: s).length := by
          obtain ⟨d, text, hd, -⟩ := t.text_eq_cons
          simp only [hs, hd, List.length_append, List.length_cons]
          omega
        have hlaid := ih _ hlt hrest hus rfl
        rw [hs]
        exact Laid.token (g := []) IsGap.nil hlaid

theorem strictTokens_cases (ts : List Token) :
    ts = [] ∨ ∃ t rest, strictTokens ts = t :: strictTokens rest ∧
      (ts = t :: rest ∨ t.isClosing = true ∧ ts = .comma :: t :: rest) := by
  fun_cases strictTokens ts with
  | case1 => exact .inl rfl
  | case2 ts hclosing =>
    cases ts with
    | nil => simp at hclosing
    | cons t ts =>
      have ht : t.isClosing = true := by simpa using hclosing
      exact .inr ⟨t, ts, strictTokens_closing ht ts, .inr ⟨ht, rfl⟩⟩
  | case3 ts hclosing => exact .inr ⟨.comma, ts, rfl, .inl rfl⟩
  | case4 t ts ht => exact .inr ⟨t, ts, rfl, .inl rfl⟩

theorem head?_strictTokens {ts : List Token} {u : Token} (hu : u ∈ (strictTokens ts).head?) :
    u ∈ ts.head? ∨ u.isClosing = true := by
  obtain rfl | ⟨t, rest, hstrict, hts⟩ := strictTokens_cases ts
  · exact .inl hu
  · rw [hstrict] at hu
    obtain rfl := Option.some.inj hu
    obtain rfl | ⟨ht, -⟩ := hts
    · exact .inl rfl
    · exact .inr ht

theorem isChain_strictTokens {ts : List Token} (h : ts.IsChain Token.CanPrecede) :
    (strictTokens ts).IsChain Token.CanPrecede := by
  fun_induction strictTokens ts with
  | case1 => exact h
  | case2 ts hclosing ih => exact ih h.tail
  | case3 ts hclosing ih => exact isChain_cons_sign rfl (by simp [Token.isOpening]) (ih h.tail)
  | case4 t ts ht ih =>
    refine List.isChain_cons.mpr ⟨fun u hu => ?_, ih h.tail⟩
    rcases head?_strictTokens hu with hhead | hclosing
    · exact (List.isChain_cons.mp h).1 u hhead
    · exact t.canPrecede_of_isClosing hclosing

theorem eq_nil_of_strictTokens {ts : List Token} (h : strictTokens ts = []) : ts = [] := by
  obtain rfl | ⟨t, rest, hstrict, -⟩ := strictTokens_cases ts
  · rfl
  · rw [hstrict] at h
    cases h

theorem strictTokens_eq_cons {t : Token} {ts more : List Token} (ht : t.isClosing = false)
    (h : strictTokens ts = t :: more) : ∃ rest, ts = t :: rest ∧ strictTokens rest = more := by
  obtain rfl | ⟨u, rest, hstrict, hts⟩ := strictTokens_cases ts
  · cases h
  · rw [hstrict] at h
    obtain ⟨rfl, hrest⟩ := List.cons.inj h
    obtain rfl | ⟨hu, -⟩ := hts
    · exact ⟨rest, rfl, hrest⟩
    · rw [ht] at hu
      cases hu

theorem strictTokens_eq_cons_or {t : Token} {ts more : List Token}
    (h : strictTokens ts = t :: more) :
    ∃ rest, (ts = t :: rest ∨ ts = .comma :: t :: rest) ∧ strictTokens rest = more := by
  obtain rfl | ⟨u, rest, hstrict, hts⟩ := strictTokens_cases ts
  · cases h
  · rw [hstrict] at h
    obtain ⟨rfl, hrest⟩ := List.cons.inj h
    exact ⟨rest, hts.imp_right And.right, hrest⟩

theorem strictTokens_empty {first last : Token} {ts more : List Token}
    (hfirst : first.isOpening = true) (hts : ts.IsChain Token.CanPrecede)
    (h : strictTokens ts = first :: last :: more) :
    ∃ rest, ts = first :: last :: rest ∧ strictTokens rest = more := by
  have hclosing : first.isClosing = false := by
    cases first <;> first | rfl | cases hfirst
  obtain ⟨us, rfl, hus⟩ := strictTokens_eq_cons hclosing h
  obtain ⟨rest, rfl | rfl, hrest⟩ := strictTokens_eq_cons_or hus
  · exact ⟨rest, rfl, hrest⟩
  · exact absurd ⟨hfirst, rfl⟩ (List.isChain_cons_cons.mp hts).1.2

mutual

/-- Where no comma stands behind an opening bracket, those that are left out are trailing ones. -/
theorem value_of_strictTokens : ∀ {v : Json} {us ts more : List Token}, Value false v us →
    ts.IsChain Token.CanPrecede → strictTokens ts = us ++ more →
    ∃ ts₁ ts₂, ts = ts₁ ++ ts₂ ∧ Value true v ts₁ ∧ strictTokens ts₂ = more
  | _, _, _, _, .null, _, h => by
    obtain ⟨rest, rfl, hrest⟩ := strictTokens_eq_cons rfl h
    exact ⟨[_], rest, rfl, .null, hrest⟩
  | _, _, _, _, .bool b, _, h => by
    obtain ⟨rest, rfl, hrest⟩ := strictTokens_eq_cons rfl h
    exact ⟨[_], rest, rfl, .bool b, hrest⟩
  | _, _, _, _, .number hs, _, h => by
    obtain ⟨rest, rfl, hrest⟩ := strictTokens_eq_cons rfl h
    exact ⟨[_], rest, rfl, .number hs, hrest⟩
  | _, _, _, _, .string hs, _, h => by
    obtain ⟨rest, rfl, hrest⟩ := strictTokens_eq_cons rfl h
    exact ⟨[_], rest, rfl, .string hs, hrest⟩
  | _, _, _, _, .emptyArray, hts, h => by
    obtain ⟨rest, rfl, hrest⟩ := strictTokens_empty rfl hts h
    exact ⟨[_, _], rest, rfl, .emptyArray, hrest⟩
  | _, _, _, _, .array hitems, hts, h => by
    rw [List.cons_append, List.append_assoc] at h
    obtain ⟨ts', rfl, hts'⟩ := strictTokens_eq_cons rfl h
    obtain ⟨ts₁, ts₂, rfl, hitems, hmore⟩ :=
      items_of_strictTokens (t := .closeArray) hitems hts.tail hts'
    exact ⟨_, ts₂, by simp, .array hitems, hmore⟩
  | _, _, _, _, .emptyObject, hts, h => by
    obtain ⟨rest, rfl, hrest⟩ := strictTokens_empty rfl hts h
    exact ⟨[_, _], rest, rfl, .emptyObject, hrest⟩
  | _, _, _, _, .object hmembers, hts, h => by
    rw [List.cons_append, List.append_assoc] at h
    obtain ⟨ts', rfl, hts'⟩ := strictTokens_eq_cons rfl h
    obtain ⟨ts₁, ts₂, rfl, hmembers, hmore⟩ :=
      members_of_strictTokens (t := .closeObject) hmembers hts.tail hts'
    exact ⟨_, ts₂, by simp, .object hmembers, hmore⟩

theorem items_of_strictTokens : ∀ {items : List Json} {us ts more : List Token} {t : Token},
    Items false items us → ts.IsChain Token.CanPrecede →
    strictTokens ts = us ++ t :: more →
    ∃ ts₁ ts₂, ts = ts₁ ++ t :: ts₂ ∧ Items true items ts₁ ∧ strictTokens ts₂ = more
  | _, _, _, _, _, .last hvalue, hts, h => by
    obtain ⟨ts₁, ts₂, rfl, hvalue, hts₂⟩ := value_of_strictTokens hvalue hts h
    obtain ⟨rest, rfl | rfl, hrest⟩ := strictTokens_eq_cons_or hts₂
    · exact ⟨ts₁, rest, rfl, .last hvalue, hrest⟩
    · exact ⟨ts₁ ++ [.comma], rest, by simp, .trailing rfl hvalue, hrest⟩
  | _, _, _, _, _, .more hvalue hitems, hts, h => by
    rw [List.append_assoc, List.cons_append] at h
    obtain ⟨ts₁, ts', rfl, hvalue, hts'⟩ := value_of_strictTokens hvalue hts h
    obtain ⟨rest, rfl, hrest⟩ := strictTokens_eq_cons rfl hts'
    obtain ⟨ts₂, ts₃, rfl, hitems, hmore⟩ :=
      items_of_strictTokens hitems hts.right_of_append.tail hrest
    exact ⟨ts₁ ++ .comma :: ts₂, ts₃, by simp, .more hvalue hitems, hmore⟩

theorem members_of_strictTokens : ∀ {members : List (List Char × Json)}
    {us ts more : List Token} {t : Token}, Members false members us →
    ts.IsChain Token.CanPrecede → strictTokens ts = us ++ t :: more →
    ∃ ts₁ ts₂, ts = ts₁ ++ t :: ts₂ ∧ Members true members ts₁ ∧ strictTokens ts₂ = more
  | _, _, _, _, _, .last hkey hvalue, hts, h => by
    obtain ⟨ts', rfl, hcolon⟩ := strictTokens_eq_cons rfl h
    obtain ⟨ts', rfl, hts'⟩ := strictTokens_eq_cons rfl hcolon
    obtain ⟨ts₁, ts₂, rfl, hvalue, hts₂⟩ := value_of_strictTokens hvalue hts.tail.tail hts'
    obtain ⟨rest, rfl | rfl, hrest⟩ := strictTokens_eq_cons_or hts₂
    · exact ⟨_, rest, rfl, .last hkey hvalue, hrest⟩
    · exact ⟨_, rest, by simp, .trailing rfl hkey hvalue, hrest⟩
  | _, _, _, _, _, .more hkey hvalue hmembers, hts, h => by
    simp only [List.append_assoc, List.cons_append] at h
    obtain ⟨ts', rfl, hcolon⟩ := strictTokens_eq_cons rfl h
    obtain ⟨ts', rfl, hts'⟩ := strictTokens_eq_cons rfl hcolon
    obtain ⟨ts₁, ts₂, rfl, hvalue, hts₂⟩ := value_of_strictTokens hvalue hts.tail.tail hts'
    obtain ⟨rest, rfl, hrest⟩ := strictTokens_eq_cons (t := .comma) rfl hts₂
    obtain ⟨ts₂, ts₃, rfl, hmembers, hmore⟩ :=
      members_of_strictTokens hmembers hts.tail.tail.right_of_append.tail hrest
    exact ⟨_, ts₃, by simp, .more hkey hvalue hmembers, hmore⟩

end

theorem IsGap.head {c : Char} {g : List Char} (h : IsGap (c :: g)) :
    isSpace c = true ∨ c = '/' := by
  cases h with
  | space hc h => exact .inl hc
  | block | line => exact .inr rfl

theorem IsFinalGap.head {c : Char} {s : List Char} (h : IsFinalGap (c :: s)) :
    isSpace c = true ∨ c = '/' := by
  generalize htext : c :: s = text at h
  cases h with
  | gap h =>
    subst htext
    exact h.head
  | @line g body h hbody =>
    cases g with
    | nil => exact .inr (List.cons.inj htext).1
    | cons d g =>
      obtain ⟨rfl, -⟩ := List.cons.inj htext
      exact h.head

theorem laid_of_sign {t : Token} {ts : List Token} {s : List Char} (ht : t.isWord = false)
    (h : Laid gaps ts (t.text ++ s)) : ∃ us, Laid gaps us s := by
  have hhead : ∃ c text, t.text = c :: text ∧ ¬ (isSpace c = true ∨ c = '/') := by
    cases t with
    | null | bool | number => cases ht
    | _ => exact ⟨_, _, rfl, by decide⟩
  obtain ⟨c, text, hc, hhead⟩ := hhead
  rw [hc] at h
  obtain ⟨u, us, rest, -, hu, h⟩ :=
    h.of_cons (fun g hg => hhead (IsGap.head hg)) (fun hg => hhead (IsFinalGap.head hg))
  have hsame : t.text ++ s = u.text ++ rest := by
    rw [hc]
    exact hu
  obtain ⟨-, rfl⟩ := Token.sign_append_inj ht hsame
  exact ⟨us, h⟩

/-- A text of whole tokens with gaps around them, in which no two words stand side by side and no
comma stands behind an opening bracket. -/
def IsWellSpaced (s : List Char) : Prop :=
  ∃ ts, Laid gaps ts s ∧ ts.IsChain Token.CanPrecede

/-- A text of which a blank for each comment leaves JSON with trailing commas, and without those
strict JSON. -/
def ReadsAs (v : Json) (s : List Char) : Prop :=
  ∃ s', Spaced s s' ∧ (∃ ts, Value true v ts ∧ Laid .white ts s') ∧
    IsStrict v (withoutTrailingCommas .outside s')

theorem ReadsAs.isDecorated {v : Json} {s : List Char} (h : ReadsAs v s) : IsDecorated v s := by
  obtain ⟨s', hspaced, ⟨ts, hvalue, hlaid⟩, -⟩ := h
  exact ⟨ts, hvalue, laid_of_spaced hspaced hlaid⟩

theorem IsDecorated.readsAs {v : Json} {s : List Char} (h : IsDecorated v s) : ReadsAs v s := by
  obtain ⟨ts, hvalue, hlaid⟩ := h
  obtain ⟨s', hspaced, hlaid'⟩ := exists_spaced hlaid
  obtain ⟨us, hus, -, hstrict⟩ := value_strictTokens hvalue
  have hts : strictTokens ts = us := by simpa [strictTokens] using hstrict []
  exact ⟨s', hspaced, ⟨ts, hvalue, hlaid'⟩, us, hus, hts ▸ laid_withoutTrailingCommas hlaid'⟩

theorem IsDecorated.isWellSpaced {v : Json} {s : List Char} (h : IsDecorated v s) :
    IsWellSpaced s := by
  obtain ⟨ts, hvalue, hlaid⟩ := h
  exact ⟨ts, hlaid, hvalue.isChain_self⟩

theorem IsWellSpaced.isDecorated {v : Json} {text : String} (h : IsWellSpaced text.toList)
    (hplain : IsStrict v (plain text).toList) : IsDecorated v text.toList := by
  obtain ⟨ts, hlaid, hts⟩ := h
  obtain ⟨us, hvalue, hus⟩ := hplain
  have hstrict := laid_withoutTrailingCommas (laid_withoutComments hlaid)
  rw [plain, String.toList_ofList] at hus
  have heq := hstrict.unique hus (isChain_strictTokens hts) hvalue.isChain_self
  obtain ⟨ts₁, ts₂, rfl, hvalue, hts₂⟩ :=
    value_of_strictTokens hvalue hts (heq.trans (List.append_nil us).symm)
  obtain rfl := eq_nil_of_strictTokens hts₂
  rw [List.append_nil] at hlaid
  exact ⟨ts₁, hvalue, hlaid⟩

end Jsonc

/-- What is read of a text is what it spells without comments and without commas in front of
closing brackets. That this is what a blank for each comment leaves without trailing commas is as
much as to say that the text is well spaced. -/
theorem Config.parse_wellSpaced_iff (text : String) (config : Config) :
    (Config.parse text = .ok config ↔
      ∃ v, Json.IsStrict v (Jsonc.plain text).toList ∧ Config.codec.decode v = .ok config) ∧
    (Config.parse text = .ok config ∧ Jsonc.IsWellSpaced text.toList ↔
      ∃ v, Jsonc.ReadsAs v text.toList ∧ Config.codec.decode v = .ok config) := by
  have hparse : Config.parse text = .ok config ↔
      ∃ v, Json.IsStrict v (Jsonc.plain text).toList ∧ Config.codec.decode v = .ok config :=
    Codec.read_eq_ok_iff
  refine ⟨hparse, ?_⟩
  rw [hparse]
  constructor
  · rintro ⟨⟨v, hstrict, hdecode⟩, hspaced⟩
    exact ⟨v, (hspaced.isDecorated hstrict).readsAs, hdecode⟩
  · rintro ⟨v, hreads, hdecode⟩
    have hdecorated := hreads.isDecorated
    exact ⟨⟨v, hdecorated.plain, hdecode⟩, hdecorated.isWellSpaced⟩

/-- The front of a configuration, up to the word that says whether checks are strict. -/
def Config.strictnessFront : List Char :=
  ['{', '"', 'c', 'o', 'm', 'p', 'i', 'l', 'e', 'r', 'O', 'p', 't', 'i', 'o', 'n', 's', '"', ':',
    '{', '"', 's', 't', 'r', 'i', 'c', 't', '"', ':']

theorem Config.laid_strictnessFront {ts : List Json.Token} {rest : List Char}
    (h : Json.Laid Jsonc.gaps ts (strictnessFront ++ rest)) :
    ∃ us, Json.Laid Jsonc.gaps us rest := by
  have hoptions : Json.IsString "compilerOptions".toList := Json.isString_of_unescaped (by simp)
  have hstrict : Json.IsString "strict".toList := Json.isString_of_unescaped (by simp)
  have hfront : strictnessFront ++ rest =
      Json.Token.openObject.text ++ ((Json.Token.string _ hoptions).text ++
        (Json.Token.colon.text ++ (Json.Token.openObject.text ++
          ((Json.Token.string _ hstrict).text ++ (Json.Token.colon.text ++ rest))))) := rfl
  rw [hfront] at h
  obtain ⟨_, h⟩ := Jsonc.laid_of_sign rfl h
  obtain ⟨_, h⟩ := Jsonc.laid_of_sign rfl h
  obtain ⟨_, h⟩ := Jsonc.laid_of_sign rfl h
  obtain ⟨_, h⟩ := Jsonc.laid_of_sign rfl h
  obtain ⟨_, h⟩ := Jsonc.laid_of_sign rfl h
  exact Jsonc.laid_of_sign rfl h

def Config.splitWordText : String :=
  "\x7b\"compilerOptions\":\x7b\"strict\":tr/**/ue\x7d\x7d"

def Config.splitWord : Config :=
  { options := some { strict := some true } }

/-- A comment may stand in the middle of a word. -/
theorem Config.parse_splitWord_not_readsAs :
    Config.parse splitWordText = .ok splitWord ∧
      ¬ ∃ v, Jsonc.ReadsAs v splitWordText.toList ∧ codec.decode v = .ok splitWord := by
  have htext : splitWordText.toList =
      strictnessFront ++ ['t', 'r', '/', '*', '*', '/', 'u', 'e', '}', '}'] := rfl
  constructor
  · have hplain : (Jsonc.plain splitWordText).toList =
        strictnessFront ++ ['t', 'r', 'u', 'e', '}', '}'] := by
      rw [Jsonc.plain, String.toList_ofList, htext]
      rfl
    have hread : Json.IsStrict
        (.object [("compilerOptions".toList, .object [("strict".toList, .bool true)])])
        (Jsonc.plain splitWordText).toList := by
      rw [hplain]
      exact Json.read_eq_iff.mp rfl
    exact Codec.read_eq_ok_iff.mpr ⟨_, hread, rfl⟩
  · rintro ⟨v, hreads, -⟩
    obtain ⟨ts, -, h⟩ := hreads.isDecorated
    rw [htext] at h
    obtain ⟨_, hword⟩ := laid_strictnessFront h
    obtain ⟨t, _, rest, -, ht, -⟩ := hword.of_cons
      (fun g hg => absurd (Jsonc.IsGap.head hg) (by decide))
      (fun hg => absurd (Jsonc.IsFinalGap.head hg) (by decide))
    obtain ⟨c, spelling, hc, -⟩ := t.text_eq_cons
    have hhead : c = 't' := by
      rw [hc] at ht
      exact (List.cons.inj ht).1.symm
    obtain rfl := Json.Token.eq_of_head (t := .bool true) (by decide) rfl (hhead ▸ hc)
    cases ht

end TypeAtlas
