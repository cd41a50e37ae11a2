import TypeAtlas.Proofs.Project.Jsonc
import TypeAtlas.Proofs.Text.Replacing

/-! What goes and what stays when comments and trailing commas are left out of a text, well formed
or not: string literals and line breaks stay, so that all other characters that stay are on the
lines they were on, and no new comment begins. -/

namespace TypeAtlas

namespace Jsonc

/-- A piece of a text. Literals and comments are spelled with their delimiters. -/
inductive Piece where
  | char (c : Char)
  | literal (s : List Char)
  | comment (s : List Char)

namespace Piece

def text : Piece → List Char
  | char c => [c]
  | literal s => s
  | comment s => s

/-- What stays of a piece without comments: a comment has its line breaks left. -/
def left : Piece → List Piece
  | char c => [char c]
  | literal s => [literal s]
  | comment s => (s.filter (· = '\n')).map char

end Piece

def textOf (ps : List Piece) : List Char :=
  ps.flatMap Piece.text

@[simp] theorem textOf_nil : textOf [] = [] := rfl

@[simp] theorem textOf_cons (p : Piece) (ps : List Piece) :
    textOf (p :: ps) = p.text ++ textOf ps := rfl

theorem textOf_append (ps qs : List Piece) : textOf (ps ++ qs) = textOf ps ++ textOf qs :=
  List.flatMap_append

theorem textOf_map_char (s : List Char) : textOf (s.map .char) = s := by
  induction s with
  | nil => rfl
  | cons c s ih => simp [Piece.text, ih]

/-- What stands in a string literal in front of its closing quote. -/
inductive IsBody : List Char → Prop
  | nil : IsBody []
  | char {c : Char} {s : List Char} (hquote : c ≠ '"') (hbackslash : c ≠ '\\') (h : IsBody s) :
      IsBody (c :: s)
  | escape {c : Char} {s : List Char} (h : IsBody s) : IsBody ('\\' :: c :: s)

/-- How a text is cut into pieces, where comments are known and where they are not. A literal or a
block comment that is not closed reaches to the end of the text, and the literal may break off
behind a backslash. -/
inductive Lexed (comments : Bool) : List Piece → Prop
  | nil : Lexed comments []
  | char {c : Char} {ps : List Piece} (hquote : c ≠ '"')
      (hslash : comments = true → c = '/' → ∀ d ∈ (textOf ps).head?, d ≠ '/' ∧ d ≠ '*')
      (h : Lexed comments ps) : Lexed comments (.char c :: ps)
  | literal {body : List Char} {ps : List Piece} (hbody : IsBody body) (h : Lexed comments ps) :
      Lexed comments (.literal ('"' :: (body ++ ['"'])) :: ps)
  | openLiteral {body tail : List Char} (hbody : IsBody body) (htail : tail = [] ∨ tail = ['\\']) :
      Lexed comments [.literal ('"' :: (body ++ tail))]
  | line {body : List Char} {ps : List Piece} (hcomments : comments = true) (hbody : '\n' ∉ body)
      (hend : ∀ c ∈ (textOf ps).head?, c = '\n') (h : Lexed comments ps) :
      Lexed comments (.comment ('/' :: '/' :: body) :: ps)
  | block {body : List Char} {ps : List Piece} (hcomments : comments = true)
      (hbody : ¬ ['*', '/'] <:+: body) (h : Lexed comments ps) :
      Lexed comments (.comment ('/' :: '*' :: (body ++ ['*', '/'])) :: ps)
  | openBlock {body : List Char} (hcomments : comments = true) (hbody : ¬ ['*', '/'] <:+: body) :
      Lexed comments [.comment ('/' :: '*' :: body)]

theorem exists_isBody : ∀ s : List Char,
    (∃ body rest, IsBody body ∧ s = body ++ '"' :: rest) ∨
      ∃ body tail, IsBody body ∧ (tail = [] ∨ tail = ['\\']) ∧ s = body ++ tail
  | [] => .inr ⟨[], [], .nil, .inl rfl, rfl⟩
  | c :: s => by
    by_cases hquote : c = '"'
    · exact .inl ⟨[], s, .nil, congrArg (· :: s) hquote⟩
    by_cases hbackslash : c = '\\'
    · subst hbackslash
      cases s with
      | nil => exact .inr ⟨[], ['\\'], .nil, .inr rfl, rfl⟩
      | cons d s =>
        obtain ⟨body, rest, hbody, rfl⟩ | ⟨body, tail, hbody, htail, rfl⟩ := exists_isBody s
        · exact .inl ⟨_, rest, .escape hbody, rfl⟩
        · exact .inr ⟨_, tail, .escape hbody, htail, rfl⟩
    · obtain ⟨body, rest, hbody, rfl⟩ | ⟨body, tail, hbody, htail, rfl⟩ := exists_isBody s
      · exact .inl ⟨_, rest, .char hquote hbackslash hbody, rfl⟩
      · exact .inr ⟨_, tail, .char hquote hbackslash hbody, htail, rfl⟩

theorem exists_line (s : List Char) :
    ∃ body rest, s = body ++ rest ∧ '\n' ∉ body ∧ ∀ c ∈ rest.head?, c = '\n' := by
  induction s with
  | nil => exact ⟨[], [], rfl, List.not_mem_nil, nofun⟩
  | cons c s ih =>
    by_cases hc : c = '\n'
    · exact ⟨[], c :: s, rfl, List.not_mem_nil, by simpa using hc⟩
    · obtain ⟨body, rest, rfl, hbody, hend⟩ := ih
      exact ⟨c :: body, rest, rfl, by simpa [Ne.symm hc] using hbody, hend⟩

theorem exists_lexed (comments : Bool) (s : List Char) :
    ∃ ps, Lexed comments ps ∧ textOf ps = s := by
  induction hlength : s.length using Nat.strongRecOn generalizing s with
  | ind n ih =>
    subst hlength
    cases s with
    | nil => exact ⟨[], .nil, rfl⟩
    | cons c s =>
      by_cases hquote : c = '"'
      · subst hquote
        obtain ⟨body, rest, hbody, rfl⟩ | ⟨body, tail, hbody, htail, rfl⟩ := exists_isBody s
        · obtain ⟨ps, hps, rfl⟩ := ih rest.length (by simp; omega) rest rfl
          exact ⟨_, .literal hbody hps, by simp [Piece.text]⟩
        · exact ⟨_, .openLiteral hbody htail, by simp [Piece.text]⟩
      by_cases hline : comments = true ∧ ∃ rest, c :: s = '/' :: '/' :: rest
      · obtain ⟨hcomments, rest, heq⟩ := hline
        obtain ⟨body, rest, rfl, hbody, hend⟩ := exists_line rest
        rw [heq] at ih ⊢
        obtain ⟨ps, hps, rfl⟩ := ih rest.length (by simp; omega) rest rfl
        exact ⟨_, .line hcomments hbody hend hps, by simp [Piece.text]⟩
      by_cases hblock : comments = true ∧ ∃ rest, c :: s = '/' :: '*' :: rest
      · obtain ⟨hcomments, rest, heq⟩ := hblock
        rw [heq] at ih ⊢
        by_cases hclosed : ['*', '/'] <:+: rest
        · obtain ⟨body, rest, rfl, hbody⟩ := Text.exists_first (by simp) hclosed
          obtain ⟨ps, hps, rfl⟩ := ih rest.length (by simp; omega) rest rfl
          exact ⟨_, .block hcomments hbody hps, by simp [Piece.text]⟩
        · exact ⟨_, .openBlock hcomments hclosed, by simp [Piece.text]⟩
      obtain ⟨ps, hps, rfl⟩ := ih s.length (by simp) s rfl
      refine ⟨_, .char hquote (fun hcomments hc d hd => ?_) hps, rfl⟩
      obtain ⟨rest, hrest⟩ := List.head?_eq_some_iff.mp hd
      refine ⟨?_, ?_⟩ <;> rintro rfl
      · exact hline ⟨hcomments, rest, by rw [hc, hrest]⟩
      · exact hblock ⟨hcomments, rest, by rw [hc, hrest]⟩

def IsPlain (p : Piece) : Prop :=
  ∀ s, p ≠ .comment s

theorem isPlain_flatMap_left (ps : List Piece) : ∀ p ∈ ps.flatMap Piece.left, IsPlain p := by
  intro p hp
  obtain ⟨q, -, hp⟩ := List.mem_flatMap.mp hp
  cases q with
  | char c | literal s =>
    obtain rfl := List.mem_singleton.mp hp
    exact nofun
  | comment s =>
    obtain ⟨c, -, rfl⟩ := List.mem_map.mp hp
    exact nofun

theorem flatMap_left {ps : List Piece} (h : ∀ p ∈ ps, IsPlain p) : ps.flatMap Piece.left = ps := by
  induction ps with
  | nil => rfl
  | cons p ps ih =>
    obtain ⟨hp, hps⟩ := List.forall_mem_cons.mp h
    have hleft : p.left = [p] := by
      cases p with
      | char c | literal s => rfl
      | comment s => exact absurd rfl (hp s)
    rw [List.flatMap_cons, hleft, ih hps, List.singleton_append]

theorem Lexed.isPlain {ps : List Piece} (h : Lexed false ps) : ∀ p ∈ ps, IsPlain p := by
  induction h with
  | nil => nofun
  | char hquote hslash h ih => exact List.forall_mem_cons.mpr ⟨nofun, ih⟩
  | literal hbody h ih => exact List.forall_mem_cons.mpr ⟨nofun, ih⟩
  | openLiteral => exact List.forall_mem_singleton.mpr nofun
  | line hcomments | block hcomments | openBlock hcomments => cases hcomments

namespace Copies

variable {f : Region → List Char → List Char}

theorem body (hf : Copies f) {s rest : List Char} (h : IsBody s) :
    f .string (s ++ rest) = s ++ f .string rest := by
  induction h with
  | nil => rfl
  | char hquote hbackslash h ih => simp [hf.string, hquote, hbackslash, ih]
  | escape h ih => simp [hf.string, hf.escaped, ih]

theorem literal (hf : Copies f) {body : List Char} (h : IsBody body) (rest : List Char) :
    f .outside ('"' :: (body ++ ['"']) ++ rest) = '"' :: (body ++ ['"']) ++ f .outside rest := by
  simp [hf.outside, hf.body h, hf.string]

theorem openLiteral (hf : Copies f) (hstring : f .string [] = []) (hescaped : f .escaped [] = [])
    {body tail : List Char} (h : IsBody body) (htail : tail = [] ∨ tail = ['\\']) :
    f .outside ('"' :: (body ++ tail)) = '"' :: (body ++ tail) := by
  have htail : f .string tail = tail := by
    obtain rfl | rfl := htail
    · exact hstring
    · simp [hf.string, hescaped]
  simp [hf.outside, hf.body h, htail]

end Copies

theorem withoutComments_char {c : Char} {s : List Char} (hquote : c ≠ '"')
    (hslash : c = '/' → ∀ d ∈ s.head?, d ≠ '/' ∧ d ≠ '*') :
    withoutComments .outside (c :: s) = c :: withoutComments .outside s := by
  rw [withoutComments, if_neg hquote]
  · rintro rest rfl rfl
    exact (hslash rfl _ rfl).1 rfl
  · rintro rest rfl rfl
    exact (hslash rfl _ rfl).2 rfl

theorem withoutComments_openBlock {body : List Char} (hbody : ¬ ['*', '/'] <:+: body) :
    withoutComments .blockComment body = body.filter (· = '\n') := by
  induction body with
  | nil => rfl
  | cons c body ih =>
    rw [List.infix_cons_iff, not_or] at hbody
    rw [withoutComments]
    · by_cases hc : c = '\n' <;> simp [hc, ih hbody.2]
    · rintro rest rfl rfl
      exact hbody.1 (List.prefix_append ['*', '/'] rest)

theorem withoutComments_lineEnd {s : List Char} (h : ∀ c ∈ s.head?, c = '\n') :
    withoutComments .lineComment s = withoutComments .outside s := by
  cases s with
  | nil => rfl
  | cons c s =>
    obtain rfl := h c rfl
    simp [withoutComments]

theorem Lexed.withoutComments_eq {ps : List Piece} (h : Lexed true ps) :
    withoutComments .outside (textOf ps) = textOf (ps.flatMap Piece.left) := by
  induction h with
  | nil => rfl
  | char hquote hslash h ih =>
    rw [textOf_cons, Piece.text, List.singleton_append,
      withoutComments_char hquote (hslash rfl), ih]
    rfl
  | literal hbody h ih =>
    rw [textOf_cons, Piece.text, copies_withoutComments.literal hbody, ih]
    rfl
  | openLiteral hbody htail =>
    simpa [Piece.text, Piece.left] using copies_withoutComments.openLiteral rfl rfl hbody htail
  | line _ hbody hend h ih =>
    have hfilter : (List.filter (· = '\n') _) = [] := List.filter_eq_nil_iff.mpr fun c hc => by
      simpa using ne_of_mem_of_not_mem hc hbody
    simp [Piece.text, Piece.left, withoutComments, withoutComments_lineComment hbody,
      withoutComments_lineEnd hend, ih, hfilter]
  | block _ hbody h ih =>
    simp [Piece.text, Piece.left, withoutComments, withoutComments_blockComment hbody, ih,
      textOf_append, textOf_map_char]
  | openBlock _ hbody =>
    simp [Piece.text, Piece.left, withoutComments, withoutComments_openBlock hbody,
      textOf_map_char]

theorem Lexed.head_left {ps : List Piece} (h : Lexed true ps)
    (hslash : '/' ∉ (textOf ps).head?) :
    (textOf (ps.flatMap Piece.left)).head? = (textOf ps).head? := by
  cases h with
  | nil | char | literal | openLiteral => rfl
  | line | block | openBlock => exact absurd rfl hslash

theorem Lexed.chars {ps : List Piece} {w : List Char} {comments : Bool}
    (hw : ∀ c ∈ w, c ≠ '"' ∧ c ≠ '/') (h : Lexed comments ps) :
    Lexed comments (w.map .char ++ ps) := by
  induction w with
  | nil => exact h
  | cons c w ih =>
    obtain ⟨⟨hquote, hslash⟩, hw⟩ := List.forall_mem_cons.mp hw
    exact .char hquote (fun _ hc => absurd hc hslash) (ih hw)

theorem lineBreaks_not_delimiters (s : List Char) :
    ∀ c ∈ s.filter (· = '\n'), c ≠ '"' ∧ c ≠ '/' := by
  intro c hc
  obtain rfl := of_decide_eq_true (List.mem_filter.mp hc).2
  decide

/-- No comment begins where comments have been left out: one that does not begin with a slash
leaves what follows a slash as it is. -/
theorem Lexed.left {ps : List Piece} (h : Lexed true ps) :
    Lexed true (ps.flatMap Piece.left) := by
  induction h with
  | nil => exact .nil
  | char hquote hslash h ih =>
    refine .char hquote (fun hcomments hc => ?_) ih
    have hnext := hslash hcomments hc
    rwa [← h.head_left fun hhead => (hnext _ hhead).1 rfl] at hnext
  | literal hbody h ih => exact .literal hbody ih
  | openLiteral hbody htail => exact .openLiteral hbody htail
  | line _ hbody hend h ih => exact ih.chars (lineBreaks_not_delimiters _)
  | block _ hbody h ih => exact ih.chars (lineBreaks_not_delimiters _)
  | openBlock _ hbody => exact Lexed.nil.chars (lineBreaks_not_delimiters _)

theorem Lexed.withoutComments_of_plain {ps : List Piece} (h : Lexed true ps)
    (hps : ∀ p ∈ ps, IsPlain p) : withoutComments .outside (textOf ps) = textOf ps := by
  rw [h.withoutComments_eq, flatMap_left hps]

/-- Commas outside of literals and comments are left out. -/
inductive CommasDropped : List Piece → List Piece → Prop
  | nil : CommasDropped [] []
  | keep (p : Piece) {ps qs : List Piece} (h : CommasDropped ps qs) :
      CommasDropped (p :: ps) (p :: qs)
  | comma {ps qs : List Piece} (h : CommasDropped ps qs) :
      CommasDropped (.char ',' :: ps) qs

theorem withoutTrailingCommas_outside (c : Char) (s : List Char) :
    withoutTrailingCommas .outside (c :: s) =
      if c = ',' ∧ isClosing s = true then withoutTrailingCommas .outside s
      else c :: withoutTrailingCommas (if c = '"' then .string else .outside) s := rfl

theorem isClosing_cases {s : List Char} (h : isClosing s = true) :
    ∃ c rest, s = c :: rest ∧ c ≠ ',' ∧ c ≠ '/' ∧ c ≠ '*' := by
  cases s with
  | nil => cases h
  | cons c rest =>
    refine ⟨c, rest, rfl, ?_, ?_, ?_⟩ <;> rintro rfl <;> cases h

/-- A comma is only left out in front of a character that stays and begins no comment. -/
theorem withoutTrailingCommas_head {s : List Char} (h : ∀ c ∈ s.head?, c ≠ '/' ∧ c ≠ '*') :
    ∀ c ∈ (withoutTrailingCommas .outside s).head?, c ≠ '/' ∧ c ≠ '*' := by
  cases s with
  | nil => exact h
  | cons c s =>
    rw [withoutTrailingCommas_outside]
    split
    · next hdropped =>
      obtain ⟨d, rest, rfl, hcomma, hnext⟩ := isClosing_cases hdropped.2
      rw [withoutTrailingCommas_outside, if_neg fun hd => hcomma hd.1]
      simpa using hnext
    · exact h

theorem Lexed.commasDropped {comments : Bool} {ps : List Piece} (h : Lexed comments ps)
    (hps : ∀ p ∈ ps, IsPlain p) :
    ∃ qs, CommasDropped ps qs ∧ Lexed comments qs ∧
      withoutTrailingCommas .outside (textOf ps) = textOf qs := by
  induction h with
  | nil => exact ⟨[], .nil, .nil, rfl⟩
  | @char c ps hquote hslash h ih =>
    obtain ⟨qs, hdropped, hqs, htext⟩ := ih (List.forall_mem_cons.mp hps).2
    rw [textOf_cons, Piece.text, List.singleton_append, withoutTrailingCommas_outside,
      if_neg hquote]
    split
    · next hc =>
      obtain ⟨rfl, -⟩ := hc
      exact ⟨qs, .comma hdropped, hqs, htext⟩
    · refine ⟨.char c :: qs, .keep _ hdropped, .char hquote (fun hcomments hc => ?_) hqs, ?_⟩
      · rw [← htext]
        exact withoutTrailingCommas_head (hslash hcomments hc)
      · rw [htext]
        rfl
  | @literal body ps hbody h ih =>
    obtain ⟨qs, hdropped, hqs, htext⟩ := ih (List.forall_mem_cons.mp hps).2
    refine ⟨_, .keep _ hdropped, .literal hbody hqs, ?_⟩
    rw [textOf_cons, Piece.text, copies_withoutTrailingCommas.literal hbody, htext]
    rfl
  | openLiteral hbody htail =>
    refine ⟨_, .keep _ .nil, .openLiteral hbody htail, ?_⟩
    simpa [Piece.text] using copies_withoutTrailingCommas.openLiteral rfl rfl hbody htail
  | line | block | openBlock => exact absurd rfl ((List.forall_mem_cons.mp hps).1 _)

theorem CommasDropped.sublist {ps qs : List Piece} (h : CommasDropped ps qs) : qs.Sublist ps := by
  induction h with
  | nil => exact .slnil
  | keep p h ih => exact ih.cons_cons p
  | comma h ih => exact ih.cons _

/-- The characters of a text with the numbers of the lines they are on. -/
def lined : Nat → List Char → List (Nat × Char)
  | _, [] => []
  | line, c :: s => (line, c) :: lined (if c = '\n' then line + 1 else line) s

/-- A text of which some characters are left, in their order, and all line breaks. -/
def KeepsBreaks (s t : List Char) : Prop :=
  t.Sublist s ∧ t.count '\n' = s.count '\n'

namespace KeepsBreaks

theorem refl (s : List Char) : KeepsBreaks s s :=
  ⟨List.Sublist.refl s, rfl⟩

theorem trans {s t u : List Char} (h : KeepsBreaks s t) (h' : KeepsBreaks t u) :
    KeepsBreaks s u :=
  ⟨h'.1.trans h.1, h'.2.trans h.2⟩

theorem append {s t s' t' : List Char} (h : KeepsBreaks s t) (h' : KeepsBreaks s' t') :
    KeepsBreaks (s ++ s') (t ++ t') :=
  ⟨h.1.append h'.1, by rw [List.count_append, List.count_append, h.2, h'.2]⟩

theorem lined_sublist {s t : List Char} (h : KeepsBreaks s t) (line : Nat) :
    (lined line t).Sublist (lined line s) := by
  obtain ⟨h, hbreaks⟩ := h
  induction h generalizing line with
  | slnil => exact .slnil
  | @cons t s c h ih =>
    have hc : c ≠ '\n' := by
      rintro rfl
      have hle := h.count_le '\n'
      rw [hbreaks, List.count_cons_self] at hle
      omega
    rw [List.count_cons_of_ne hc] at hbreaks
    rw [lined, if_neg hc]
    exact (ih line hbreaks).cons _
  | @cons_cons t s c h ih =>
    rw [List.count_cons, List.count_cons] at hbreaks
    exact (ih _ (by omega)).cons_cons _

end KeepsBreaks

theorem Piece.keepsBreaks_left (p : Piece) : KeepsBreaks p.text (textOf p.left) := by
  cases p with
  | char c | literal s => simpa [left, text] using KeepsBreaks.refl _
  | comment s =>
    rw [left, text, textOf_map_char]
    exact ⟨List.filter_sublist, List.count_filter rfl⟩

theorem keepsBreaks_flatMap_left (ps : List Piece) :
    KeepsBreaks (textOf ps) (textOf (ps.flatMap Piece.left)) := by
  induction ps with
  | nil => exact .refl []
  | cons p ps ih =>
    rw [List.flatMap_cons, textOf_append, textOf_cons]
    exact p.keepsBreaks_left.append ih

theorem CommasDropped.keepsBreaks {ps qs : List Piece} (h : CommasDropped ps qs) :
    KeepsBreaks (textOf ps) (textOf qs) := by
  induction h with
  | nil => exact .refl []
  | keep p h ih => exact (KeepsBreaks.refl p.text).append ih
  | comma h ih =>
    have hcomma : KeepsBreaks [','] [] := ⟨List.nil_sublist _, rfl⟩
    exact hcomma.append ih

def Piece.literal? : Piece → Option (List Char)
  | literal s => some s
  | _ => none

def literals (ps : List Piece) : List (List Char) :=
  ps.filterMap Piece.literal?

theorem literals_left (p : Piece) : literals p.left = literals [p] := by
  cases p with
  | char c | literal s => rfl
  | comment s => simp [literals, Piece.left, Piece.literal?, List.filterMap_map, Function.comp_def]

theorem literals_flatMap_left (ps : List Piece) :
    literals (ps.flatMap Piece.left) = literals ps := by
  induction ps with
  | nil => rfl
  | cons p ps ih =>
    have happend : literals (p.left ++ ps.flatMap Piece.left) =
        literals p.left ++ literals (ps.flatMap Piece.left) := List.filterMap_append
    rw [List.flatMap_cons, happend, literals_left, ih]
    exact List.filterMap_append.symm

theorem CommasDropped.literals_eq {ps qs : List Piece} (h : CommasDropped ps qs) :
    literals qs = literals ps := by
  induction h with
  | nil => rfl
  | keep p h ih => simp only [literals, List.filterMap_cons] at ih ⊢; rw [ih]
  | comma h ih => exact ih

theorem Lexed.plain_eq {ps : List Piece} (h : Lexed true ps) {text : String}
    (htext : textOf ps = text.toList) :
    ∃ qs, CommasDropped (ps.flatMap Piece.left) qs ∧ (plain text).toList = textOf qs ∧
      Lexed true qs ∧ ∀ q ∈ qs, IsPlain q := by
  have hplain := isPlain_flatMap_left ps
  obtain ⟨qs, hdropped, hqs, hcommas⟩ := h.left.commasDropped hplain
  refine ⟨qs, hdropped, ?_, hqs, fun q hq => hplain q (hdropped.sublist.subset hq)⟩
  rw [plain, String.toList_ofList, ← htext, h.withoutComments_eq, hcommas]

/-- Both steps keep line breaks and string literals and take away comments and commas only, each
its own, so that all else stays on its line. Nothing they take away makes a comment begin, and
comments are gone after the first time. -/
theorem plain_keepsBreaks (text : String) :
    (∀ comments, ∃ ps, Lexed comments ps ∧ textOf ps = text.toList) ∧
      (∀ ps, Lexed true ps → textOf ps = text.toList →
        withoutComments .outside text.toList = textOf (ps.flatMap Piece.left) ∧
          Lexed true (ps.flatMap Piece.left) ∧ literals (ps.flatMap Piece.left) = literals ps ∧
          ∃ qs, CommasDropped (ps.flatMap Piece.left) qs ∧ (plain text).toList = textOf qs ∧
            Lexed true qs ∧ literals qs = literals ps ∧ ∀ q ∈ qs, IsPlain q) ∧
      (∀ ps, Lexed false ps → textOf ps = text.toList →
        ∃ qs, CommasDropped ps qs ∧ withoutTrailingCommas .outside text.toList = textOf qs ∧
          Lexed false qs ∧ literals qs = literals ps) ∧
      withoutComments .outside (withoutComments .outside text.toList) =
        withoutComments .outside text.toList ∧
      withoutComments .outside (plain text).toList = (plain text).toList ∧
      KeepsBreaks text.toList (withoutComments .outside text.toList) ∧
      KeepsBreaks text.toList (plain text).toList ∧
      (lined 1 (plain text).toList).Sublist (lined 1 text.toList) := by
  obtain ⟨ps, hps, htext⟩ := exists_lexed true text.toList
  have hcomments := hps.withoutComments_eq
  obtain ⟨qs, hdropped, hplain, hqs, hqsPlain⟩ := hps.plain_eq htext
  have hbreaks : KeepsBreaks text.toList (withoutComments .outside text.toList) := by
    rw [← htext, hcomments]
    exact keepsBreaks_flatMap_left ps
  have hbreaksPlain : KeepsBreaks text.toList (plain text).toList := by
    rw [← htext, hplain]
    exact (keepsBreaks_flatMap_left ps).trans hdropped.keepsBreaks
  refine ⟨fun comments => exists_lexed comments text.toList, fun ps hps htext => ?_,
    fun ps hps htext => ?_, ?_, ?_, hbreaks, hbreaksPlain, hbreaksPlain.lined_sublist 1⟩
  · obtain ⟨qs, hdropped, hplain, hqs, hqsPlain⟩ := hps.plain_eq htext
    have hliterals := literals_flatMap_left ps
    exact ⟨htext ▸ hps.withoutComments_eq, hps.left, hliterals, qs, hdropped, hplain, hqs,
      hdropped.literals_eq.trans hliterals, hqsPlain⟩
  · obtain ⟨qs, hdropped, hqs, hcommas⟩ := hps.commasDropped hps.isPlain
    exact ⟨qs, hdropped, htext ▸ hcommas, hqs, hdropped.literals_eq⟩
  · rw [← htext, hcomments]
    exact hps.left.withoutComments_of_plain (isPlain_flatMap_left ps)
  · rw [hplain]
    exact hqs.withoutComments_of_plain hqsPlain

/-- A comma with a comment behind it, and a literal that breaks off. -/
def brokenOff : String :=
  "[1,/*\n*/]\"//,]\\"

def brokenOffLiteral : Piece :=
  .literal ('"' :: (['/', '/', ',', ']'] ++ ['\\']))

theorem lexed_brokenOffLiteral (comments : Bool) : Lexed comments [brokenOffLiteral] := by
  refine .openLiteral ?_ (.inr rfl)
  exact .char (by decide) (by decide) <| .char (by decide) (by decide) <|
    .char (by decide) (by decide) <| .char (by decide) (by decide) .nil

def brokenOffPieces : List Piece :=
  [.char '[', .char '1', .char ',', .comment ('/' :: '*' :: (['\n'] ++ ['*', '/'])), .char ']',
    brokenOffLiteral]

/-- The pieces of the same text where comments are not known. -/
def brokenOffSigns : List Piece :=
  ['[', '1', ',', '/', '*', '\n', '*', '/', ']'].map .char ++ [brokenOffLiteral]

theorem plain_brokenOff :
    Lexed true brokenOffPieces ∧ textOf brokenOffPieces = brokenOff.toList ∧
      Lexed false brokenOffSigns ∧ textOf brokenOffSigns = brokenOff.toList ∧
      withoutComments .outside brokenOff.toList = "[1,\n]\"//,]\\".toList ∧
      (∃ qs, (plain brokenOff).toList = textOf qs ∧ literals qs = [brokenOffLiteral.text]) ∧
      (∃ qs, withoutTrailingCommas .outside brokenOff.toList = textOf qs ∧
        literals qs = [brokenOffLiteral.text]) ∧
      (lined 1 (plain brokenOff).toList).Sublist (lined 1 brokenOff.toList) := by
  have hpieces : Lexed true brokenOffPieces := by
    have hsign {c : Char} {ps : List Piece} (hquote : c ≠ '"') (hslash : c ≠ '/')
        (h : Lexed true ps) : Lexed true (.char c :: ps) :=
      .char hquote (fun _ hc => absurd hc hslash) h
    exact hsign (by decide) (by decide) <| hsign (by decide) (by decide) <|
      hsign (by decide) (by decide) <| .block rfl (by decide) <|
      hsign (by decide) (by decide) <| lexed_brokenOffLiteral true
  have hsigns : Lexed false brokenOffSigns := by
    have hsign {c : Char} {ps : List Piece} (hquote : c ≠ '"') (h : Lexed false ps) :
        Lexed false (.char c :: ps) := .char hquote nofun h
    exact hsign (by decide) <| hsign (by decide) <| hsign (by decide) <| hsign (by decide) <|
      hsign (by decide) <| hsign (by decide) <| hsign (by decide) <| hsign (by decide) <|
      hsign (by decide) <| lexed_brokenOffLiteral false
  have htext : textOf brokenOffPieces = brokenOff.toList := by decide
  have htextSigns : textOf brokenOffSigns = brokenOff.toList := by decide
  obtain ⟨-, hcomments, hcommas, -, -, -, -, hlines⟩ := plain_keepsBreaks brokenOff
  obtain ⟨hleft, -, -, qs, -, hplain, -, hliterals, -⟩ := hcomments _ hpieces htext
  obtain ⟨rs, -, hdropped, -, hliteralsSigns⟩ := hcommas _ hsigns htextSigns
  refine ⟨hpieces, htext, hsigns, htextSigns, ?_, ⟨qs, hplain, hliterals.trans rfl⟩,
    ⟨rs, hdropped, hliteralsSigns.trans rfl⟩, hlines⟩
  rw [hleft]
  decide

end Jsonc

end TypeAtlas
