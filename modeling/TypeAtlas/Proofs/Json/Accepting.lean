import TypeAtlas.Proofs.Json.Reading

/-! The reader accepts nothing but strict texts: what it has read in full is derived by the
grammar. -/

namespace TypeAtlas

namespace Json

theorem of_scanDigits {s digits rest : List Char} (h : scanDigits s = some (digits, rest)) :
    IsDigits digits ∧ s = digits ++ rest := by
  unfold scanDigits at h
  split at h
  · cases h
  · rename_i hne
    cases h
    exact ⟨⟨hne, fun c hc => (List.mem_takeWhile_imp hc)⟩, List.takeWhile_append_dropWhile.symm⟩

theorem isInteger_of_isDigits {s : List Char} (h : IsDigits s)
    (hzero : s.head? = some '0' → s = ['0']) : IsInteger s := by
  obtain ⟨hne, hdigits⟩ := h
  cases s with
  | nil => exact absurd rfl hne
  | cons first others =>
    by_cases hfirst : first = '0'
    · rw [hzero (congrArg some hfirst)]
      exact .zero
    · obtain ⟨hdigit, hothers⟩ := List.forall_mem_cons.1 hdigits
      exact .positive hdigit hfirst hothers

theorem of_scanInteger {s integer rest : List Char} (h : scanInteger s = some (integer, rest)) :
    IsInteger integer ∧ s = integer ++ rest := by
  simp only [scanInteger, Option.bind_eq_bind, Option.bind_eq_some_iff] at h
  obtain ⟨⟨digits, rest'⟩, hscan, h⟩ := h
  obtain ⟨hdigits, rfl⟩ := of_scanDigits hscan
  split at h
  · cases h
  · rename_i hzero
    cases h
    exact ⟨isInteger_of_isDigits hdigits fun hhead => by simpa [hhead] using hzero, rfl⟩

theorem of_scanFraction {s fraction rest : List Char}
    (h : scanFraction s = some (fraction, rest)) : IsFraction fraction ∧ s = fraction ++ rest := by
  unfold scanFraction at h
  split at h
  · simp only [Option.bind_eq_bind, Option.bind_eq_some_iff] at h
    obtain ⟨⟨digits, rest'⟩, hscan, h⟩ := h
    obtain ⟨hdigits, rfl⟩ := of_scanDigits hscan
    cases h
    exact ⟨.point hdigits, rfl⟩
  · cases h
    exact ⟨.none, rfl⟩

theorem of_scanExponent {s exponent rest : List Char}
    (h : scanExponent s = some (exponent, rest)) : IsExponent exponent ∧ s = exponent ++ rest := by
  unfold scanExponent at h
  split at h
  · split at h
    · rename_i hmark
      split at h
      · split at h
        · rename_i hsign
          simp only [Option.bind_eq_bind, Option.bind_eq_some_iff] at h
          obtain ⟨⟨digits, rest'⟩, hscan, h⟩ := h
          obtain ⟨hdigits, rfl⟩ := of_scanDigits hscan
          cases h
          exact ⟨.signed hmark hsign hdigits, rfl⟩
        · simp only [Option.bind_eq_bind, Option.bind_eq_some_iff] at h
          obtain ⟨⟨digits, rest'⟩, hscan, h⟩ := h
          obtain ⟨hdigits, htext⟩ := of_scanDigits hscan
          cases h
          exact ⟨.unsigned hmark hdigits, by rw [htext]; rfl⟩
      · cases h
    · cases h
      exact ⟨.none, rfl⟩
  · cases h
    exact ⟨.none, rfl⟩

theorem of_scanUnsigned {s text rest : List Char} (h : scanUnsigned s = some (text, rest)) :
    IsUnsigned text ∧ s = text ++ rest := by
  simp only [scanUnsigned, Option.bind_eq_bind, Option.bind_eq_some_iff] at h
  obtain ⟨⟨integer, rest₁⟩, hi, ⟨fraction, rest₂⟩, hf, ⟨exponent, rest₃⟩, he, h⟩ := h
  obtain ⟨hinteger, rfl⟩ := of_scanInteger hi
  obtain ⟨hfraction, rfl⟩ := of_scanFraction hf
  obtain ⟨hexponent, rfl⟩ := of_scanExponent he
  cases h
  exact ⟨.parts hinteger hfraction hexponent, by simp⟩

theorem of_scanNumber {s text rest : List Char} (h : scanNumber s = some (text, rest)) :
    IsNumber text ∧ s = text ++ rest := by
  unfold scanNumber at h
  split at h
  · simp only [Option.bind_eq_bind, Option.bind_eq_some_iff] at h
    obtain ⟨⟨text', rest'⟩, hscan, h⟩ := h
    obtain ⟨hunsigned, rfl⟩ := of_scanUnsigned hscan
    cases h
    exact ⟨.negative hunsigned, rfl⟩
  · obtain ⟨hunsigned, rfl⟩ := of_scanUnsigned h
    exact ⟨.unsigned hunsigned, rfl⟩

theorem isHex_of_hexValue {c : Char} {n : Nat} (h : hexValue c = some n) : IsHex c := by
  unfold hexValue at h
  split at h
  · exact .inl ‹_›
  · split at h
    · exact .inr (.inl ‹_›)
    · split at h
      · exact .inr (.inr ‹_›)
      · cases h

theorem isHex_of_hexWord {a b c d : Char} {n : Nat} (h : hexWord a b c d = some n) :
    IsHex a ∧ IsHex b ∧ IsHex c ∧ IsHex d := by
  simp only [hexWord, Option.bind_eq_bind, Option.bind_eq_some_iff] at h
  obtain ⟨_, ha, _, hb, _, hc, _, hd, -⟩ := h
  exact ⟨isHex_of_hexValue ha, isHex_of_hexValue hb, isHex_of_hexValue hc, isHex_of_hexValue hd⟩

theorem mem_of_unescapeShort {letter c : Char} (h : unescapeShort letter = some c) :
    letter ∈ ['"', '\\', '/', 'b', 'f', 'n', 'r', 't'] := by
  unfold unescapeShort at h
  split at h
  · subst letter
    decide
  · obtain ⟨⟨first, second⟩, hfind, -⟩ := Option.map_eq_some_iff.1 h
    have hletter : first = letter := by simpa using List.find?_some hfind
    have hmem := List.mem_of_find?_eq_some hfind
    simp only [shortEscapes, List.mem_cons, Prod.mk.injEq, List.not_mem_nil, or_false] at hmem
    subst hletter
    rcases hmem with ⟨rfl, -⟩ | ⟨rfl, -⟩ | ⟨rfl, -⟩ | ⟨rfl, -⟩ | ⟨rfl, -⟩ | ⟨rfl, -⟩ | ⟨rfl, -⟩ <;>
      decide

theorem of_scanString {s spelling rest : List Char} (h : scanString s = some (spelling, rest)) :
    IsString spelling ∧ s = spelling ++ '"' :: rest := by
  fun_induction scanString s generalizing spelling with
  | case1 => cases h
  | case2 => 
    cases h
    exact ⟨.nil, rfl⟩
  | case3 a b c d s ih =>
    simp only [Option.bind_eq_bind, Option.bind_eq_some_iff] at h
    obtain ⟨n, hn, ⟨text, rest'⟩, hscan, h⟩ := h
    cases h
    obtain ⟨hs, rfl⟩ := ih hscan
    obtain ⟨ha, hb, hc, hd⟩ := isHex_of_hexWord hn
    exact ⟨.code ha hb hc hd hs, rfl⟩
  | case4 letter s hu ih =>
    simp only [Option.bind_eq_bind, Option.bind_eq_some_iff] at h
    obtain ⟨c, hc, ⟨text, rest'⟩, hscan, h⟩ := h
    cases h
    obtain ⟨hs, rfl⟩ := ih hscan
    exact ⟨.short (mem_of_unescapeShort hc) hs, rfl⟩
  | case5 => cases h
  | case6 c s hquote hu hletter hplain ih =>
    simp only [Option.bind_eq_bind, Option.bind_eq_some_iff] at h
    obtain ⟨⟨text, rest'⟩, hscan, h⟩ := h
    cases h
    obtain ⟨hs, rfl⟩ := ih hscan
    obtain ⟨hbackslash, hcontrol⟩ := not_or.1 hplain
    exact ⟨.char (Nat.not_lt.1 hcontrol) hquote hbackslash hs, rfl⟩

theorem Laid.of_skipSpace {ts : List Token} {s : List Char}
    (h : Laid .white ts (Json.skipSpace s)) : Laid .white ts s := by
  have hwhite : IsWhite (s.takeWhile isSpace) := fun c hc => List.mem_takeWhile_imp hc
  have hsplit : s.takeWhile isSpace ++ Json.skipSpace s = s := List.takeWhile_append_dropWhile
  rw [← hsplit]
  exact h.append hwhite

theorem laid_of_skipSpace {t : Token} {ts : List Token} {s rest : List Char}
    (hs : skipSpace s = t.text ++ rest) (h : Laid .white ts rest) : Laid .white (t :: ts) s :=
  .of_skipSpace (hs ▸ .token (List.forall_mem_nil _) h)

mutual

theorem of_readValue : ∀ {fuel : Nat} {s rest : List Char} {v : Json},
    readValue fuel s = (v, some rest) → ∃ ts, Value false v ts ∧
      ∀ more, Laid .white more rest → Laid .white (ts ++ more) s
  | 0, _, _, _, h => by cases h
  | fuel + 1, s, rest, v, h => by
    unfold readValue at h
    split at h
    · cases h
      exact ⟨_, .null, fun more hmore => laid_of_skipSpace ‹_› hmore⟩
    · cases h
      exact ⟨_, .bool true, fun more hmore => laid_of_skipSpace ‹_› hmore⟩
    · cases h
      exact ⟨_, .bool false, fun more hmore => laid_of_skipSpace ‹_› hmore⟩
    · rename_i after hskip
      split at h
      · rename_i text rest' hscan
        cases h
        obtain ⟨hstring, rfl⟩ := of_scanString hscan
        refine ⟨_, .string hstring, fun more hmore => laid_of_skipSpace ?_ hmore⟩
        simpa [Token.text] using hskip
      · cases h
    · rename_i after hskip
      split at h
      · cases h
        exact ⟨_, .emptyArray, fun more hmore =>
          laid_of_skipSpace hskip (laid_of_skipSpace ‹_› hmore)⟩
      · obtain ⟨rfl, hrest⟩ := Prod.mk.inj h
        obtain ⟨ts, hitems, hs⟩ := of_readItems (Prod.ext rfl hrest)
        refine ⟨_, .array hitems, fun more hmore => laid_of_skipSpace hskip (.of_skipSpace ?_)⟩
        simpa using hs more hmore
    · rename_i after hskip
      split at h
      · cases h
        exact ⟨_, .emptyObject, fun more hmore =>
          laid_of_skipSpace hskip (laid_of_skipSpace ‹_› hmore)⟩
      · obtain ⟨rfl, hrest⟩ := Prod.mk.inj h
        obtain ⟨ts, hmembers, hs⟩ := of_readMembers (Prod.ext rfl hrest)
        refine ⟨_, .object hmembers, fun more hmore => laid_of_skipSpace hskip (.of_skipSpace ?_)⟩
        simpa using hs more hmore
    · split at h
      · rename_i text rest' hscan
        cases h
        obtain ⟨hnumber, hskip⟩ := of_scanNumber hscan
        exact ⟨_, .number hnumber, fun more hmore => laid_of_skipSpace hskip hmore⟩
      · cases h

theorem of_readItems : ∀ {fuel : Nat} {s rest : List Char} {items : List Json},
    readItems fuel s = (items, some rest) → ∃ ts, Items false items ts ∧
      ∀ more, Laid .white more rest → Laid .white (ts ++ .closeArray :: more) s
  | 0, _, _, _, h => by cases h
  | fuel + 1, s, rest, items, h => by
    unfold readItems at h
    split at h
    · cases h
    · rename_i v after hread
      obtain ⟨ts, hvalue, hs⟩ := of_readValue hread
      split at h
      · rename_i behind hskip
        obtain ⟨rfl, hrest⟩ := Prod.mk.inj h
        obtain ⟨us, hitems, hbehind⟩ := of_readItems (Prod.ext rfl hrest)
        refine ⟨_, .more hvalue hitems, fun more hmore => ?_⟩
        simpa using hs _ (laid_of_skipSpace hskip (hbehind more hmore))
      · cases h
        exact ⟨ts, .last hvalue, fun more hmore => hs _ (laid_of_skipSpace ‹_› hmore)⟩
      · cases h

theorem of_readMembers : ∀ {fuel : Nat} {s rest : List Char} {members : List (List Char × Json)},
    readMembers fuel s = (members, some rest) → ∃ ts, Members false members ts ∧
      ∀ more, Laid .white more rest → Laid .white (ts ++ .closeObject :: more) s
  | 0, _, _, _, h => by cases h
  | fuel + 1, s, rest, members, h => by
    unfold readMembers at h
    split at h
    · rename_i after hname
      split at h
      · cases h
      · rename_i key after' hscan
        obtain ⟨hkey, rfl⟩ := of_scanString hscan
        split at h
        · rename_i behind hcolon
          split at h
          · cases h
          · rename_i v after'' hread
            obtain ⟨ts, hvalue, hs⟩ := of_readValue hread
            have hmember {us : List Token} (hus : Laid .white us behind) :
                Laid .white (.string key hkey :: .colon :: us) s :=
              laid_of_skipSpace (by simpa [Token.text] using hname) (laid_of_skipSpace hcolon hus)
            split at h
            · rename_i next hskip
              obtain ⟨rfl, hrest⟩ := Prod.mk.inj h
              obtain ⟨us, hmembers, hnext⟩ := of_readMembers (Prod.ext rfl hrest)
              refine ⟨_, .more hkey hvalue hmembers, fun more hmore => ?_⟩
              simpa using hmember (hs _ (laid_of_skipSpace hskip (hnext more hmore)))
            · cases h
              exact ⟨_, .last hkey hvalue, fun more hmore =>
                hmember (hs _ (laid_of_skipSpace ‹_› hmore))⟩
            · cases h
        · cases h
    · cases h

end

/-- The reader reads a text in full exactly when the grammar derives it, and then as the value
that it spells. -/
theorem read_eq_iff {v : Json} {s : List Char} : read s = (v, true) ↔ IsStrict v s := by
  refine ⟨fun h => ?_, IsStrict.read⟩
  cases hread : readValue (2 * s.length + 2) s with
  | mk value rest =>
    simp only [read, hread, Prod.mk.injEq] at h
    obtain ⟨rfl, hended⟩ := h
    cases rest with
    | none => cases hended
    | some rest =>
      obtain ⟨ts, hvalue, hs⟩ := of_readValue hread
      have hrest : skipSpace rest = [] := List.isEmpty_iff.1 hended
      have hfinal : Laid .white [] rest := .final (List.dropWhile_eq_nil_iff.1 hrest)
      exact ⟨ts, hvalue, by simpa using hs [] hfinal⟩

end Json

end TypeAtlas
