import TypeAtlas.Glob.Nesting
import TypeAtlas.Proofs.Glob.Language

/-! Patterns in which characters stand for themselves. Such a pattern matches the path it is spelled
like, and with `/**/*` behind it every path that goes on below. -/

namespace TypeAtlas

namespace Glob

section Bytes

variable {s t : List Char}

theorem bytes_append (s t : List Char) : bytes (s ++ t) = bytes s ++ bytes t :=
  List.flatMap_append

/-- No character begins with the bytes of another. -/
theorem bytes_prefix_iff : bytes s <+: bytes t ↔ s <+: t := by
  constructor
  · rintro ⟨rest, hrest⟩
    refine List.isPrefix_of_utf8Encode_append_eq_utf8Encode rest.toByteArray ?_
    change (bytes s).toByteArray ++ rest.toByteArray = (bytes t).toByteArray
    rw [← List.toByteArray_append, hrest]
  · rintro ⟨rest, rfl⟩
    rw [bytes_append]
    exact List.prefix_append _ _

theorem bytes_eq_iff : bytes s = bytes t ↔ s = t := by
  constructor
  · intro h
    have hst : s <+: t := bytes_prefix_iff.mp (h ▸ List.prefix_refl _)
    have hts : t <+: s := bytes_prefix_iff.mp (h ▸ List.prefix_refl _)
    exact hst.eq_of_length_le hts.length_le
  · rintro rfl
    rfl

end Bytes

/-- The characters that do not stand for themselves. A comma does so outside of braces. -/
def special : List Char :=
  ['*', '?', '[', ']', '\x7b', '\x7d']

def literals (s : List Char) : List Token :=
  s.map .literal

variable {s : List Char} {c : Char}

theorem lexemes_eq_map (h : ∀ c ∈ s, c ∉ special) (rest : List Char) :
    lexemes none (s ++ rest) = (lexemes none rest).map (s.map .char ++ ·) := by
  induction s with
  | nil => simp
  | cons c s ih =>
    obtain ⟨hc, hs⟩ := List.forall_mem_cons.mp h
    have hbracket : c ≠ '[' := by
      rintro rfl
      exact hc (by decide)
    rw [List.cons_append, lexemes, if_neg hbracket, ih hs, Option.map_map]
    rfl

theorem readTokens_char (h : c ∉ special) (afterSlash : Bool) (tokens : List Token)
    (rest : List Lexeme) :
    readTokens afterSlash tokens [] (.char c :: rest) =
      readTokens (c = '/') (.literal c :: tokens) [] rest := by
  simp only [special, List.mem_cons, not_or, List.not_mem_nil, not_false_eq_true, and_true] at h
  obtain ⟨hstar, hany, -, -, hopen, hclose⟩ := h
  rw [readTokens]
  all_goals simp_all

theorem readTokens_map_char (h : ∀ c ∈ s, c ∉ special) (afterSlash : Bool) (tokens : List Token)
    (rest : List Lexeme) :
    ∃ afterSlash', readTokens afterSlash tokens [] (s.map .char ++ rest) =
      readTokens afterSlash' ((literals s).reverse ++ tokens) [] rest := by
  induction s generalizing afterSlash tokens with
  | nil => exact ⟨afterSlash, rfl⟩
  | cons c s ih =>
    obtain ⟨hc, hs⟩ := List.forall_mem_cons.mp h
    obtain ⟨afterSlash', htokens⟩ := ih hs (c = '/') (.literal c :: tokens)
    refine ⟨afterSlash', ?_⟩
    rw [List.map_cons, List.cons_append, readTokens_char hc, htokens]
    simp [literals]

theorem read_literals (h : ∀ c ∈ s, c ∉ special) : read (String.ofList s) = some (literals s) := by
  obtain ⟨afterSlash, htokens⟩ := readTokens_map_char h false [] []
  have hlexemes := lexemes_eq_map h []
  simp only [List.append_nil] at htokens hlexemes
  rw [read, String.toList_ofList, hlexemes]
  change readTokens false [] [] (s.map .char ++ []) = _
  rw [List.append_nil, htokens, readTokens]
  simp

theorem read_below (h : ∀ c ∈ s, c ∉ special) :
    read (String.ofList s ++ "/**/*") = some (literals s ++ [.anyBetween, .star]) := by
  have hlexemes : lexemes none "/**/*".toList =
      some [.char '/', .char '*', .char '*', .char '/', .char '*'] := rfl
  obtain ⟨afterSlash, htokens⟩ := readTokens_map_char h false []
    [.char '/', .char '*', .char '*', .char '/', .char '*']
  rw [read, String.toList_append, String.toList_ofList, lexemes_eq_map h, hlexemes]
  change readTokens false [] [] _ = _
  rw [htokens, readTokens_char (by decide)]
  simp [readTokens, component]

variable {rest : List Token} {t : List UInt8} {path : String}

theorem matchesAll_literals_append :
    MatchesAll (literals s ++ rest) t ↔ ∃ below, t = bytes s ++ below ∧ MatchesAll rest below := by
  induction s generalizing t with
  | nil => simp [literals, bytes]
  | cons c s ih =>
    have hbytes : bytes (c :: s) = String.utf8EncodeChar c ++ bytes s := List.flatMap_cons
    rw [literals, List.map_cons, List.cons_append, MatchesAll, hbytes]
    constructor
    · rintro ⟨front, behind, rfl, rfl, hbehind⟩
      obtain ⟨below, rfl, hbelow⟩ := ih.mp hbehind
      exact ⟨below, (List.append_assoc ..).symm, hbelow⟩
    · rintro ⟨below, rfl, hbelow⟩
      exact ⟨_, bytes s ++ below, List.append_assoc .., rfl, ih.mpr ⟨below, rfl, hbelow⟩⟩

theorem matchesAll_below : MatchesAll [.anyBetween, .star] t ↔ ∃ below, t = slash :: below := by
  simp only [MatchesAll, Matches]
  constructor
  · rintro ⟨front, behind, rfl, rfl | ⟨between, rfl⟩, -⟩
    · exact ⟨behind, rfl⟩
    · exact ⟨_, rfl⟩
  · rintro ⟨below, rfl⟩
    by_cases hslash : slash ∈ below
    · -- the last slash ends the directories
      obtain ⟨name, above, hreverse, hname⟩ :=
        List.eq_append_cons_of_mem (List.mem_reverse.mpr hslash)
      have hbelow : below = above.reverse ++ [slash] ++ name.reverse := by
        simpa using congrArg List.reverse hreverse
      refine ⟨slash :: (above.reverse ++ [slash]), name.reverse, ?_, .inr ⟨_, rfl⟩, ?_⟩
      · rw [hbelow, List.cons_append]
      · exact ⟨name.reverse, [], (List.append_nil _).symm, by simpa using hname, rfl⟩
    · exact ⟨[slash], below, rfl, .inl rfl, below, [], (List.append_nil _).symm, hslash, rfl⟩

theorem literals_append_ne_anyFront (h : rest ≠ [.anyFront]) :
    literals s ++ rest ≠ [.anyFront] := by
  cases s with
  | nil => exact h
  | cons c s => simp [literals]

theorem isMatch_literals : isMatch (literals s) path = true ↔ path.toList = s := by
  have hne : literals s ++ [] ≠ [.anyFront] := literals_append_ne_anyFront nofun
  rw [← List.append_nil (literals s), isMatch_iff, or_iff_right hne, matchesAll_literals_append]
  simp [MatchesAll, bytes_eq_iff]

theorem isMatch_below :
    isMatch (literals s ++ [.anyBetween, .star]) path = true ↔ s ++ ['/'] <+: path.toList := by
  have hne : literals s ++ [.anyBetween, .star] ≠ [.anyFront] := literals_append_ne_anyFront nofun
  have hslash : bytes (s ++ ['/']) = bytes s ++ [slash] := bytes_append s ['/']
  rw [isMatch_iff, or_iff_right hne, matchesAll_literals_append, ← bytes_prefix_iff, hslash]
  simp only [matchesAll_below]
  constructor
  · rintro ⟨_, hpath, below, rfl⟩
    exact ⟨below, by rw [hpath, List.append_assoc]; rfl⟩
  · rintro ⟨below, hpath⟩
    exact ⟨slash :: below, by rw [← hpath, List.append_assoc]; rfl, below, rfl⟩

theorem depth_literals_append :
    (extentOfSequence (literals s ++ rest)).depth = (extentOfSequence rest).depth := by
  induction s with
  | nil => rfl
  | cons c s ih =>
    rw [literals, List.map_cons, List.cons_append, extentOfSequence, Extent.beside]
    change max 0 (extentOfSequence (literals s ++ rest)).depth = _
    rw [ih, Nat.zero_max]

end Glob

end TypeAtlas
