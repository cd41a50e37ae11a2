import TypeAtlas.Flags.Containers
import TypeAtlas.Flags.Modifiers
import TypeAtlas.Proofs.Json.Writing
import TypeAtlas.Proofs.Sequences
import TypeAtlas.Proofs.Text.Splitting
import Mathlib.Data.Nat.Bitwise

/-! Sets of flags as text. What is written of a set is read as the same set when every flag is a bit
of its own with a name of its own, and bits that have no name are not lost: they are the last part
of the text. -/

namespace TypeAtlas

namespace Text

structure IsTrimmed (s : List Char) : Prop where
  ne_nil : s ≠ []
  head : ∀ c ∈ s.head?, isBlank c = false
  last : ∀ c ∈ s.getLast?, isBlank c = false

variable {s before behind : List Char}

theorem IsTrimmed.trim_between (h : IsTrimmed s) (hbefore : ∀ c ∈ before, isBlank c = true)
    (hbehind : ∀ c ∈ behind, isBlank c = true) : trim (before ++ (s ++ behind)) = s := by
  have hhead : ∀ c ∈ (s ++ behind).head?, isBlank c = false := by
    rw [List.head?_append_of_ne_nil s h.ne_nil]
    exact h.head
  have hlast : ∀ c ∈ s.reverse.head?, isBlank c = false := by
    rw [List.head?_reverse]
    exact h.last
  have hreverse : ∀ c ∈ behind.reverse, isBlank c = true := fun c hc =>
    hbehind c (List.mem_reverse.mp hc)
  rw [trim, dropWhile_append_eq hbefore hhead, List.reverse_append,
    dropWhile_append_eq hreverse hlast, List.reverse_reverse]

theorem isBlank_of_trim_eq_nil (h : trim s = []) : ∀ c ∈ s, isBlank c = true := by
  intro c hc
  have hfront : s.dropWhile isBlank = [] := by
    by_contra hne
    have hall := List.dropWhile_eq_nil_iff.mp (List.reverse_eq_nil_iff.mp h)
    have hhead := hall _ (List.mem_reverse.mpr (List.head_mem hne))
    rw [List.head_dropWhile_not isBlank hne] at hhead
    cases hhead
  exact List.dropWhile_eq_nil_iff.mp hfront c hc

end Text

namespace FlagNames

/-- A part that can be told apart from the bars and blanks around it. -/
structure IsPart (part : List Char) : Prop extends Text.IsTrimmed part where
  not_mem_bar : '|' ∉ part

variable {part : List Char} {parts : List (List Char)}

theorem isPart_of_forall (hne : part ≠ [])
    (h : ∀ c ∈ part, c ≠ '|' ∧ Text.isBlank c = false) : IsPart part where
  ne_nil := hne
  head c hc := (h c (List.mem_of_mem_head? hc)).2
  last c hc := (h c (List.mem_of_mem_getLast? hc)).2
  not_mem_bar hbar := (h _ hbar).1 rfl

theorem map_trim_split (hne : parts ≠ []) (h : ∀ part ∈ parts, IsPart part)
    (before : List Char) (hbefore : ∀ c ∈ before, Text.isBlank c = true) :
    (Text.split '|' (before ++ List.intercalate bar parts)).map Text.trim = parts := by
  have hnobar : ∀ {s : List Char}, (∀ c ∈ s, Text.isBlank c = true) → '|' ∉ s := fun hs hmem =>
    absurd (hs _ hmem) (by decide)
  have hblank : ∀ c ∈ [' '], Text.isBlank c = true := List.forall_mem_singleton.mpr rfl
  induction parts generalizing before with
  | nil => exact absurd rfl hne
  | cons part rest ih =>
    obtain ⟨hpart, hrest⟩ := List.forall_mem_cons.mp h
    cases rest with
    | nil =>
      have hsplit : '|' ∉ before ++ part := by
        rw [List.mem_append, not_or]
        exact ⟨hnobar hbefore, hpart.not_mem_bar⟩
      have htrim := hpart.trim_between hbefore (List.forall_mem_nil _)
      rw [List.append_nil] at htrim
      rw [List.intercalate_singleton, Text.split_of_not_mem hsplit, List.map_singleton, htrim]
    | cons next rest =>
      have htext : before ++ List.intercalate bar (part :: next :: rest) =
          before ++ (part ++ [' ']) ++ '|' :: ([' '] ++ List.intercalate bar (next :: rest)) := by
        rw [List.intercalate_cons_of_ne_nil (List.cons_ne_nil _ _)]
        simp [bar]
      have hsplit : '|' ∉ before ++ (part ++ [' ']) := by
        rw [List.mem_append, List.mem_append, not_or, not_or]
        exact ⟨hnobar hbefore, hpart.not_mem_bar, hnobar hblank⟩
      rw [htext, Text.split_append_cons, Text.split_of_not_mem hsplit, List.map_append,
        List.map_singleton, hpart.trim_between hbefore hblank,
        ih (List.cons_ne_nil _ _) hrest _ hblank, List.singleton_append]

theorem trim_intercalate_ne_nil (hne : parts ≠ []) (h : ∀ part ∈ parts, IsPart part) :
    Text.trim (List.intercalate bar parts) ≠ [] := by
  intro hnil
  have hblank := Text.isBlank_of_trim_eq_nil hnil
  have hparts := map_trim_split hne h [] (List.forall_mem_nil _)
  have hnobar : '|' ∉ List.intercalate bar parts := fun hmem =>
    absurd (hblank _ hmem) (by decide)
  rw [List.nil_append, Text.split_of_not_mem hnobar, List.map_singleton, hnil] at hparts
  exact (h [] (hparts ▸ List.mem_cons_self)).ne_nil rfl

theorem eq_digitChar_of_mem {n : Nat} {c : Char} (h : c ∈ Nat.toDigits 16 n) :
    ∃ i : Fin 16, c = Nat.digitChar i := by
  induction n using Nat.strongRecOn with
  | ind n ih =>
    rw [Nat.toDigits_eq_if (by decide)] at h
    split at h
    · rename_i hn
      exact ⟨⟨n, hn⟩, List.mem_singleton.mp h⟩
    · rcases List.mem_append.mp h with hfront | hlast
      · exact ih (n / 16) (by omega) hfront
      · exact ⟨⟨n % 16, Nat.mod_lt n (by decide)⟩, List.mem_singleton.mp hlast⟩

theorem plain_of_mem_toDigits {n : Nat} {c : Char} (h : c ∈ Nat.toDigits 16 n) :
    c ≠ '+' ∧ c ≠ '|' ∧ Text.isBlank c = false := by
  have hall : ∀ i : Fin 16, Nat.digitChar i ≠ '+' ∧ Nat.digitChar i ≠ '|' ∧
      Text.isBlank (Nat.digitChar i) = false := by decide
  obtain ⟨i, rfl⟩ := eq_digitChar_of_mem h
  exact hall i

theorem hexadecimalValue?_toDigits (n : Nat) :
    hexadecimalValue? (Nat.toDigits 16 n) = some n := by
  have hdigits : (Nat.toDigits 16 n).foldlM
      (fun n c => (Json.hexValue c).map (16 * n + ·)) 0 = some n := by
    induction n using Nat.strongRecOn with
    | ind n ih =>
      rw [Nat.toDigits_eq_if (by decide)]
      split
      · rename_i hn
        simp [Json.hexValue_digitChar hn]
      · have hlast := Json.hexValue_digitChar (Nat.mod_lt n (by decide : 16 > 0))
        have hsum : 16 * (n / 16) + n % 16 = n := Nat.div_add_mod n 16
        rw [List.foldlM_append, ih (n / 16) (by omega)]
        simp [hlast, hsum]
  cases htext : Nat.toDigits 16 n with
  | nil => exact absurd htext Nat.toDigits_ne_nil
  | cons c rest =>
    rw [htext] at hdigits
    exact hdigits

theorem readHexadecimal_toDigits (bits : UInt32) :
    readHexadecimal (Nat.toDigits 16 bits.toNat) = some bits := by
  unfold readHexadecimal
  split
  · rename_i rest h
    have hplus := plain_of_mem_toDigits (c := '+') (n := bits.toNat) (by simp [h])
    exact absurd rfl hplus.1
  · dsimp only
    rw [hexadecimalValue?_toDigits, Option.bind_some, if_pos bits.toNat_lt_size,
      UInt32.ofNat_toNat]

theorem isPart_hexadecimal (bits : UInt32) : IsPart (hexadecimal bits) := by
  refine isPart_of_forall (List.cons_ne_nil _ _) ?_
  refine List.forall_mem_cons.mpr ⟨by decide, List.forall_mem_cons.mpr ⟨by decide, ?_⟩⟩
  exact fun c hc => (plain_of_mem_toDigits hc).2

def union (sets : List UInt32) : UInt32 :=
  sets.foldl (· ||| ·) 0

theorem union_append (sets sets' : List UInt32) :
    union (sets ++ sets') = union sets ||| union sets' := by
  have hzero : union sets = union sets ||| 0 := UInt32.or_zero.symm
  rw [union, List.foldl_append]
  change sets'.foldl (· ||| ·) (union sets) = _
  rw [hzero, List.foldl_assoc, UInt32.or_zero]
  rfl

theorem union_cons (set : UInt32) (sets : List UInt32) :
    union (set :: sets) = set ||| union sets := by
  rw [← List.singleton_append, union_append, union, List.foldl_cons, List.foldl_nil,
    UInt32.zero_or]

theorem and_or_distrib (a b c : UInt32) : a &&& (b ||| c) = a &&& b ||| a &&& c := by
  refine UInt32.toNat_inj.mp ?_
  rw [UInt32.toNat_and, UInt32.toNat_or, UInt32.toNat_or, UInt32.toNat_and, UInt32.toNat_and]
  exact Nat.and_or_distrib_left _ _ _

theorem and_bit (bits : UInt32) {flag : UInt32} (h : ∃ i : Fin 32, flag.toNat = 2 ^ i.1) :
    bits &&& flag = 0 ∨ bits &&& flag = flag := by
  obtain ⟨i, hi⟩ := h
  have hand : (bits &&& flag).toNat = (bits.toNat.testBit i.1).toNat * 2 ^ i.1 := by
    rw [UInt32.toNat_and, hi, Nat.and_two_pow]
  cases hbit : bits.toNat.testBit i.1 with
  | false =>
    rw [hbit] at hand
    exact .inl (UInt32.toNat_inj.mp (by simpa using hand))
  | true =>
    rw [hbit] at hand
    exact .inr (UInt32.toNat_inj.mp (by simpa [hi] using hand))

theorem union_filter {flags : List UInt32}
    (h : ∀ flag ∈ flags, ∃ i : Fin 32, flag.toNat = 2 ^ i.1) (bits : UInt32) :
    union (flags.filter fun flag => bits &&& flag != 0) = bits &&& union flags := by
  induction flags with
  | nil => exact UInt32.and_zero.symm
  | cons flag flags ih =>
    obtain ⟨hflag, hflags⟩ := List.forall_mem_cons.mp h
    have ih := ih hflags
    rw [union_cons, and_or_distrib, ← ih]
    by_cases hnone : bits &&& flag = 0
    · rw [List.filter_cons_of_neg (by simpa using hnone), hnone, UInt32.zero_or]
    · have hall := (and_bit bits hflag).resolve_left hnone
      rw [List.filter_cons_of_pos (by simpa using hnone), union_cons, hall]

theorem and_not_union {flag : UInt32} {flags : List UInt32} (h : flag ∈ flags) :
    flag &&& ~~~union flags = 0 := by
  obtain ⟨before, behind, rfl⟩ := List.append_of_mem h
  generalize hrest : union (before ++ flag :: behind) = all
  have hall : all = flag ||| (union before ||| union behind) := by
    rw [← hrest, union_append, union_cons, ← UInt32.or_assoc, ← UInt32.or_assoc,
      UInt32.or_comm (union before)]
  have hnone : ~~~all &&& (flag ||| (union before ||| union behind)) = 0 := by
    rw [← hall, UInt32.and_comm, UInt32.and_not_self]
  rw [and_or_distrib, UInt32.or_eq_zero_iff] at hnone
  rw [UInt32.and_comm]
  exact hnone.1

/-- Names that can be read back: each name is one part of a text and no number, and each flag that
is written is a bit of its own. -/
structure Readable (f : FlagNames) : Prop where
  distinct : ((f.single ++ f.groups).map Prod.fst).Nodup
  plain : ∀ flag ∈ f.single, flag.1.toList ≠ [] ∧
    flag.1.toList.all fun c => c ≠ '|' ∧ Text.isBlank c = false
  not_number : ∀ flag ∈ f.single, ¬ ['0', 'x'] <+: flag.1.toList
  isBit : ∀ flag ∈ f.single, ∃ i : Fin 32, flag.2.toNat = 2 ^ i.1
  disjoint : f.single.Pairwise fun flag flag' => flag.2 &&& flag'.2 = 0

def partSets (f : FlagNames) (bits : UInt32) : List UInt32 :=
  (f.single.map Prod.snd).filter (fun flag => bits &&& flag != 0) ++
    if f.unknown bits = 0 then [] else [f.unknown bits]

variable {f : FlagNames}

theorem known_eq_union (f : FlagNames) : f.known = union (f.single.map Prod.snd) := by
  rw [union, List.foldl_map]
  rfl

namespace Readable

theorem readPart_name (h : f.Readable) {flag : String × UInt32} (hflag : flag ∈ f.single) :
    f.readPart flag.1.toList = some flag.2 := by
  unfold readPart
  split
  · rename_i digits hname
    exact absurd (hname ▸ ⟨digits, rfl⟩) (h.not_number flag hflag)
  · rw [String.ofList_toList]
    exact (lookup_eq_some_iff_mem h.distinct).mpr (List.mem_append_left _ hflag)

theorem mapM_parts (h : f.Readable) (bits : UInt32) :
    (f.parts bits).mapM f.readPart = some (f.partSets bits) := by
  have hnames : ∀ flags : List (String × UInt32), (∀ flag ∈ flags, flag ∈ f.single) →
      (flags.map fun flag => flag.1.toList).mapM f.readPart = some (flags.map Prod.snd) := by
    intro flags hflags
    induction flags with
    | nil => rfl
    | cons flag flags ih =>
      obtain ⟨hflag, hrest⟩ := List.forall_mem_cons.mp hflags
      simp [h.readPart_name hflag, ih hrest]
  have hnumber : f.readPart (hexadecimal (f.unknown bits)) = some (f.unknown bits) :=
    readHexadecimal_toDigits _
  have hwritten := hnames (f.single.filter fun flag => bits &&& flag.2 != 0) fun flag hflag =>
    (List.mem_filter.mp hflag).1
  have hsets : (f.single.map Prod.snd).filter (fun flag => bits &&& flag != 0) =
      (f.single.filter fun flag => bits &&& flag.2 != 0).map Prod.snd := List.filter_map
  have htexts : (f.namesOf bits).map String.toList =
      (f.single.filter fun flag => bits &&& flag.2 != 0).map fun flag => flag.1.toList := by
    rw [namesOf, List.map_map]
    rfl
  rw [parts, partSets, List.mapM_append, htexts, hwritten, hsets]
  split
  · simp
  · simp [hnumber]

theorem union_partSets (h : f.Readable) (bits : UInt32) : union (f.partSets bits) = bits := by
  have hbits : ∀ flag ∈ f.single.map Prod.snd, ∃ i : Fin 32, flag.toNat = 2 ^ i.1 :=
    List.forall_mem_map.mpr h.isBit
  have hunknown : union (if f.unknown bits = 0 then [] else [f.unknown bits]) =
      bits &&& ~~~f.known := by
    split
    · rename_i hnone
      exact hnone.symm
    · rw [union_cons]
      exact UInt32.or_zero
  rw [partSets, union_append, union_filter hbits, hunknown, ← known_eq_union, ← and_or_distrib,
    UInt32.or_not_self, UInt32.and_neg_one]

theorem pairwise_partSets (h : f.Readable) (bits : UInt32) :
    (f.partSets bits).Pairwise fun set set' => set &&& set' = 0 := by
  have hflags : (f.single.map Prod.snd).Pairwise fun flag flag' => flag &&& flag' = 0 :=
    h.disjoint.map Prod.snd fun _ _ hpair => hpair
  refine List.pairwise_append.mpr ⟨hflags.filter _, ?_, fun flag hflag set hset => ?_⟩
  · split
    · exact .nil
    · exact List.pairwise_singleton _ _
  · split at hset
    · cases hset
    · have hmem := (List.mem_filter.mp hflag).1
      rw [List.mem_singleton.mp hset, unknown, known_eq_union, UInt32.and_comm bits,
        ← UInt32.and_assoc, and_not_union hmem, UInt32.zero_and]

theorem isPart_of_mem_parts (h : f.Readable) {bits : UInt32} {part : List Char}
    (hpart : part ∈ f.parts bits) : IsPart part := by
  rcases List.mem_append.mp hpart with hname | hnumber
  · rw [namesOf, List.map_map] at hname
    obtain ⟨flag, hflag, rfl⟩ := List.mem_map.mp hname
    obtain ⟨hne, hplain⟩ := h.plain flag (List.mem_filter.mp hflag).1
    exact isPart_of_forall hne (by simpa using hplain)
  · split at hnumber
    · cases hnumber
    · rw [List.mem_singleton.mp hnumber]
      exact isPart_hexadecimal _

theorem read_written (h : f.Readable) (bits : UInt32) : f.read (f.write bits) = some bits := by
  have hparts := h.mapM_parts bits
  have hunion := h.union_partSets bits
  rw [read, write]
  by_cases hnil : f.parts bits = []
  · rw [hnil] at hparts ⊢
    obtain rfl : bits = 0 := by
      rw [← hunion, ← Option.some.inj hparts]
      rfl
    rfl
  · have htrim := trim_intercalate_ne_nil hnil fun part => h.isPart_of_mem_parts
    have hsplit := map_trim_split hnil (fun part => h.isPart_of_mem_parts) []
      (List.forall_mem_nil _)
    rw [List.nil_append] at hsplit
    rw [if_neg (by simpa using htrim), hsplit, hparts]
    exact congrArg some hunion

end Readable

end FlagNames

theorem Modifiers.readable_names : names.Readable where
  distinct := by decide
  plain := by decide
  not_number := by decide
  isBit := by decide
  disjoint := by decide

theorem ContainerRole.readable_names : names.Readable where
  distinct := by decide
  plain := by decide
  not_number := by decide
  isBit := by decide
  disjoint := by decide

/-- The text of a set of modifiers or of roles is read as the set. Each of its bits is in one part
of the text, the bits without a name too, so what has been read from any text can be written. -/
theorem FlagNames.read_as_written : ∀ f ∈ [Modifiers.names, ContainerRole.names],
    (∀ bits, f.read (f.write bits) = some bits ∧
      ∃ sets, (f.parts bits).mapM f.readPart = some sets ∧
        (sets.Pairwise fun set set' => set &&& set' = 0) ∧ sets.foldl (· ||| ·) 0 = bits) ∧
    ∀ text bits, f.read text = some bits → f.read (f.write bits) = some bits := by
  intro f hf
  have h : f.Readable := by
    rcases List.mem_pair.mp hf with rfl | rfl
    · exact Modifiers.readable_names
    · exact ContainerRole.readable_names
  refine ⟨fun bits => ⟨h.read_written bits, f.partSets bits, h.mapM_parts bits,
    h.pairwise_partSets bits, h.union_partSets bits⟩, fun text bits _ => h.read_written bits⟩

/-- A group of flags and bits without a name, with blanks around the bar. -/
def Modifiers.groupText : List Char :=
  " ACCESSIBILITY |0x80000010".toList

theorem Modifiers.groupText_read_as_written :
    names.read groupText = some 0x80000017 ∧
      names.write 0x80000017 = "PUBLIC | PRIVATE | PROTECTED | 0x80000010".toList ∧
      names.read (names.write 0x80000017) = some 0x80000017 := by
  have hread : names.read groupText = some 0x80000017 := by decide +kernel
  have hwrite : names.write 0x80000017 = "PUBLIC | PRIVATE | PROTECTED | 0x80000010".toList := by
    decide +kernel
  have h := FlagNames.read_as_written names (by simp)
  exact ⟨hread, hwrite, h.2 _ _ hread⟩

end TypeAtlas
