import TypeAtlas.Glob.Matching
import Mathlib.Data.List.Infix
import Mathlib.Tactic.Common

/-! What a pattern says, apart from how it is matched. Every token stands for a set of texts, and
the marks that matching moves are the ends of the texts that the tokens so far stand for. -/

namespace TypeAtlas

namespace Glob

mutual

/-- The texts that a token stands for. -/
def Matches : Token → List UInt8 → Prop
  | .literal c, s => s = String.utf8EncodeChar c
  | .any, s => ∃ b, s = [b] ∧ b ≠ slash
  | .star, s => slash ∉ s
  | .anyFront, s => s = [] ∨ ∃ front, s = front ++ [slash]
  | .anyBelow, s => ∃ below, s = slash :: below
  | .anyBetween, s => s = [slash] ∨ ∃ between, s = slash :: (between ++ [slash])
  | .inSet set, s => ∃ b, s = [b] ∧ set.contains b = true
  | .choice alternatives, s =>
    areVacuous alternatives = true ∧ s = [] ∨
      areVacuous alternatives = false ∧ MatchesAny alternatives s

def MatchesAll : List Token → List UInt8 → Prop
  | [], s => s = []
  | token :: tokens, s => ∃ front rest, s = front ++ rest ∧ Matches token front ∧
      MatchesAll tokens rest

/-- Only alternatives that are more than the empty text count. -/
def MatchesAny : List (List Token) → List UInt8 → Prop
  | [], _ => False
  | tokens :: alternatives, s =>
    isVacuousSequence tokens = false ∧ MatchesAll tokens s ∨ MatchesAny alternatives s

end

namespace Marks

/-- A beginning of a text the end of which is marked. -/
inductive Ends : List UInt8 → Marks → List UInt8 → Prop
  | here {s marks} : Ends s (true :: marks) []
  | there {b rest mark marks front} (h : Ends rest marks front) :
    Ends (b :: rest) (mark :: marks) (b :: front)

/-- Marks have been moved over the texts of a language. -/
structure Moved (language : List UInt8 → Prop) (s : List UInt8) (marks moved : Marks) : Prop where
  length : moved.length = s.length + 1
  ends : ∀ u, Ends s moved u ↔
    u <+: s ∧ ∃ front rest, u = front ++ rest ∧ Ends s marks front ∧ language rest

variable {s u : List UInt8} {marks moved moved' : Marks} {mark : Bool} {b : UInt8}
  {p : UInt8 → Bool} {L L' : List UInt8 → Prop}

theorem Ends.isBeginning (h : Ends s marks u) : u <+: s := by
  induction h with
  | here => exact List.nil_prefix
  | there _ ih => exact List.cons_prefix_cons.mpr ⟨rfl, ih⟩

theorem ends_nil_iff : Ends s (mark :: marks) [] ↔ mark = true := by
  constructor
  · rintro ⟨⟩
    rfl
  · rintro rfl
    exact .here

theorem ends_cons_iff {c : UInt8} :
    Ends (b :: s) (mark :: marks) (c :: u) ↔ c = b ∧ Ends s marks u := by
  constructor
  · intro h
    cases h with
    | there h => exact ⟨rfl, h⟩
  · rintro ⟨rfl, h⟩
    exact .there h

theorem not_ends_nil : ¬ Ends s [] u := nofun

theorem not_ends_cons {c : UInt8} : ¬ Ends [] marks (c :: u) := by
  intro h
  cases List.prefix_nil.mp h.isBeginning

theorem Ends.true_mem (h : Ends s marks u) : true ∈ marks := by
  induction h with
  | here => exact List.mem_cons_self
  | there _ ih => exact List.mem_cons_of_mem _ ih

theorem ends_start : Ends s (start s) u ↔ u = [] := by
  constructor
  · intro h
    cases h with
    | here => rfl
    | there h =>
      have hunmarked := h.true_mem
      simp at hunmarked
  · rintro rfl
    exact .here

theorem atEnd_iff (h : marks.length = s.length + 1) : atEnd marks = true ↔ Ends s marks s := by
  induction s generalizing marks with
  | nil =>
    obtain ⟨mark, rfl⟩ := List.length_eq_one_iff.mp h
    rw [ends_nil_iff]
    rfl
  | cons b s ih =>
    obtain ⟨mark, marks, rfl⟩ := List.exists_cons_of_length_eq_add_one h
    have hlength : marks.length = s.length + 1 := Nat.succ.inj h
    have hne : marks ≠ [] := List.ne_nil_of_length_eq_add_one hlength
    rw [ends_cons_iff, ← ih hlength, and_iff_right rfl, atEnd, atEnd,
      List.getLast?_cons_of_ne_nil hne]

theorem Moved.congr (h : Moved L s marks moved) (hL : ∀ t, L t ↔ L' t) :
    Moved L' s marks moved where
  length := h.length
  ends u := by simp only [h.ends, hL]

theorem moved_self (h : marks.length = s.length + 1) : Moved (· = []) s marks marks where
  length := h
  ends u := by
    constructor
    · intro hu
      exact ⟨hu.isBeginning, u, [], (List.append_nil u).symm, hu, rfl⟩
    · rintro ⟨-, front, rest, rfl, hfront, rfl⟩
      rwa [List.append_nil]

theorem Moved.trans (h : Moved L s marks moved) (h' : Moved L' s moved moved') :
    Moved (fun t => ∃ front rest, t = front ++ rest ∧ L front ∧ L' rest) s marks moved' where
  length := h'.length
  ends u := by
    rw [h'.ends]
    refine and_congr_right fun hu => ?_
    constructor
    · rintro ⟨front, rest, rfl, hfront, hrest⟩
      obtain ⟨-, first, second, rfl, hfirst, hsecond⟩ := (h.ends _).mp hfront
      exact ⟨first, second ++ rest, List.append_assoc .., hfirst, second, rest, rfl, hsecond, hrest⟩
    · rintro ⟨first, _, rfl, hfirst, second, rest, rfl, hsecond, hrest⟩
      rw [← List.append_assoc] at hu
      have hfront : first ++ second <+: s := (List.prefix_append _ rest).trans hu
      refine ⟨first ++ second, rest, (List.append_assoc ..).symm, ?_, hrest⟩
      exact (h.ends _).mpr ⟨hfront, first, second, rfl, hfirst, hsecond⟩

theorem length_union : (union marks moved).length = min marks.length moved.length :=
  List.length_zipWith

theorem ends_union (h : marks.length = moved.length) :
    Ends s (union marks moved) u ↔ Ends s marks u ∨ Ends s moved u := by
  induction marks generalizing moved s u with
  | nil =>
    obtain rfl := List.length_eq_zero_iff.mp h.symm
    simp [union, not_ends_nil]
  | cons mark marks ih =>
    obtain ⟨mark', moved, rfl⟩ := List.exists_cons_of_length_eq_add_one h.symm
    have hunion : union (mark :: marks) (mark' :: moved) = (mark || mark') :: union marks moved :=
      rfl
    rw [hunion]
    cases u with
    | nil => simp [ends_nil_iff]
    | cons c u =>
      cases s with
      | nil => simp [not_ends_cons]
      | cons b s => simp only [ends_cons_iff, ih (Nat.succ.inj h), and_or_left]

theorem Moved.union (h : Moved L s marks moved) (h' : Moved L' s marks moved') :
    Moved (fun t => L t ∨ L' t) s marks (union moved moved') where
  length := by rw [length_union, h.length, h'.length, Nat.min_self]
  ends u := by
    rw [ends_union (h.length.trans h'.length.symm), h.ends, h'.ends]
    constructor
    · rintro (⟨hu, front, rest, rfl, hfront, hrest⟩ | ⟨hu, front, rest, rfl, hfront, hrest⟩)
      · exact ⟨hu, front, rest, rfl, hfront, .inl hrest⟩
      · exact ⟨hu, front, rest, rfl, hfront, .inr hrest⟩
    · rintro ⟨hu, front, rest, rfl, hfront, hrest | hrest⟩
      · exact .inl ⟨hu, front, rest, rfl, hfront, hrest⟩
      · exact .inr ⟨hu, front, rest, rfl, hfront, hrest⟩

theorem moved_cleared (h : marks.length = s.length + 1) :
    Moved (fun _ => False) s marks marks.cleared where
  length := by rw [cleared, List.length_map, h]
  ends u := by
    refine ⟨fun hu => ?_, fun ⟨_, _, _, _, _, hfalse⟩ => hfalse.elim⟩
    have hunmarked := hu.true_mem
    simp [cleared] at hunmarked

theorem length_stepFrom (h : marks.length = s.length + 1) (reached : Bool) :
    (stepFrom p reached s marks).length = s.length + 1 := by
  induction s generalizing marks reached with
  | nil =>
    obtain ⟨mark, rfl⟩ := List.length_eq_one_iff.mp h
    rfl
  | cons b s ih =>
    obtain ⟨mark, marks, rfl⟩ := List.exists_cons_of_length_eq_add_one h
    rw [stepFrom, List.length_cons, ih (Nat.succ.inj h), List.length_cons]

theorem ends_stepFrom (h : marks.length = s.length + 1) (reached : Bool) :
    Ends s (stepFrom p reached s marks) u ↔ u = [] ∧ reached = true ∨
      u <+: s ∧ ∃ front b, u = front ++ [b] ∧ Ends s marks front ∧ p b = true := by
  induction s generalizing marks reached u with
  | nil =>
    obtain ⟨mark, rfl⟩ := List.length_eq_one_iff.mp h
    cases u with
    | nil => simp [stepFrom, ends_nil_iff]
    | cons c u => simp [not_ends_cons]
  | cons b s ih =>
    obtain ⟨mark, marks, rfl⟩ := List.exists_cons_of_length_eq_add_one h
    rw [stepFrom]
    cases u with
    | nil => simp [ends_nil_iff]
    | cons c u =>
      rw [ends_cons_iff, ih (Nat.succ.inj h)]
      constructor
      · rintro ⟨rfl, ⟨rfl, hmark⟩ | ⟨hu, front, b', rfl, hfront, hb⟩⟩
        · obtain ⟨hmark, hc⟩ := Bool.and_eq_true_iff.mp hmark
          exact .inr ⟨List.prefix_append [c] s, [], c, rfl, ends_nil_iff.mpr hmark, hc⟩
        · exact .inr ⟨List.cons_prefix_cons.mpr ⟨rfl, hu⟩, c :: front, b', rfl, .there hfront, hb⟩
      · rintro (⟨⟨⟩, -⟩ | ⟨hu, front, b', heq, hfront, hb⟩)
        obtain ⟨rfl, hrest⟩ := List.cons_prefix_cons.mp hu
        cases front with
        | nil =>
          obtain ⟨rfl, rfl⟩ := List.cons.inj heq
          exact ⟨rfl, .inl ⟨rfl, Bool.and_eq_true_iff.mpr ⟨ends_nil_iff.mp hfront, hb⟩⟩⟩
        | cons d front =>
          obtain ⟨rfl, rfl⟩ := List.cons.inj heq
          exact ⟨rfl, .inr ⟨hrest, front, b', rfl, (ends_cons_iff.mp hfront).2, hb⟩⟩

theorem moved_step (h : marks.length = s.length + 1) (p : UInt8 → Bool) :
    Moved (fun t => ∃ b, t = [b] ∧ p b = true) s marks (step p s marks) where
  length := length_stepFrom h false
  ends u := by
    rw [step, ends_stepFrom h]
    constructor
    · rintro (⟨-, ⟨⟩⟩ | ⟨hu, front, b, rfl, hfront, hb⟩)
      exact ⟨hu, front, [b], rfl, hfront, b, rfl, hb⟩
    · rintro ⟨hu, front, _, rfl, hfront, b, rfl, hb⟩
      exact .inr ⟨hu, front, b, rfl, hfront, hb⟩

theorem length_spreadFrom (h : marks.length = s.length + 1) (reached : Bool) :
    (spreadFrom p reached s marks).length = s.length + 1 := by
  induction s generalizing marks reached with
  | nil =>
    obtain ⟨mark, rfl⟩ := List.length_eq_one_iff.mp h
    rfl
  | cons b s ih =>
    obtain ⟨mark, marks, rfl⟩ := List.exists_cons_of_length_eq_add_one h
    rw [spreadFrom, List.length_cons, ih (Nat.succ.inj h), List.length_cons]

theorem ends_spreadFrom (h : marks.length = s.length + 1) (reached : Bool) :
    Ends s (spreadFrom p reached s marks) u ↔ u <+: s ∧ (reached = true ∧ (∀ b ∈ u, p b = true) ∨
      ∃ front rest, u = front ++ rest ∧ Ends s marks front ∧ ∀ b ∈ rest, p b = true) := by
  induction s generalizing marks reached u with
  | nil =>
    obtain ⟨mark, rfl⟩ := List.length_eq_one_iff.mp h
    cases u with
    | nil => simp [spreadFrom, ends_nil_iff]
    | cons c u => simp [not_ends_cons]
  | cons b s ih =>
    obtain ⟨mark, marks, rfl⟩ := List.exists_cons_of_length_eq_add_one h
    rw [spreadFrom]
    cases u with
    | nil => simp [ends_nil_iff]
    | cons c u =>
      rw [ends_cons_iff, ih (Nat.succ.inj h)]
      constructor
      · rintro ⟨rfl, hu, ⟨hmark, hall⟩ | ⟨front, rest, rfl, hfront, hall⟩⟩
        · obtain ⟨hmark, hc⟩ := Bool.and_eq_true_iff.mp hmark
          have hall : ∀ b ∈ c :: u, p b = true := List.forall_mem_cons.mpr ⟨hc, hall⟩
          refine ⟨List.cons_prefix_cons.mpr ⟨rfl, hu⟩, ?_⟩
          rcases Bool.or_eq_true_iff.mp hmark with hreached | hmark
          · exact .inl ⟨hreached, hall⟩
          · exact .inr ⟨[], c :: u, rfl, ends_nil_iff.mpr hmark, hall⟩
        · refine ⟨List.cons_prefix_cons.mpr ⟨rfl, hu⟩, .inr ?_⟩
          exact ⟨c :: front, rest, rfl, .there hfront, hall⟩
      · rintro ⟨hu, hends⟩
        obtain ⟨rfl, hrest⟩ := List.cons_prefix_cons.mp hu
        refine ⟨rfl, hrest, ?_⟩
        rcases hends with ⟨hreached, hall⟩ | ⟨front, rest, heq, hfront, hall⟩
        · obtain ⟨hc, hall⟩ := List.forall_mem_cons.mp hall
          exact .inl ⟨by simp [hreached, hc], hall⟩
        · cases front with
          | nil =>
            obtain rfl : c :: u = rest := heq
            obtain ⟨hc, hall⟩ := List.forall_mem_cons.mp hall
            exact .inl ⟨by simp [ends_nil_iff.mp hfront, hc], hall⟩
          | cons d front =>
            obtain ⟨rfl, rfl⟩ := List.cons.inj heq
            exact .inr ⟨front, rest, rfl, (ends_cons_iff.mp hfront).2, hall⟩

theorem moved_spread (h : marks.length = s.length + 1) (p : UInt8 → Bool) :
    Moved (fun t => ∀ b ∈ t, p b = true) s marks (spread p s marks) where
  length := length_spreadFrom h false
  ends u := by simp [spread, ends_spreadFrom h]

theorem moved_bytes (h : marks.length = s.length + 1) (bytes : List UInt8) :
    Moved (· = bytes) s marks (bytes.foldl (fun marks b => step (· == b) s marks) marks) := by
  induction bytes generalizing marks with
  | nil => exact moved_self h
  | cons b bytes ih =>
    have hstep := moved_step h (· == b)
    refine (hstep.trans (ih hstep.length)).congr fun t => ?_
    simp

theorem moved_throughSlash (h : marks.length = s.length + 1) :
    Moved (· = [slash]) s marks (throughSlash s marks) :=
  (moved_step h (· == slash)).congr (by simp)

theorem moved_throughAll (h : marks.length = s.length + 1) :
    Moved (fun _ => True) s marks (throughAll s marks) :=
  (moved_spread h fun _ => true).congr (by simp)

mutual

theorem moved_through {marks : Marks} (h : marks.length = s.length + 1) :
    ∀ token, Moved (Matches token) s marks (through token s marks)
  | .literal c => (moved_bytes h _).congr (by simp [Matches])
  | .any => (moved_step h _).congr (by simp [Matches])
  | .star => by
    refine (moved_spread h _).congr fun t => ?_
    simp only [Matches, bne_iff_ne]
    constructor
    · intro hall hslash
      exact hall slash hslash rfl
    · rintro hslash b hb rfl
      exact hslash hb
  | .anyFront => by
    have hall := moved_throughAll h
    refine ((moved_self h).union (hall.trans (moved_throughSlash hall.length))).congr fun t => ?_
    simp [Matches]
  | .anyBelow => by
    have hslash := moved_throughSlash h
    refine (hslash.trans (moved_throughAll hslash.length)).congr fun t => ?_
    simp [Matches]
  | .anyBetween => by
    have hslash := moved_throughSlash h
    have hall := moved_throughAll hslash.length
    refine (hslash.union (hslash.trans
      (hall.trans (moved_throughSlash hall.length)))).congr fun t => ?_
    simp [Matches]
  | .inSet set => (moved_step h _).congr (by simp [Matches])
  | .choice alternatives => by
    simp only [through]
    split
    · rename_i hvacuous
      exact (moved_self h).congr (by simp [Matches, hvacuous])
    · rename_i hvacuous
      exact (moved_throughAny h alternatives).congr (by simp [Matches, hvacuous])

theorem moved_throughSequence {marks : Marks} (h : marks.length = s.length + 1) :
    ∀ tokens, Moved (MatchesAll tokens) s marks (throughSequence tokens s marks)
  | [] => (moved_self h).congr (by simp [MatchesAll])
  | token :: tokens => by
    have htoken := moved_through h token
    exact (htoken.trans (moved_throughSequence htoken.length tokens)).congr (by simp [MatchesAll])

theorem moved_throughAny {marks : Marks} (h : marks.length = s.length + 1) :
    ∀ alternatives, Moved (MatchesAny alternatives) s marks (throughAny alternatives s marks)
  | [] => (moved_cleared h).congr (by simp [MatchesAny])
  | tokens :: alternatives => by
    have hrest := moved_throughAny h alternatives
    simp only [throughAny]
    split
    · rename_i hvacuous
      exact hrest.congr (by simp [MatchesAny, hvacuous])
    · rename_i hvacuous
      exact ((moved_throughSequence h tokens).union hrest).congr (by simp [MatchesAny, hvacuous])

end

end Marks

theorem length_start (s : List UInt8) : (Marks.start s).length = s.length + 1 := by
  rw [Marks.start, List.length_cons, List.length_map]

/-- Matching decides whether a path is one of the texts that a pattern stands for. -/
theorem isMatch_iff {pattern : Pattern} {path : String} :
    isMatch pattern path = true ↔
      pattern = [.anyFront] ∨ MatchesAll pattern (bytes path.toList) := by
  have hmoved := Marks.moved_throughSequence (length_start (bytes path.toList)) pattern
  unfold isMatch
  rw [Bool.or_eq_true]
  refine or_congr ?_ ?_
  · split
    · simp
    · rename_i hother
      exact ⟨nofun, fun h => absurd h hother⟩
  · rw [Marks.atEnd_iff hmoved.length, hmoved.ends, and_iff_right (List.prefix_refl _)]
    simp only [Marks.ends_start]
    constructor
    · rintro ⟨_, rest, hpath, rfl, hrest⟩
      rw [hpath]
      exact hrest
    · intro hall
      exact ⟨[], _, rfl, rfl, hall⟩

end Glob

end TypeAtlas
