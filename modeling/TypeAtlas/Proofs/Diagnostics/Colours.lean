import TypeAtlas.Diagnostics.Rendering
import TypeAtlas.Proofs.Diagnostics.Filling
import TypeAtlas.Proofs.Sequences
import TypeAtlas.Proofs.Text.Replacing

/-! Reports in colours say the same as plain ones. Taking the colour sequences out of a text goes
through the text from left to right and needs to know nothing of how it was made. -/

namespace TypeAtlas

namespace Colour

def isParameter (c : Char) : Bool :=
  c.isDigit || c = ';'

/-- What stands behind the rest of a colour sequence: an opening bracket, numbers with semicolons
between them, and `m`. -/
def behindSequence? : List Char → Option (List Char)
  | '[' :: rest =>
    match rest.dropWhile isParameter with
    | 'm' :: behind => some behind
    | _ => none
  | _ => none

theorem length_behindSequence? {s behind : List Char} (h : behindSequence? s = some behind) :
    behind.length < s.length := by
  unfold behindSequence? at h
  split at h
  · rename_i rest
    have hrest : (rest.dropWhile isParameter).length ≤ rest.length :=
      (List.dropWhile_suffix isParameter).length_le
    split at h
    · rename_i hdrop
      cases h
      rw [hdrop, List.length_cons] at hrest
      rw [List.length_cons]
      omega
    · cases h
  · cases h

/-- A text without the colour sequences in it. An escape character that begins none of them
stays. -/
def strip : List Char → List Char
  | [] => []
  | c :: rest =>
    if c = '\x1b' then
      match _ : behindSequence? rest with
      | some behind => strip behind
      | none => c :: strip rest
    else c :: strip rest
termination_by s => s.length
decreasing_by
  · rename_i hbehind
    have hlength := length_behindSequence? hbehind
    simp only [List.length_cons]
    omega
  · simp
  · simp

def stripped (text : String) : String :=
  String.ofList (strip text.toList)

theorem strip_append_of_not_mem {s : List Char} (h : '\x1b' ∉ s) (rest : List Char) :
    strip (s ++ rest) = s ++ strip rest := by
  induction s with
  | nil => rfl
  | cons c s ih =>
    rw [List.mem_cons, not_or] at h
    rw [List.cons_append, strip, if_neg (Ne.symm h.1), ih h.2, List.cons_append]

theorem strip_sequence (parameters : List Char) (h : ∀ c ∈ parameters, isParameter c = true)
    (rest : List Char) : strip ('\x1b' :: '[' :: (parameters ++ 'm' :: rest)) = strip rest := by
  have hdrop : (parameters ++ 'm' :: rest).dropWhile isParameter = 'm' :: rest :=
    dropWhile_append_eq h (by simp [isParameter])
  have hbehind : behindSequence? ('[' :: (parameters ++ 'm' :: rest)) = some rest := by
    simp only [behindSequence?, hdrop]
  rw [strip, if_pos rfl]
  split
  · rename_i behind h
    rw [hbehind] at h
    rw [Option.some.inj h]
  · rename_i h
    rw [hbehind] at h
    cases h

theorem strip_start (c : Colour) (rest : List Char) :
    strip (c.start.toList ++ rest) = strip rest := by
  have hparameters : ∀ p ∈ c.parameters.toList, isParameter p = true := by
    cases c <;> simp [parameters, isParameter]
  have htext : c.start.toList ++ rest =
      '\x1b' :: '[' :: (c.parameters.toList ++ 'm' :: rest) := by
    simp [start]
  rw [htext, strip_sequence _ hparameters]

theorem strip_reset (rest : List Char) : strip (reset.toList ++ rest) = strip rest :=
  strip_sequence ['0'] (List.forall_mem_singleton.mpr rfl) rest

theorem replaceAll_reset {s : List Char} (h : '\x1b' ∉ s) (new : List Char) :
    Text.replaceAll reset.toList new s = s := by
  have hreset : '\x1b' ∉ ['[', '0', 'm'] := by decide
  have hnone : Text.occurrences reset.toList s = 0 := by
    have hfront : Text.occurrences reset.toList (s ++ []) = Text.occurrences reset.toList [] :=
      Text.occurrences_append_of_not_mem h
    rwa [List.append_nil] at hfront
  exact (Text.replaced_replaceAll '\x1b' ['[', '0', 'm'] new s).eq_self hreset hnone

/-- Without its colour sequences one text is the other, whatever stands behind them. -/
def StripsTo (text plain : String) : Prop :=
  ∀ rest, strip (text.toList ++ rest) = plain.toList ++ strip rest

namespace StripsTo

variable {text plain text' plain' : String}

theorem stripped_eq (h : StripsTo text plain) : stripped text = plain := by
  have hend := h []
  rw [List.append_nil, strip, List.append_nil] at hend
  rw [stripped, hend, String.ofList_toList]

theorem empty : StripsTo "" "" :=
  fun _ => rfl

theorem of_not_mem (h : '\x1b' ∉ text.toList) : StripsTo text text :=
  strip_append_of_not_mem h

theorem append (h : StripsTo text plain) (h' : StripsTo text' plain') :
    StripsTo (text ++ text') (plain ++ plain') := by
  intro rest
  rw [String.toList_append, String.toList_append, List.append_assoc, h, h', List.append_assoc]

variable {α : Type} {f g : α → String} {l : List α}

theorem join (h : ∀ x ∈ l, StripsTo (f x) (g x)) :
    StripsTo (String.join (l.map f)) (String.join (l.map g)) := by
  induction l with
  | nil => exact empty
  | cons x l ih =>
    obtain ⟨hx, hl⟩ := List.forall_mem_cons.mp h
    simpa using hx.append (ih hl)

theorem intercalate {separator : String} (hseparator : '\x1b' ∉ separator.toList)
    (h : ∀ x ∈ l, StripsTo (f x) (g x)) :
    StripsTo (separator.intercalate (l.map f)) (separator.intercalate (l.map g)) := by
  induction l with
  | nil => exact empty
  | cons x l ih =>
    obtain ⟨hx, hl⟩ := List.forall_mem_cons.mp h
    cases l with
    | nil => simpa using hx
    | cons y l =>
      have hfront := hx.append (of_not_mem hseparator)
      simpa using hfront.append (ih hl)

theorem paintIf (c : Colour) (h : '\x1b' ∉ text.toList) :
    StripsTo (c.paintIf true text) (c.paintIf false text) := by
  intro rest
  have hpaint : (c.paintIf true text).toList ++ rest =
      c.start.toList ++ (text.toList ++ (reset.toList ++ rest)) := by
    simp [Colour.paintIf, paint, replaceAll_reset h]
  have hplain : c.paintIf false text = text := rfl
  rw [hpaint, hplain, strip_start, strip_append_of_not_mem h, strip_reset]

end StripsTo

end Colour

/-- A diagnostic that brings no escape characters of its own. -/
structure Diagnostic.IsPlain (d : Diagnostic) : Prop where
  file : '\x1b' ∉ d.file.toList
  text : '\x1b' ∉ d.text.toList
  related : ∀ r ∈ d.related, '\x1b' ∉ r.file.toList ∧ '\x1b' ∉ r.text.toList

open Colour

theorem not_mem_toString (n : Nat) : '\x1b' ∉ (toString n).toList := by
  rw [Nat.toString_eq_repr, Nat.toList_repr]
  exact not_mem_toDigits (by decide) n

theorem stripsTo_location {file : String} (h : '\x1b' ∉ file.toList) (start : UInt32) :
    Option.Rel StripsTo (location? true file start) (location? false file start) := by
  cases hfile : file.isEmpty with
  | true =>
    have hnone : ∀ colored, location? colored file start = none := fun _ => if_pos hfile
    rw [hnone, hnone]
    exact .none
  | false =>
    have hsome : ∀ colored, location? colored file start =
        some (cyan.paintIf colored (file ++ ":" ++ toString start.toNat)) := fun _ =>
      if_neg (by simp [hfile])
    have hplace : '\x1b' ∉ (file ++ ":" ++ toString start.toNat).toList := by
      rw [String.toList_append, String.toList_append, List.mem_append, List.mem_append]
      rintro ((hmem | hmem) | hmem)
      · exact h hmem
      · exact absurd hmem (by decide)
      · exact not_mem_toString _ hmem
    rw [hsome, hsome]
    exact .some (.paintIf cyan hplace)

theorem stripsTo_renderCode (code : UInt32) :
    StripsTo (Diagnostic.renderCode true code) (Diagnostic.renderCode false code) := by
  by_cases hcode : code = 0
  · subst hcode
    exact .empty
  · have hlabel : '\x1b' ∉ ("TS" ++ toString code.toNat).toList := by
      rw [String.toList_append, List.mem_append]
      rintro (hmem | hmem)
      · exact absurd hmem (by decide)
      · exact not_mem_toString _ hmem
    rw [Diagnostic.renderCode, Diagnostic.renderCode, if_neg hcode, if_neg hcode]
    exact (StripsTo.of_not_mem (by decide)).append (.paintIf brightBlue hlabel)

theorem RelatedInformation.stripsTo_render {r : RelatedInformation}
    (hfile : '\x1b' ∉ r.file.toList) (htext : '\x1b' ∉ r.text.toList) :
    StripsTo (r.render true) (r.render false) := by
  have hlabel : StripsTo (dim.paintIf true "  Related" ++ ": ")
      (dim.paintIf false "  Related" ++ ": ") :=
    (StripsTo.paintIf dim (by decide)).append (.of_not_mem (by decide))
  have hlocation : StripsTo ((location? true r.file r.start).getD "<global>")
      ((location? false r.file r.start).getD "<global>") := by
    have hplaces := stripsTo_location hfile r.start
    generalize location? true r.file r.start = place, location? false r.file r.start = place'
      at hplaces
    cases hplaces with
    | some hplace => exact hplace
    | none => exact .of_not_mem (by decide)
  exact ((hlabel.append hlocation).append (.of_not_mem (by decide))).append (.of_not_mem htext)

theorem Diagnostic.IsPlain.stripsTo_render {d : Diagnostic} (h : d.IsPlain) :
    StripsTo (d.render true) (d.render false) := by
  have hlocation : StripsTo (((location? true d.file d.start).map (· ++ " - ")).getD "")
      (((location? false d.file d.start).map (· ++ " - ")).getD "") := by
    have hplaces := stripsTo_location h.file d.start
    generalize location? true d.file d.start = place, location? false d.file d.start = place'
      at hplaces
    cases hplaces with
    | some hplace => exact hplace.append (.of_not_mem (by decide))
    | none => exact .of_not_mem (by decide)
  have hcategory : StripsTo (d.category.colour.paintIf true d.category.label)
      (d.category.colour.paintIf false d.category.label) :=
    .paintIf _ (by cases d.category <;> decide)
  have hrelated : StripsTo (String.join (d.related.map fun r => "\n" ++ r.render true))
      (String.join (d.related.map fun r => "\n" ++ r.render false)) := by
    refine .join fun r hr => (StripsTo.of_not_mem (by decide)).append ?_
    exact RelatedInformation.stripsTo_render (h.related r hr).1 (h.related r hr).2
  have hcolon : StripsTo ": " ": " := .of_not_mem (by decide)
  have hfront := (hlocation.append hcategory).append (stripsTo_renderCode d.code)
  have htext := (hfront.append hcolon).append (.of_not_mem h.text)
  exact htext.append hrelated

theorem Diagnostics.not_mem_summary (diagnostics : List Diagnostic) :
    '\x1b' ∉ (summary diagnostics).toList := by
  have hnoun : ∀ count, '\x1b' ∉ (if count = 1 then " error." else " errors.").toList := by
    intro count
    split <;> decide
  rw [summary, String.toList_append, String.toList_append, List.mem_append, List.mem_append]
  rintro ((hmem | hmem) | hmem)
  · exact absurd hmem (by decide)
  · exact not_mem_toString _ hmem
  · exact hnoun _ hmem

/-- Without its colour sequences a report in colours is the plain one, message by message and as a
whole; the last line of a report has no colours. -/
theorem Diagnostics.stripped_render {diagnostics : List Diagnostic}
    (h : ∀ d ∈ diagnostics, d.IsPlain) :
    stripped (render true diagnostics) = render false diagnostics ∧
      (∀ d ∈ diagnostics, stripped (d.render true) = d.render false) ∧
      stripped (summary diagnostics) = summary diagnostics := by
  have heach : ∀ d ∈ diagnostics, StripsTo (d.render true) (d.render false) := fun d hd =>
    (h d hd).stripsTo_render
  have hall : StripsTo (render true diagnostics) (render false diagnostics) :=
    .intercalate (by decide) heach
  exact ⟨hall.stripped_eq, fun d hd => (heach d hd).stripped_eq,
    (StripsTo.of_not_mem (not_mem_summary diagnostics)).stripped_eq⟩

/-- A message about a place in a file, with one about the whole program behind it. -/
def Diagnostic.locatedAndRelated : Diagnostic :=
  { file := "a.ts", start := 12, length := 3, text := "Wrong.", category := .error, code := 5014,
    related := [⟨"", 0, 0, "See [0m.", .message, 0⟩] }

theorem Diagnostics.stripped_locatedAndRelated :
    Diagnostic.locatedAndRelated.IsPlain ∧
      render false [.locatedAndRelated] =
        "a.ts:12 - error TS5014: Wrong.\n  Related: <global> - See [0m." ∧
      stripped (render true [.locatedAndRelated]) = render false [.locatedAndRelated] := by
  have hplain : Diagnostic.locatedAndRelated.IsPlain := ⟨by decide, by decide, by decide⟩
  have htext : render false [.locatedAndRelated] =
      "a.ts:12 - error TS5014: Wrong.\n  Related: <global> - See [0m." := by
    decide +kernel
  have hall : ∀ d ∈ [Diagnostic.locatedAndRelated], d.IsPlain := by simpa using hplain
  exact ⟨hplain, htext, (stripped_render hall).1⟩

end TypeAtlas
