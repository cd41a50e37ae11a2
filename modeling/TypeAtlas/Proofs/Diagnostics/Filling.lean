import TypeAtlas.Diagnostics.Diagnostic
import TypeAtlas.Proofs.Sequences
import TypeAtlas.Proofs.Text.Replacing
import Mathlib.Data.List.Induction

/-! Filling templates. A template should be filled in one pass, with every argument as it is.
Arguments are put in one after the other instead, and so a text that an earlier one brings can
become the place of a later one. -/

namespace TypeAtlas

/-- A text read once from left to right, with every place of an argument replaced by the argument
and every other character kept. -/
inductive OnePass (args : List String) : List Char → List Char → Prop
  | nil : OnePass args [] []
  | place {i : Nat} {arg : String} {text filled : List Char} (h : args[i]? = some arg)
    (rest : OnePass args text filled) :
    OnePass args (placeholder i ++ text) (arg.toList ++ filled)
  | keep {c : Char} {text filled : List Char}
    (h : ∀ i < args.length, ¬ placeholder i <+: c :: text) (rest : OnePass args text filled) :
    OnePass args (c :: text) (c :: filled)

def closing (i : Nat) : List Char :=
  Nat.toDigits 10 i ++ ['}']

theorem placeholder_eq (i : Nat) : placeholder i = '{' :: closing i :=
  rfl

theorem not_mem_toDigits {c : Char} (h : c.isDigit = false) (i : Nat) :
    c ∉ Nat.toDigits 10 i := by
  intro hc
  rw [Nat.isDigit_of_mem_toDigits (by decide) (by decide) hc] at h
  cases h

theorem not_mem_closing (i : Nat) : '{' ∉ closing i := by
  rw [closing, List.mem_append, not_or]
  exact ⟨not_mem_toDigits (by decide) i, by decide⟩

theorem toDigits_inj {i j : Nat} (h : Nat.toDigits 10 i = Nat.toDigits 10 j) : i = j := by
  have hvalue := congrArg (fun digits => Nat.ofDigitChars 10 digits 0) h
  simpa [Nat.ofDigitChars_ten_toDigits] using hvalue

theorem placeholder_inj {i j : Nat} {text : List Char}
    (h : placeholder i <+: placeholder j ++ text) : i = j := by
  obtain ⟨rest, hrest⟩ := h
  have hdigits : ∀ (k : Nat) (text : List Char),
      (closing k ++ text).takeWhile (· ≠ '}') = Nat.toDigits 10 k := by
    intro k text
    rw [closing, List.append_assoc]
    refine takeWhile_append_eq (fun c hc => ?_) (by simp)
    have hne : c ≠ '}' := by
      rintro rfl
      exact not_mem_toDigits (by decide) k hc
    simpa using hne
  rw [placeholder_eq, placeholder_eq, List.cons_append, List.cons_append] at hrest
  have htake := congrArg (List.takeWhile (· ≠ '}')) (List.cons.inj hrest).2
  rw [hdigits, hdigits] at htake
  exact toDigits_inj htake

theorem occurrences_placeholder_append {i k : Nat} (h : i ≠ k) (text : List Char) :
    Text.occurrences (placeholder k) (placeholder i ++ text) =
      Text.occurrences (placeholder k) text := by
  have hnot : ¬ placeholder k <+: placeholder i ++ text := fun hk =>
    h (placeholder_inj hk).symm
  rw [placeholder_eq i, List.cons_append] at hnot ⊢
  rw [Text.occurrences_cons, if_neg hnot, Nat.add_zero]
  exact Text.occurrences_append_of_not_mem (not_mem_closing i)

namespace OnePass

variable {args : List String} {text filled filled' : List Char}

theorem append_of_not_mem {u : List Char} (hu : '{' ∉ u) (h : OnePass args text filled) :
    OnePass args (u ++ text) (u ++ filled) := by
  induction u with
  | nil => exact h
  | cons c u ih =>
    rw [List.mem_cons, not_or] at hu
    refine .keep (fun i _ hplace => ?_) (ih hu.2)
    exact hu.1 (List.cons_prefix_cons.mp hplace).1

theorem placeholder_append {k : Nat} (hk : args.length ≤ k) (h : OnePass args text filled) :
    OnePass args (placeholder k ++ text) (placeholder k ++ filled) := by
  refine .keep (fun i hi hplace => ?_) (h.append_of_not_mem (not_mem_closing k))
  have hik : i = k := placeholder_inj hplace
  omega

theorem unique (h : OnePass args text filled) (h' : OnePass args text filled') :
    filled = filled' := by
  induction h generalizing filled' with
  | nil =>
    generalize ht : ([] : List Char) = t at h'
    cases h' with
    | nil => rfl
    | place _ _ => cases ht
    | keep _ _ => cases ht
  | @place i arg text filled hi _ ih =>
    generalize ht : placeholder i ++ text = t at h'
    cases h' with
    | nil => cases ht
    | @place j arg' text' filled' hj rest' =>
      obtain rfl : i = j := placeholder_inj (ht ▸ List.prefix_append _ text)
      obtain rfl : arg = arg' := Option.some.inj (hi.symm.trans hj)
      obtain rfl := List.append_cancel_left ht
      rw [ih rest']
    | keep hkeep _ =>
      obtain ⟨hlt, -⟩ := List.getElem?_eq_some_iff.mp hi
      exact absurd (ht ▸ List.prefix_append _ text) (hkeep i hlt)
  | @keep c text filled hkeep _ ih =>
    generalize ht : c :: text = t at h'
    cases h' with
    | nil => cases ht
    | place hj _ =>
      obtain ⟨hlt, -⟩ := List.getElem?_eq_some_iff.mp hj
      exact absurd (ht ▸ List.prefix_append _ _) (hkeep _ hlt)
    | keep _ rest' =>
      obtain ⟨rfl, rfl⟩ := List.cons.inj ht
      rw [ih rest']

theorem exists_filled (args : List String) (text : List Char) :
    ∃ filled, OnePass args text filled := by
  induction hn : text.length using Nat.strongRecOn generalizing text with
  | ind n ih =>
    cases text with
    | nil => exact ⟨[], .nil⟩
    | cons c text =>
      by_cases hplace : ∃ i < args.length, placeholder i <+: c :: text
      · obtain ⟨i, hi, rest, hrest⟩ := hplace
        have hlt : rest.length < n := by
          rw [← hn, ← hrest, List.length_append, placeholder_eq, List.length_cons]
          omega
        obtain ⟨filled, hfilled⟩ := ih _ hlt rest rfl
        rw [← hrest]
        exact ⟨_, .place (List.getElem?_eq_getElem hi) hfilled⟩
      · obtain ⟨filled, hfilled⟩ := ih text.length (by rw [← hn]; simp) text rfl
        exact ⟨c :: filled, .keep (fun i hi h => hplace ⟨i, hi, h⟩) hfilled⟩

theorem of_no_args (text : List Char) : OnePass [] text text := by
  induction text with
  | nil => exact .nil
  | cons c text ih => exact .keep (fun i hi => absurd hi (Nat.not_lt_zero i)) ih

theorem placed {front : List String} {arg : String}
    (h : OnePass (front ++ [arg]) text filled') : ∃ filled, OnePass front text filled ∧
      Text.Placed (placeholder front.length) arg.toList text filled filled' := by
  have hnot := not_mem_closing front.length
  have hempty : Text.occurrences (placeholder front.length) [] = 0 := by
    simp [Text.occurrences, placeholder]
  induction h with
  | nil => exact ⟨[], .nil, .last hempty⟩
  | @place i found text filled' hi _ ih =>
    obtain ⟨filled, hpass, hplaced⟩ := ih
    by_cases hlast : i = front.length
    · subst hlast
      rw [List.getElem?_concat_length, Option.some.injEq] at hi
      subst hi
      exact ⟨placeholder front.length ++ filled, hpass.placeholder_append (Nat.le_refl _),
        .place (u := []) hempty hplaced⟩
    · have hfront : front[i]? = some found := by
        obtain ⟨hlt, -⟩ := List.getElem?_eq_some_iff.mp hi
        rw [List.length_append, List.length_singleton] at hlt
        rwa [List.getElem?_append_left (by omega)] at hi
      exact ⟨found.toList ++ filled, .place hfront hpass,
        hplaced.before hnot (occurrences_placeholder_append hlast text)⟩
  | @keep c text filled' hkeep _ ih =>
    obtain ⟨filled, hpass, hplaced⟩ := ih
    have hlength : (front ++ [arg]).length = front.length + 1 := List.length_append
    have hc := hkeep front.length (by omega)
    have hsame : Text.occurrences (placeholder front.length) ([c] ++ text) =
        Text.occurrences (placeholder front.length) text := by
      rw [List.singleton_append, Text.occurrences_cons, if_neg hc, Nat.add_zero]
    exact ⟨c :: filled, .keep (fun i hi => hkeep i (by omega)) hpass,
      hplaced.before (v := [c]) hnot hsame⟩

end OnePass

theorem fillFrom_append (text : List Char) (i : Nat) (front : List String) (arg : String) :
    fillFrom text i (front ++ [arg]) =
      Text.replaceAll (placeholder (i + front.length)) arg.toList (fillFrom text i front) := by
  induction front generalizing text i with
  | nil => rfl
  | cons first front ih =>
    rw [List.cons_append, fillFrom, ih, fillFrom, List.length_cons, Nat.add_right_comm,
      Nat.add_assoc]

theorem toList_fill_append (template : String) (front : List String) (arg : String) :
    (fill template (front ++ [arg])).toList =
      Text.replaceAll (placeholder front.length) arg.toList (fill template front).toList := by
  simp only [fill, String.toList_ofList, fillFrom_append, Nat.zero_add]

/-- One more argument keeps to one pass exactly if its places are those in the template, or if it
looks like its own place. -/
theorem onePass_fill_append_iff {template : String} {front : List String} (arg : String)
    (h : OnePass front template.toList (fill template front).toList) :
    OnePass (front ++ [arg]) template.toList (fill template (front ++ [arg])).toList ↔
      arg.toList = placeholder front.length ∨
        Text.occurrences (placeholder front.length) (fill template front).toList =
          Text.occurrences (placeholder front.length) template.toList := by
  obtain ⟨filled', hpass'⟩ := OnePass.exists_filled (front ++ [arg]) template.toList
  obtain ⟨filled, hpass, hplaced⟩ := hpass'.placed
  obtain rfl := hpass.unique h
  have hiff : OnePass (front ++ [arg]) template.toList (fill template (front ++ [arg])).toList ↔
      (fill template (front ++ [arg])).toList = filled' := by
    constructor
    · exact fun hfill => hfill.unique hpass'
    · rintro rfl
      exact hpass'
  rw [hiff, toList_fill_append]
  exact hplaced.replaceAll_eq_iff (not_mem_closing front.length)

/-- With every front of the arguments a template is filled in one pass, exactly if the arguments of
a front never bring a place of the argument behind it into the text, except where that one looks
like its own place. -/
theorem fill_onePass_iff (template : String) (args : List String) :
    (∀ front, front <+: args → OnePass front template.toList (fill template front).toList) ↔
      ∀ front arg filled, front ++ [arg] <+: args → OnePass front template.toList filled →
        arg.toList = placeholder front.length ∨
          Text.occurrences (placeholder front.length) filled =
            Text.occurrences (placeholder front.length) template.toList := by
  constructor
  · intro h front arg filled hpart hpass
    have hfront := h front ((List.prefix_append front [arg]).trans hpart)
    rw [hpass.unique hfront]
    exact (onePass_fill_append_iff arg hfront).mp (h _ hpart)
  · intro h front hpart
    induction front using List.reverseRecOn with
    | nil =>
      rw [show (fill template []).toList = template.toList from String.toList_ofList]
      exact .of_no_args _
    | append_singleton front arg ih =>
      have hfront := ih ((List.prefix_append front [arg]).trans hpart)
      exact (onePass_fill_append_iff arg hfront).mpr (h front arg _ hpart hfront)

theorem onePass_unparsableFile (path detail : String) :
    OnePass [path, detail] MessageTemplate.unparsableFile.text.toList
      ("Failed to parse file '" ++ path ++ "': " ++ detail ++ ".").toList := by
  have htext : MessageTemplate.unparsableFile.text.toList = "Failed to parse file '".toList ++
      (placeholder 0 ++ ("': ".toList ++ (placeholder 1 ++ ".".toList))) := by
    decide +kernel
  have hend : OnePass [path, detail] ".".toList ".".toList := by
    simpa using OnePass.nil.append_of_not_mem (u := ".".toList) (by decide)
  have hdetail : OnePass [path, detail] _ _ := .place (i := 1) rfl hend
  have hbetween := hdetail.append_of_not_mem (u := "': ".toList) (by decide)
  have hpath : OnePass [path, detail] _ _ := .place (i := 0) rfl hbetween
  have hstart := hpath.append_of_not_mem (u := "Failed to parse file '".toList) (by decide)
  rw [htext]
  simpa [String.toList_append] using hstart

/-- The name of a file looks like the place of the argument behind it. -/
theorem unparsableFile_not_onePass :
    (MessageTemplate.unparsableFile.diagnostic ["\x7b1\x7d.json", "expected value"]).text =
        "Failed to parse file 'expected value.json': expected value." ∧
      ¬ ∀ template args, OnePass args template.toList (fill template args).toList := by
  have htext : fill MessageTemplate.unparsableFile.text ["\x7b1\x7d.json", "expected value"] =
      "Failed to parse file 'expected value.json': expected value." := by
    decide +kernel
  refine ⟨htext, fun h => ?_⟩
  have hfill := h MessageTemplate.unparsableFile.text ["\x7b1\x7d.json", "expected value"]
  rw [htext] at hfill
  have hsame := hfill.unique (onePass_unparsableFile _ _)
  revert hsame
  decide +kernel

end TypeAtlas
