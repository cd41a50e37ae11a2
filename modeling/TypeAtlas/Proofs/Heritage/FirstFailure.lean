import TypeAtlas.Proofs.Heritage.Paths
import Mathlib.Data.Set.Finite.Lattice
import Mathlib.Tactic.Tauto

/-! The order in which the heritage walk looks at things, and the first of them that fails. The walk
ends with the failure of that one, also where declarations form a circle. -/

namespace TypeAtlas

/-- What the walk looks at: a declaration that it steps into, a reference whose type it asks for, a
property of such a type. `steps` counts the declarations it has stepped into before. -/
inductive Subject where
  | declaration (steps : Nat) (declaration : NodeRef)
  | reference (steps : Nat) (reference : NodeRef)
  | property (symbol : SymbolRef)

namespace Program

section Definitions

variable (p : Program)

/-- What the walk looks at next because of a subject, in this order. -/
def parts : Subject → List Subject
  | .declaration steps d => (p.references d).map (.reference steps)
  | .reference steps r =>
    (p.bases r).map (.declaration (steps + 1)) ++
      (((p.types.typeAt? r).map p.types.properties).getD []).map .property
  | .property _ => []

def failure : Subject → Option HeritageError
  | .declaration steps d =>
    if steps = maxHeritageDepth + 1 then some (.tooDeep maxHeritageDepth d) else none
  | .reference _ r =>
    match p.types.typeAt? r with
    | none => some (.unresolvedType r)
    | some type =>
      match p.types.declaringSymbol? type with
      | none => some (.missingTypeSymbol r)
      | some s => if (p.bindings.symbol? s).isSome then none else some (.unknownSymbol s)
  | .property s => if (p.bindings.symbol? s).isSome then none else some (.unknownSymbol s)

/-- What stands at a position below a subject: a part of it by number, a part of that one, and so
on. Walk order is the lexicographic order of positions. -/
def subjectAt? (s : Subject) : List Nat → Option Subject
  | [] => some s
  | i :: rest => (p.parts s)[i]?.bind (subjectAt? · rest)

/-- The walk gets to a position, since nothing before it fails. -/
def Visits (s : Subject) (position : List Nat) (subject : Subject) : Prop :=
  p.subjectAt? s position = some subject ∧ ∀ earlier other,
    List.Lex (· < ·) earlier position → p.subjectAt? s earlier = some other →
      p.failure other = none

def visited (s : Subject) : Set (List Nat) :=
  { position | ∃ subject, p.Visits s position subject }

def FirstFailure (s : Subject) (e : HeritageError) : Prop :=
  ∃ position subject, p.Visits s position subject ∧ p.failure subject = some e

def Sound (s : Subject) : Prop :=
  ∀ position subject, p.subjectAt? s position = some subject → p.failure subject = none

def FirstFailureIn : List Subject → HeritageError → Prop
  | [], _ => False
  | s :: rest, e => p.FirstFailure s e ∨ p.Sound s ∧ FirstFailureIn rest e

/-- A computation ends as the walk from a subject should. -/
def EndsAs {α : Type} (result : Except HeritageError α) (s : Subject) : Prop :=
  ((∃ value, result = .ok value) ↔ p.Sound s) ∧
    ∀ e, result = .error e ↔ p.FirstFailure s e

def LeadsTo (last : Nat) (e : NodeRef) : Subject → Prop
  | .declaration steps d => ∃ n, last = steps + n ∧ Chain p.Base n d e
  | .reference steps r => ∃ b ∈ p.bases r, ∃ n, last = steps + 1 + n ∧ Chain p.Base n b e
  | .property _ => False

end Definitions

variable {p : Program}

theorem firstFailureIn_iff {l : List Subject} {e : HeritageError} :
    p.FirstFailureIn l e ↔ ∃ i rest subject, l[i]?.bind (p.subjectAt? · rest) = some subject ∧
      p.failure subject = some e ∧ ∀ j rest' other, List.Lex (· < ·) (j :: rest') (i :: rest) →
        l[j]?.bind (p.subjectAt? · rest') = some other → p.failure other = none := by
  induction l with
  | nil => simp [FirstFailureIn]
  | cons s l ih =>
    rw [FirstFailureIn, ih]
    -- a position begins with zero below the first subject, and with a successor below the others
    constructor
    · rintro (⟨position, subject, ⟨hat, hearlier⟩, hfail⟩ |
        ⟨hsound, i, rest, subject, hat, hfail, hearlier⟩)
      · refine ⟨0, position, subject, hat, hfail, ?_⟩
        intro j rest other hlex hother
        cases hlex with
        | rel h => exact absurd h (by omega)
        | cons h => exact hearlier rest other h hother
      · refine ⟨i + 1, rest, subject, hat, hfail, ?_⟩
        intro j rest' other hlex hother
        cases j with
        | zero => exact hsound rest' other hother
        | succ j =>
          refine hearlier j rest' other ?_ hother
          cases hlex with
          | rel h => exact .rel (by omega)
          | cons h => exact .cons h
    · rintro ⟨i, rest, subject, hat, hfail, hearlier⟩
      cases i with
      | zero =>
        have hvisits : p.Visits s rest subject :=
          ⟨hat, fun position other h => hearlier 0 position other (.cons h)⟩
        exact .inl ⟨rest, subject, hvisits, hfail⟩
      | succ i =>
        have hsound : p.Sound s :=
          fun position other => hearlier 0 position other (.rel (by omega))
        refine .inr ⟨hsound, i, rest, subject, hat, hfail, ?_⟩
        intro j rest' other hlex hother
        refine hearlier (j + 1) rest' other ?_ hother
        cases hlex with
        | rel h => exact .rel (by omega)
        | cons h => exact .cons h

theorem firstFailure_iff {s : Subject} {e : HeritageError} :
    p.FirstFailure s e ↔
      p.failure s = some e ∨ p.failure s = none ∧ p.FirstFailureIn (p.parts s) e := by
  constructor
  · rintro ⟨position, subject, ⟨hat, hearlier⟩, hfail⟩
    cases position with
    | nil =>
      obtain rfl : s = subject := by simpa [subjectAt?] using hat
      exact .inl hfail
    | cons i rest =>
      refine .inr ⟨hearlier [] s .nil rfl, firstFailureIn_iff.mpr ?_⟩
      exact ⟨i, rest, subject, hat, hfail, fun j rest' other => hearlier (j :: rest') other⟩
  · rintro (hfail | ⟨hnone, hin⟩)
    · exact ⟨[], s, ⟨rfl, fun _ _ h => nomatch h⟩, hfail⟩
    · obtain ⟨i, rest, subject, hat, hfail, hearlier⟩ := firstFailureIn_iff.mp hin
      refine ⟨i :: rest, subject, ⟨hat, ?_⟩, hfail⟩
      intro earlier other hlex hother
      cases earlier with
      | nil =>
        obtain rfl : s = other := by simpa [subjectAt?] using hother
        exact hnone
      | cons j rest' => exact hearlier j rest' other hlex hother

theorem sound_iff {s : Subject} :
    p.Sound s ↔ p.failure s = none ∧ ∀ part ∈ p.parts s, p.Sound part := by
  constructor
  · intro h
    refine ⟨h [] s rfl, fun part hpart position subject hat => ?_⟩
    obtain ⟨i, hi⟩ := List.mem_iff_getElem?.mp hpart
    exact h (i :: position) subject (by simp [subjectAt?, hi, hat])
  · rintro ⟨hnone, hparts⟩ position subject hat
    cases position with
    | nil =>
      obtain rfl : s = subject := by simpa [subjectAt?] using hat
      exact hnone
    | cons i rest =>
      obtain ⟨part, hi, hat⟩ := Option.bind_eq_some_iff.mp hat
      exact hparts part (List.mem_of_getElem? hi) rest subject hat

theorem firstFailureIn_append_iff {l l' : List Subject} {e : HeritageError} :
    p.FirstFailureIn (l ++ l') e ↔
      p.FirstFailureIn l e ∨ (∀ s ∈ l, p.Sound s) ∧ p.FirstFailureIn l' e := by
  induction l with
  | nil => simp [FirstFailureIn]
  | cons s l ih =>
    rw [List.cons_append, FirstFailureIn, FirstFailureIn, ih, List.forall_mem_cons]
    tauto

theorem mapM_ok_iff_sound {α β : Type} {f : α → Except HeritageError β} {subject : α → Subject}
    {l : List α} (h : ∀ x ∈ l, p.EndsAs (f x) (subject x)) :
    (∃ values, l.mapM f = .ok values) ↔ ∀ part ∈ l.map subject, p.Sound part := by
  induction l with
  | nil => simp [pure, Except.pure]
  | cons x l ih =>
    have hx := h x List.mem_cons_self
    rw [mapM_cons_ok_iff, List.map_cons, List.forall_mem_cons, hx.1,
      ih fun y hy => h y (List.mem_cons_of_mem x hy)]

theorem mapM_error_iff_firstFailureIn {α β : Type} {f : α → Except HeritageError β}
    {subject : α → Subject} {l : List α} (h : ∀ x ∈ l, p.EndsAs (f x) (subject x))
    {e : HeritageError} : l.mapM f = .error e ↔ p.FirstFailureIn (l.map subject) e := by
  induction l with
  | nil => simp [FirstFailureIn, pure, Except.pure]
  | cons x l ih =>
    have hx := h x List.mem_cons_self
    rw [mapM_cons_error_iff, List.map_cons, FirstFailureIn, hx.1, hx.2 e,
      ih fun y hy => h y (List.mem_cons_of_mem x hy)]

theorem symbol_eq_error_iff {s : SymbolRef} {e : HeritageError} :
    p.symbol s = .error e ↔ p.failure (.property s) = some e := by
  cases h : p.bindings.symbol? s <;> simp [Program.symbol, failure, h]

theorem declaredType_eq_error_iff {steps : Nat} {r : NodeRef} {e : HeritageError} :
    p.declaredType r = .error e ↔ p.failure (.reference steps r) = some e := by
  rw [declaredType, bind_eq_error_iff]
  cases ht : p.types.typeAt? r with
  | none => simp [typeOf, failure, ht]
  | some type =>
    cases hs : p.types.declaringSymbol? type with
    | none => simp [typeOf, failure, ht, hs]
    | some s =>
      have hsymbol : p.symbol s = .error e ↔ p.failure (.property s) = some e :=
        symbol_eq_error_iff
      simp only [failure] at hsymbol
      simp [typeOf, failure, ht, hs, bind_eq_error_iff, hsymbol, pure, Except.pure]

theorem Names.parts_eq {steps : Nat} {r : NodeRef} {type : TypeId} {symbol : Symbol}
    (h : p.Names r type symbol) :
    p.parts (.reference steps r) = symbol.bases.map (.declaration (steps + 1)) ++
      (p.types.properties type).map .property := by
  simp [parts, h.bases_eq, h.1]

theorem Names.failure_eq {steps : Nat} {r : NodeRef} {type : TypeId} {symbol : Symbol}
    (h : p.Names r type symbol) : p.failure (.reference steps r) = none := by
  obtain ⟨ht, s, hs, hsymbol⟩ := h
  simp [failure, ht, hs, hsymbol]

theorem exportedProperty_endsAs (s : SymbolRef) :
    p.EndsAs (p.exportedProperty s) (.property s) := by
  constructor
  · rw [sound_iff]
    simp [exportedProperty_eq_ok_iff, failure, parts, Option.isSome_iff_ne_none]
  · intro e
    rw [firstFailure_iff, exportedProperty, bind_eq_error_iff, symbol_eq_error_iff]
    simp [parts, FirstFailureIn, pure, Except.pure]

theorem passedOn_endsAs {budget steps : Nat} (r : NodeRef)
    (h : ∀ d, p.EndsAs (p.inheritedWithin budget d) (.declaration (steps + 1) d)) :
    p.EndsAs (p.passedOn budget r) (.reference steps r) := by
  cases hr : p.declaredType r with
  | error e =>
    have hfail : p.failure (.reference steps r) = some e := declaredType_eq_error_iff.mp hr
    constructor
    · rw [sound_iff]
      simp [passedOn, hr, hfail, bind, Except.bind]
    · intro e'
      simp [passedOn, hr, firstFailure_iff, hfail, bind, Except.bind]
  | ok named =>
    obtain ⟨type, symbol⟩ := named
    have hn := declaredType_eq_ok_iff.mp hr
    have hbases := fun e (_ : e ∈ symbol.bases) => h e
    have hown := fun s (_ : s ∈ p.types.properties type) => exportedProperty_endsAs (p := p) s
    constructor
    · rw [sound_iff, hn.parts_eq, List.forall_mem_append, ← mapM_ok_iff_sound hbases,
        ← mapM_ok_iff_sound hown, passedOn, hr]
      simp only [bind_eq_ok_iff, pure, Except.pure, Except.ok.injEq, hn.failure_eq, true_and]
      constructor
      · rintro ⟨_, _, rfl, inherited, hi, own, ho, -⟩
        exact ⟨⟨inherited, hi⟩, own, ho⟩
      · rintro ⟨⟨inherited, hi⟩, own, ho⟩
        exact ⟨_, _, rfl, inherited, hi, own, ho, rfl⟩
    · intro e
      rw [firstFailure_iff, hn.parts_eq, firstFailureIn_append_iff, ← mapM_ok_iff_sound hbases,
        ← mapM_error_iff_firstFailureIn hbases, ← mapM_error_iff_firstFailureIn hown, passedOn, hr]
      simp only [bind_eq_error_iff, pure, Except.pure, reduceCtorEq, hn.failure_eq, true_and,
        false_or, and_false, exists_false, or_false, Except.ok.injEq]
      constructor
      · rintro ⟨_, rfl, hi | ⟨inherited, hi, ho⟩⟩
        · exact .inl hi
        · exact .inr ⟨⟨inherited, hi⟩, ho⟩
      · rintro (hi | ⟨⟨inherited, hi⟩, ho⟩)
        · exact ⟨_, rfl, .inl hi⟩
        · exact ⟨_, rfl, .inr ⟨inherited, hi, ho⟩⟩

theorem inheritedWithin_endsAs {budget steps : Nat} (d : NodeRef)
    (h : budget + steps = maxHeritageDepth + 1) :
    p.EndsAs (p.inheritedWithin budget d) (.declaration steps d) := by
  induction budget generalizing steps d with
  | zero =>
    have hfail : p.failure (.declaration steps d) = some (.tooDeep maxHeritageDepth d) := by
      simp [failure, show steps = maxHeritageDepth + 1 by omega]
    constructor
    · rw [sound_iff]
      simp [inheritedWithin, hfail]
    · simp [inheritedWithin, firstFailure_iff, hfail]
  | succ budget ih =>
    have hnone : p.failure (.declaration steps d) = none := by
      simp [failure, show steps ≠ maxHeritageDepth + 1 by omega]
    have hbelow : ∀ e, p.EndsAs (p.inheritedWithin budget e) (.declaration (steps + 1) e) :=
      fun e => ih e (by omega)
    have hparts := fun r (_ : r ∈ p.references d) => passedOn_endsAs r hbelow
    rw [inheritedWithin_succ, ← references_eq]
    constructor
    · rw [sound_iff, parts, ← mapM_ok_iff_sound hparts]
      simp only [bind_eq_ok_iff, pure, Except.pure, Except.ok.injEq, hnone, true_and]
      constructor
      · rintro ⟨_, members, hm, -⟩
        exact ⟨members, hm⟩
      · rintro ⟨members, hm⟩
        exact ⟨_, members, hm, rfl⟩
    · intro e
      rw [firstFailure_iff, parts, ← mapM_error_iff_firstFailureIn hparts]
      simp [bind_eq_error_iff, pure, Except.pure, hnone]

theorem inherited_endsAs (d : NodeRef) : p.EndsAs (p.inherited d) (.declaration 0 d) := by
  rw [inherited]
  exact inheritedWithin_endsAs d (Nat.add_zero _)

theorem Visits.part {s subject : Subject} {i : Nat} {rest : List Nat}
    (h : p.Visits s (i :: rest) subject) :
    p.failure s = none ∧ ∃ part, (p.parts s)[i]? = some part ∧ p.Visits part rest subject := by
  obtain ⟨hat, hearlier⟩ := h
  obtain ⟨part, hi, hat⟩ := Option.bind_eq_some_iff.mp hat
  refine ⟨hearlier [] s .nil rfl, part, hi, hat, fun earlier other hlex hother => ?_⟩
  exact hearlier (i :: earlier) other (.cons hlex) (by simp [subjectAt?, hi, hother])

theorem finite_visited_of_failure {s : Subject} {e : HeritageError} (h : p.failure s = some e) :
    (p.visited s).Finite := by
  apply (Set.finite_singleton []).subset
  rintro position ⟨subject, hvisits⟩
  cases position with
  | nil => rfl
  | cons i rest =>
    have hnone := hvisits.part.1
    rw [h] at hnone
    cases hnone

theorem finite_visited_of_parts {s : Subject} (h : ∀ part ∈ p.parts s, (p.visited part).Finite) :
    (p.visited s).Finite := by
  have hparts : (⋃ i : Fin (p.parts s).length, (i.val :: ·) '' p.visited (p.parts s)[i]).Finite :=
    Set.finite_iUnion fun i => (h _ (List.getElem_mem i.isLt)).image _
  apply (hparts.insert []).subset
  rintro position ⟨subject, hvisits⟩
  cases position with
  | nil => exact Set.mem_insert _ _
  | cons i rest =>
    obtain ⟨-, part, hi, hpart⟩ := hvisits.part
    obtain ⟨hlt, rfl⟩ := List.getElem?_eq_some_iff.mp hi
    exact Set.mem_insert_of_mem _ (Set.mem_iUnion.mpr ⟨⟨i, hlt⟩, rest, ⟨subject, hpart⟩, rfl⟩)

theorem finite_visited {budget steps : Nat} (d : NodeRef)
    (h : budget + steps = maxHeritageDepth + 1) : (p.visited (.declaration steps d)).Finite := by
  induction budget generalizing steps d with
  | zero =>
    have hfail : p.failure (.declaration steps d) = some (.tooDeep maxHeritageDepth d) := by
      simp [failure, show steps = maxHeritageDepth + 1 by omega]
    exact finite_visited_of_failure hfail
  | succ budget ih =>
    apply finite_visited_of_parts
    intro part hpart
    obtain ⟨r, -, rfl⟩ := List.mem_map.mp hpart
    apply finite_visited_of_parts
    intro part hpart
    rcases List.mem_append.mp hpart with hpart | hpart
    · obtain ⟨e, -, rfl⟩ := List.mem_map.mp hpart
      exact ih e (by omega)
    · obtain ⟨s, -, rfl⟩ := List.mem_map.mp hpart
      apply finite_visited_of_parts
      simp [parts]

theorem leadsTo_of_subjectAt? {s : Subject} {last : Nat} {e : NodeRef} {position : List Nat}
    (h : p.subjectAt? s position = some (.declaration last e)) : p.LeadsTo last e s := by
  induction position generalizing s with
  | nil =>
    obtain rfl : s = .declaration last e := by simpa [subjectAt?] using h
    exact ⟨0, rfl, .nil⟩
  | cons i rest ih =>
    obtain ⟨part, hi, hat⟩ := Option.bind_eq_some_iff.mp h
    have hpart := List.mem_of_getElem? hi
    have hleads := ih hat
    cases s with
    | declaration steps d =>
      obtain ⟨r, hr, rfl⟩ := List.mem_map.mp hpart
      obtain ⟨b, hb, n, hlast, hchain⟩ := hleads
      exact ⟨n + 1, by omega, .cons (base_iff.mpr ⟨r, hr, hb⟩) hchain⟩
    | reference steps r =>
      rcases List.mem_append.mp hpart with hpart | hpart
      · obtain ⟨b, hb, rfl⟩ := List.mem_map.mp hpart
        exact ⟨b, hb, hleads⟩
      · obtain ⟨s, -, rfl⟩ := List.mem_map.mp hpart
        exact hleads.elim
    | property s => simp [parts] at hpart

theorem eq_declaration_of_failure {s : Subject} {depth : Nat} {e : NodeRef}
    (h : p.failure s = some (.tooDeep depth e)) : s = .declaration (maxHeritageDepth + 1) e := by
  cases s with
  | declaration steps d =>
    simp only [failure] at h
    split at h <;> simp_all
  | reference steps r =>
    simp only [failure] at h
    split at h
    · cases h
    · split at h
      · cases h
      · split at h <;> cases h
  | property s =>
    simp only [failure] at h
    split at h <;> cases h

theorem chain_of_tooDeep {depth : Nat} {d e : NodeRef}
    (h : p.inherited d = .error (.tooDeep depth e)) :
    Chain p.Base (maxHeritageDepth + 1) d e := by
  obtain ⟨position, subject, ⟨hat, -⟩, hfail⟩ := ((inherited_endsAs d).2 _).mp h
  obtain rfl := eq_declaration_of_failure hfail
  obtain ⟨n, hn, hchain⟩ := leadsTo_of_subjectAt? hat
  obtain rfl : n = maxHeritageDepth + 1 := by omega
  exact hchain

/-- The walk from a declaration visits finitely many positions and fails exactly as the first
failing one does. It fails wherever it can run into a circle, and it is too deep only where a chain
of declarations is too long. -/
theorem inherited_error_at_first_failure (p : Program) (d : NodeRef) :
    (p.visited (.declaration 0 d)).Finite ∧
      (∀ e, p.inherited d = .error e ↔ ∃ position subject,
        p.Visits (.declaration 0 d) position subject ∧ p.failure subject = some e) ∧
      (∀ c, Relation.ReflTransGen p.Base d c → Relation.TransGen p.Base c c →
        ∃ e, p.inherited d = .error e) ∧
      ((∀ last, ¬ Chain p.Base (maxHeritageDepth + 1) d last) →
        ∀ depth e, p.inherited d ≠ .error (.tooDeep depth e)) := by
  refine ⟨finite_visited d (Nat.add_zero _), (inherited_endsAs d).2, ?_, ?_⟩
  · intro c hreach hcycle
    cases h : p.inherited d with
    | error e => exact ⟨e, rfl⟩
    | ok members =>
      obtain ⟨last, hchain⟩ := exists_chain_of_cycle (maxHeritageDepth + 1) hreach hcycle
      exact absurd hchain ((inherited_eq_ok_iff.mp h).1.shallow last)
  · intro hshallow depth e h
    exact hshallow e (chain_of_tooDeep h)

end Program

end TypeAtlas
