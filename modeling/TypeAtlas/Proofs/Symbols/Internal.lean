import TypeAtlas.Proofs.Symbols.Reopening
import TypeAtlas.Proofs.Tree.Reach

/-! Which classes are internal, and why the question never meets a class without a value
declaration. Flags come to a symbol from declarations only, and a declaration of a class that has a
node is also one of a value. -/

namespace TypeAtlas

namespace Binding

theorem allFlags_and_eq_zero_iff {l : List Binding} {g : UInt32} :
    allFlags l &&& g = 0 ↔ ∀ c ∈ l, c.flags &&& g = 0 := by
  induction l using List.reverseRecOn with
  | nil => simp [allFlags]
  | append_singleton l c ih =>
    rw [allFlags_append, or_and_eq_zero_iff, ih, List.forall_mem_append, List.forall_mem_singleton]

theorem givesValue_of_class {c : Binding} (hnode : c.node.isSome = true)
    (hclass : c.flags &&& SymbolFlags.classLike ≠ 0) : c.givesValue = true := by
  have hvalue : c.flags &&& SymbolFlags.value ≠ 0 := by
    intro hzero
    have hpart : SymbolFlags.value &&& SymbolFlags.classLike = SymbolFlags.classLike := by decide
    rw [← hpart, ← UInt32.and_assoc, hzero, UInt32.zero_and] at hclass
    exact hclass rfl
  simp [givesValue, hnode, hvalue]

theorem isSome_valueNode {l : List Binding} {c : Binding} (hc : c ∈ l)
    (hvalue : c.givesValue = true) : (valueNode l).isSome = true := by
  obtain ⟨first, hfirst⟩ := Option.isSome_iff_exists.mp
    (List.find?_isSome.mpr ⟨c, hc, hvalue⟩)
  have hnode := List.find?_some hfirst
  rw [givesValue, Bool.and_eq_true] at hnode
  rw [valueNode, hfirst]
  exact hnode.1

end Binding

namespace Bindings

theorem map_binding_logFrom (b : Bindings) (l : List Binding) :
    (b.logFrom l).map Answered.binding = l := by
  induction l generalizing b with
  | nil => rfl
  | cons c l ih => rw [logFrom, List.map_cons, ih]

theorem mem_of_mem_bindingsOf {l : List Binding} {s : SymbolRef} {c : Binding}
    (h : c ∈ Answered.bindingsOf (log l) s) : c ∈ l := by
  rw [← map_binding_logFrom empty l]
  exact List.mem_map_of_mem (Answered.mem_bindingsOf_iff.mp h)

theorem isSome_valueDeclaration_bound {l : List Binding}
    (hnodes : ∀ c ∈ l, c.flags &&& SymbolFlags.classLike ≠ 0 → c.node.isSome = true)
    (hsize : (bound l).symbols.size < 4294967295) {s : SymbolRef} {x : Symbol}
    (hx : (bound l).symbol? s = some x) (hclass : x.hasAnyFlag SymbolFlags.classLike = true) :
    x.valueDeclaration.isSome = true := by
  rw [(recorded_bound hsize).symbol] at hx
  obtain ⟨first, -, rfl⟩ := Option.map_eq_some_iff.mp hx
  have hflags := Binding.allFlags_and_eq_zero_iff.not.mp (bne_iff_ne.mp hclass)
  push Not at hflags
  obtain ⟨c, hc, hflag⟩ := hflags
  have hnode := hnodes c (mem_of_mem_bindingsOf hc) hflag
  exact Binding.isSome_valueNode hc (Binding.givesValue_of_class hnode hflag)

end Bindings

namespace Symbol

variable {x : Symbol} {a : Arena}

theorem inExportContext_of_none (h : x.valueDeclaration = none) : x.inExportContext a = false := by
  rw [inExportContext, h, Arena.ancestry, Arena.climb_none]
  rfl

theorem isUnder_of_none (h : x.valueDeclaration = none) (flags : Modifiers) :
    x.isUnder a flags = false := by
  rw [isUnder, h, Arena.ancestry, Arena.climb_none]
  rfl

theorem isInternalClass_eq_true_iff :
    x.isInternalClass a = .ok true ↔
      x.hasAnyFlag SymbolFlags.classLike = true ∧ x.valueDeclaration.isSome = true ∧
        x.inExportContext a = false ∧ x.inAmbientContext a = false ∧
        a.hasModifier x.valueDeclaration Modifiers.export = false := by
  unfold isInternalClass
  cases x.hasAnyFlag SymbolFlags.classLike <;> cases x.inExportContext a <;>
    cases x.inAmbientContext a <;> cases x.valueDeclaration.isSome <;>
    simp [assert, bind, Except.bind, pure, Except.pure]

theorem exists_isInternalClass_error_iff :
    (∃ e, x.isInternalClass a = .error e) ↔
      x.hasAnyFlag SymbolFlags.classLike = true ∧ x.valueDeclaration = none := by
  cases hvalue : x.valueDeclaration with
  | none =>
    have hexport := inExportContext_of_none (a := a) hvalue
    have hambient : x.inAmbientContext a = false := isUnder_of_none hvalue _
    cases hclass : x.hasAnyFlag SymbolFlags.classLike <;>
      simp [isInternalClass, hclass, hexport, hambient, hvalue, assert, bind, Except.bind]
  | some n =>
    simp only [isInternalClass, hvalue, assert, Option.isSome_some, if_true]
    split <;> simp [bind, Except.bind, pure, Except.pure]

theorem exists_isInternalClass_ok
    (h : x.hasAnyFlag SymbolFlags.classLike = true → x.valueDeclaration.isSome = true)
    (a : Arena) : ∃ b, x.isInternalClass a = .ok b := by
  cases hanswer : x.isInternalClass a with
  | ok b => exact ⟨b, rfl⟩
  | error e =>
    obtain ⟨hclass, hnone⟩ := exists_isInternalClass_error_iff.mp ⟨e, hanswer⟩
    have hsome := h hclass
    rw [hnone] at hsome
    cases hsome

/-- Neither the node nor anything above it exports its members or is only declared. -/
def Concealed (a : Arena) (start : NodeRef) : Prop :=
  ∀ m, a.Reaches start m →
    (∀ node, a.node? (some m) = some node → node.flags &&& NodeFlags.exportContext = 0) ∧
      a.hasModifier (some m) Modifiers.ambient = false

theorem concealed_iff (hsize : a.nodes.size ≤ Arena.maxClimb) :
    Concealed a x.valueDeclaration ↔
      x.inExportContext a = false ∧ x.inAmbientContext a = false := by
  rw [← Bool.not_eq_true, ← Bool.not_eq_true, inExportContext_iff hsize, inAmbientContext,
    isUnder_iff hsize]
  push Not
  constructor
  · intro h
    exact ⟨fun m node hm hnode => (h m hm).1 node hnode,
      fun m hm => Bool.eq_false_iff.mp (h m hm).2⟩
  · rintro ⟨hexport, hambient⟩ m hm
    exact ⟨fun node hnode => hexport m node hm hnode, Bool.eq_false_iff.mpr (hambient m hm)⟩

end Symbol

/-- After any declarations in which those of classes have nodes, it can be told of every symbol
whether it is an internal class. It cannot be told just of a class without a value declaration, and
in a tree that is no larger than the longest way up, the internal ones are the classes that are not
exported and that nothing above their value declaration gives away. -/
theorem Bindings.isInternalClass_decided :
    (∀ l : List Binding,
      (∀ c ∈ l, c.flags &&& SymbolFlags.classLike ≠ 0 → c.node.isSome = true) →
      (bound l).symbols.size < 4294967295 →
      ∀ s x, (bound l).symbol? s = some x → ∀ a, ∃ b, x.isInternalClass a = .ok b) ∧
    ∀ (x : Symbol) (a : Arena),
      ((∃ e, x.isInternalClass a = .error e) ↔
        x.hasAnyFlag SymbolFlags.classLike = true ∧ x.valueDeclaration = none) ∧
      (a.nodes.size ≤ 10000 →
        (x.isInternalClass a = .ok true ↔
          x.hasAnyFlag SymbolFlags.classLike = true ∧ x.valueDeclaration.isSome = true ∧
            Symbol.Concealed a x.valueDeclaration ∧
            a.hasModifier x.valueDeclaration Modifiers.export = false)) := by
  refine ⟨fun l hnodes hsize s x hx => ?_, fun x a => ⟨?_, fun hsize => ?_⟩⟩
  · exact Symbol.exists_isInternalClass_ok (isSome_valueDeclaration_bound hnodes hsize hx)
  · exact Symbol.exists_isInternalClass_error_iff
  · rw [Symbol.isInternalClass_eq_true_iff, Symbol.concealed_iff hsize, and_assoc]

/-- An interface that is opened without a node and with one, and then joined by a class. -/
def Bindings.joinedByClass : List Binding :=
  [.ofFile none SymbolFlags.interface "A", .ofFile (Row.ofIndex 1) SymbolFlags.interface "A",
    .ofFile (Row.ofIndex 0) 0x60 "A"]

theorem Bindings.joinedByClass_decided :
    (∀ c ∈ joinedByClass, c.flags &&& SymbolFlags.classLike ≠ 0 → c.node.isSome = true) ∧
      (bound joinedByClass).symbols.size < 4294967295 ∧ Arena.ring.nodes.size ≤ 10000 ∧
      ∃ x, (bound joinedByClass).symbol? (Row.ofIndex 0) = some x ∧
        x.isInternalClass Arena.ring = .ok false := by
  obtain ⟨hbound, hgeneral⟩ := isInternalClass_decided
  have hnodes : ∀ c ∈ joinedByClass, c.flags &&& SymbolFlags.classLike ≠ 0 →
      c.node.isSome = true := by decide
  have hlimit : (bound joinedByClass).symbols.size < 4294967295 := by decide
  have hsize : Arena.ring.nodes.size ≤ 10000 := by decide
  let x : Symbol :=
    { flags := 0x60, name := "A", declarations := [Row.ofIndex 1, Row.ofIndex 0]
      valueDeclaration := Row.ofIndex 0 }
  have hx : (bound joinedByClass).symbol? (Row.ofIndex 0) = some x := by decide
  obtain ⟨b, hb⟩ := hbound _ hnodes hlimit _ x hx Arena.ring
  refine ⟨hnodes, hlimit, hsize, x, hx, ?_⟩
  cases b with
  | false => exact hb
  | true =>
    obtain ⟨-, -, hconcealed, -⟩ := ((hgeneral x Arena.ring).2 hsize).mp hb
    have hstep : Arena.ring.StepsUp ⟨0, by decide⟩ ⟨1, by decide⟩ := ⟨rfl, rfl⟩
    have hreach : Arena.ring.Reaches x.valueDeclaration ⟨1, by decide⟩ :=
      ⟨_, rfl, .single hstep, rfl⟩
    exact absurd ((hconcealed _ hreach).1 _ rfl) (by decide)

/-- A class whose value declaration does not exist is internal, although the link of that node leads
to one that exports its members. -/
theorem Arena.surplusLink_internal :
    surplusLink.nodes.size ≤ 10000 ∧
      ¬ ∀ x : Symbol, ¬ (x.hasAnyFlag SymbolFlags.classLike = true ∧ x.valueDeclaration = none) →
        (x.isInternalClass surplusLink = .ok true ↔
          x.hasAnyFlag SymbolFlags.classLike = true ∧
            (∀ n m, x.valueDeclaration = some n →
              Relation.ReflTransGen surplusLink.IsParent n m →
              (∀ node, surplusLink.node? (some m) = some node →
                node.flags &&& NodeFlags.exportContext = 0) ∧
              surplusLink.hasModifier (some m) Modifiers.ambient = false) ∧
            surplusLink.hasModifier x.valueDeclaration Modifiers.export = false) := by
  refine ⟨by decide, fun h => ?_⟩
  let x : Symbol :=
    { flags := SymbolFlags.classLike, name := "A", valueDeclaration := Row.ofIndex 1 }
  have hinternal : x.isInternalClass surplusLink = .ok true := by decide
  obtain ⟨-, hlinks, -⟩ := (h x (by decide)).mp hinternal
  have hstep : surplusLink.IsParent ⟨1, by decide⟩ ⟨0, by decide⟩ := rfl
  have hzero := (hlinks ⟨1, by decide⟩ ⟨0, by decide⟩ rfl (.single hstep)).1 _ rfl
  exact absurd hzero (by decide)

end TypeAtlas
