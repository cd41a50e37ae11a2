import TypeAtlas.Proofs.Symbols.Declaring
import Mathlib.Data.List.Induction

/-! Symbols and the log of the declarations that they come from. What is known of a symbol, a node
or a name can be read off the declarations and the symbols that were answered to them. -/

namespace TypeAtlas

/-- A declaration that the symbols are told of. -/
inductive Binding where
  | ofFile (node : NodeRef) (flags : UInt32) (name : String)
  | ofMember (owner : SymbolRef) (node : NodeRef) (flags : UInt32) (name : String)

theorem Symbol.flags_declare (x : Symbol) (n : NodeRef) (flags : UInt32) :
    (x.declare n flags).flags = x.flags ||| flags := by
  cases n <;> rfl

namespace Binding

def node : Binding → NodeRef
  | ofFile n _ _ | ofMember _ n _ _ => n

def flags : Binding → UInt32
  | ofFile _ flags _ | ofMember _ _ flags _ => flags

def name : Binding → String
  | ofFile _ _ name | ofMember _ _ _ name => name

def owner : Binding → SymbolRef
  | ofFile _ _ _ => none
  | ofMember owner _ _ _ => owner

def isMember : Binding → Bool
  | ofFile _ _ _ => false
  | ofMember _ _ _ _ => true

def givesValue (c : Binding) : Bool :=
  c.node.isSome && c.flags &&& SymbolFlags.value != 0

def allFlags (l : List Binding) : UInt32 :=
  l.foldl (fun flags c => flags ||| c.flags) 0

def nodes (l : List Binding) : List NodeRef :=
  (l.map node).filter Option.isSome

def valueNode (l : List Binding) : NodeRef :=
  (l.find? givesValue).bind node

def symbolOf (l : List Binding) : Option Symbol :=
  l.head?.map fun first =>
    { flags := allFlags l
      name := first.name
      declarations := nodes l
      valueDeclaration := valueNode l
      parent := first.owner }

def fresh (c : Binding) : Symbol :=
  Symbol.declare { flags := c.flags, name := c.name, parent := c.owner } c.node c.flags

theorem flags_fresh (c : Binding) : c.fresh.flags = c.flags := by
  rw [fresh, Symbol.flags_declare, UInt32.or_self]

theorem allFlags_append (l : List Binding) (c : Binding) :
    allFlags (l ++ [c]) = allFlags l ||| c.flags := by
  simp [allFlags]

theorem nodes_append (l : List Binding) (c : Binding) :
    nodes (l ++ [c]) = nodes l ++ [c.node].filter Option.isSome := by
  simp [nodes]

theorem valueNode_append (l : List Binding) (c : Binding) :
    valueNode (l ++ [c]) =
      if c.givesValue && (valueNode l).isNone then c.node else valueNode l := by
  match h : l.find? givesValue with
  | none => by_cases hc : c.givesValue <;> simp [valueNode, List.find?_append, h, hc]
  | some d =>
    have hd := List.find?_some h
    simp only [givesValue, Bool.and_eq_true] at hd
    have hsome := Option.isSome_iff_ne_none.mp hd.1
    simp [valueNode, List.find?_append, h, hsome]

theorem symbolOf_singleton (c : Binding) : symbolOf [c] = some c.fresh := by
  cases h : c.node with
  | none => simp [symbolOf, fresh, allFlags, nodes, valueNode, Symbol.declare, givesValue, h]
  | some n =>
    by_cases hv : c.flags &&& SymbolFlags.value = 0 <;>
      simp [symbolOf, fresh, allFlags, nodes, valueNode, Symbol.declare, givesValue, h, hv]

theorem symbolOf_append (l : List Binding) (c : Binding) :
    symbolOf (l ++ [c]) =
      some (((symbolOf l).map (·.declare c.node c.flags)).getD c.fresh) := by
  cases l with
  | nil => exact symbolOf_singleton c
  | cons d l =>
    have hfirst : (d :: l ++ [c]).head? = some d := rfl
    rw [symbolOf, hfirst, allFlags_append, nodes_append, valueNode_append]
    cases h : c.node with
    | none => simp [symbolOf, Symbol.declare, givesValue, h]
    | some n => simp [symbolOf, Symbol.declare, givesValue, h]

def declares (n : NodeRef) (c : Binding) : Bool :=
  n.isSome && c.node = n

def isOfFile (name : String) : Binding → Bool
  | ofFile _ _ name' => name' = name
  | ofMember _ _ _ _ => false

theorem owner_of_not_isMember {c : Binding} (h : ¬ c.isMember = true) : c.owner = none := by
  cases c with
  | ofFile => rfl
  | ofMember => exact absurd rfl h

theorem name_of_isOfFile {c : Binding} {name : String} (h : c.isOfFile name = true) :
    c.name = name ∧ c.isMember = false := by
  cases c with
  | ofFile n flags name' => simpa [isOfFile, isMember, Binding.name] using h
  | ofMember => simp [isOfFile] at h

end Binding

structure Answered where
  binding : Binding
  symbol : SymbolRef

namespace Answered

def bindingsOf (log : List Answered) (s : SymbolRef) : List Binding :=
  (log.filter (·.symbol = s)).map binding

def lastSymbol? (log : List Answered) (p : Binding → Bool) : Option SymbolRef :=
  (log.filter fun x => p x.binding).getLast?.map symbol

theorem bindingsOf_append (log : List Answered) (x : Answered) (s : SymbolRef) :
    bindingsOf (log ++ [x]) s =
      if x.symbol = s then bindingsOf log s ++ [x.binding] else bindingsOf log s := by
  by_cases h : x.symbol = s <;> simp [bindingsOf, h]

theorem mem_bindingsOf_iff {log : List Answered} {s : SymbolRef} {c : Binding} :
    c ∈ bindingsOf log s ↔ ⟨c, s⟩ ∈ log := by
  simp only [bindingsOf, List.mem_map, List.mem_filter, decide_eq_true_eq]
  constructor
  · rintro ⟨x, ⟨hx, rfl⟩, rfl⟩
    exact hx
  · intro h
    exact ⟨_, ⟨h, rfl⟩, rfl⟩

theorem lastSymbol?_append (log : List Answered) (x : Answered) (p : Binding → Bool) :
    lastSymbol? (log ++ [x]) p = if p x.binding then some x.symbol else lastSymbol? log p := by
  by_cases h : p x.binding = true <;> simp [lastSymbol?, List.filter_append, h]

theorem mem_of_lastSymbol? {log : List Answered} {p : Binding → Bool} {s : SymbolRef}
    (h : lastSymbol? log p = some s) : ∃ c, p c = true ∧ ⟨c, s⟩ ∈ log := by
  obtain ⟨x, hx, rfl⟩ := Option.map_eq_some_iff.mp h
  have hmem := List.mem_filter.mp (List.mem_of_getLast? hx)
  exact ⟨x.binding, hmem.2, hmem.1⟩

end Answered

namespace Bindings

def apply (b : Bindings) : Binding → Bindings × SymbolRef
  | .ofFile n flags name => b.declare n flags name
  | .ofMember owner n flags name => b.declareMember owner n flags name

def bound (l : List Binding) : Bindings :=
  l.foldl (fun b c => (b.apply c).1) empty

def logFrom (b : Bindings) : List Binding → List Answered
  | [] => []
  | c :: l => ⟨c, (b.apply c).2⟩ :: logFrom (b.apply c).1 l

def log (l : List Binding) : List Answered :=
  logFrom empty l

variable {b : Bindings}

theorem apply_cases (b : Bindings) (c : Binding) :
    (b.apply c).2 = b.next ∧
        (c.isOfFile c.name = true → b.mergeTarget? c.flags c.name = none) ∨
      c.isOfFile c.name = true ∧ b.mergeTarget? c.flags c.name = some (b.apply c).2 := by
  cases c with
  | ofMember owner n flags name => exact .inl ⟨rfl, by simp [Binding.isOfFile]⟩
  | ofFile n flags name =>
    cases h : b.mergeTarget? flags name with
    | none => simp [apply, declare_of_new n h, Binding.name, Binding.flags, h]
    | some s => simp [apply, declare_of_merge n h, Binding.isOfFile, Binding.name, Binding.flags, h]

theorem symbol?_apply (hsize : b.symbols.size < 4294967295) (c : Binding) (s : SymbolRef) :
    (b.apply c).1.symbol? s =
      if s = (b.apply c).2 then
        some (((b.symbol? s).map (·.declare c.node c.flags)).getD c.fresh)
      else b.symbol? s := by
  have hnone := b.symbol?_next
  cases c with
  | ofFile n flags name =>
    cases h : b.mergeTarget? flags name with
    | none =>
      have hanswer : (b.declare n flags name).2 = b.next := by rw [declare_of_new n h]
      simp only [apply, hanswer, symbol?_declare_of_new n h hsize]
      by_cases hs : s = b.next
      · simp [hs, hnone]
        rfl
      · simp [hs]
    | some t =>
      obtain ⟨-, x, hx, -⟩ := mergeTarget?_eq_some_iff.mp h
      simp only [apply, declare_of_merge n h, symbol?_record]
      by_cases hs : s = t
      · simp [hs, hx, Binding.node, Binding.flags]
      · simp [hs]
  | ofMember owner n flags name =>
    have hanswer : (b.declareMember owner n flags name).2 = b.next := rfl
    simp only [apply, hanswer]
    simp only [declareMember, symbol?_record, symbol?_push hsize]
    by_cases hs : s = b.next
    · simp [hs, hnone]
      rfl
    · simp [hs]

theorem nodeSymbols_record (b : Bindings) (t : SymbolRef) (n : NodeRef) (flags : UInt32)
    (m : NodeRef) : (b.record t n flags).nodeSymbols.get? (Row.toWord m) =
      if m.isSome && n = m then some t else b.nodeSymbols.get? (Row.toWord m) := by
  cases n with
  | none => cases t <;> cases m <;> simp [record, modify]
  | some n =>
    have hrecord : (b.record t (some n) flags).nodeSymbols =
        b.nodeSymbols.insert (Row.toWord (some n)) t := by
      cases t <;> rfl
    rw [hrecord, Table.get?_insert]
    by_cases h : some n = m
    · subst h
      simp
    · have hword : ¬ Row.toWord (some n) = Row.toWord m := fun hw => h (Row.toWord_inj.mp hw)
      simp [h, hword]

theorem nodeSymbols_apply (b : Bindings) (c : Binding) (m : NodeRef) :
    (b.apply c).1.nodeSymbols.get? (Row.toWord m) =
      if c.declares m then some (b.apply c).2 else b.nodeSymbols.get? (Row.toWord m) := by
  cases c with
  | ofFile n flags name =>
    cases h : b.mergeTarget? flags name with
    | none =>
      simp only [apply, declare_of_new n h, nodeSymbols_record]
      rfl
    | some t =>
      simp only [apply, declare_of_merge n h, nodeSymbols_record]
      rfl
  | ofMember owner n flags name => exact nodeSymbols_record _ _ _ _ _

theorem fileLocals_apply (b : Bindings) (c : Binding) (name : String) :
    (b.apply c).1.fileLocals.get? name =
      if c.isOfFile name then some (b.apply c).2 else b.fileLocals.get? name := by
  cases c with
  | ofFile n flags name' =>
    simp only [apply, fileLocals_declare, Binding.isOfFile, decide_eq_true_eq]
  | ofMember owner n flags name' =>
    simp [apply, declareMember, fileLocals_record, push, Binding.isOfFile]

theorem size_le_apply (b : Bindings) (c : Binding) :
    b.symbols.size ≤ (b.apply c).1.symbols.size := by
  cases c with
  | ofFile n flags name => exact b.size_le_declare n flags name
  | ofMember owner n flags name =>
    have hsize := b.size_declareMember owner n flags name
    simp only [apply]
    omega

/-- What is known agrees with a log, in which symbols keep their name and members are alone. -/
structure Recorded (b : Bindings) (log : List Answered) : Prop where
  symbol : ∀ s, b.symbol? s = Binding.symbolOf (Answered.bindingsOf log s)
  node : ∀ n, b.nodeSymbols.get? (Row.toWord n) = Answered.lastSymbol? log (·.declares n)
  fileLocal : ∀ name, b.fileLocals.get? name = Answered.lastSymbol? log (·.isOfFile name)
  name : ∀ x ∈ log, ∀ y ∈ log, x.symbol = y.symbol → x.binding.name = y.binding.name
  alone : ∀ x ∈ log, x.binding.isMember = true → Answered.bindingsOf log x.symbol = [x.binding]

theorem recorded_empty : empty.Recorded [] where
  symbol s := by cases s <;> simp [symbol?, empty, Answered.bindingsOf, Binding.symbolOf]
  node _ := rfl
  fileLocal _ := rfl
  name _ hx := by cases hx
  alone _ hx := by cases hx

namespace Recorded

variable {log : List Answered}

theorem owner_eq (h : b.Recorded log) {x y : Answered} (hx : x ∈ log) (hy : y ∈ log)
    (hsymbol : x.symbol = y.symbol) : x.binding.owner = y.binding.owner := by
  by_cases hmember : x.binding.isMember = true
  · have halone := h.alone x hx hmember
    have hin : y.binding ∈ Answered.bindingsOf log x.symbol := by
      rw [hsymbol]
      exact Answered.mem_bindingsOf_iff.mpr hy
    rw [halone, List.mem_singleton] at hin
    rw [hin]
  · by_cases hmember' : y.binding.isMember = true
    · have halone := h.alone y hy hmember'
      have hin : x.binding ∈ Answered.bindingsOf log y.symbol := by
        rw [← hsymbol]
        exact Answered.mem_bindingsOf_iff.mpr hx
      rw [halone, List.mem_singleton] at hin
      rw [hin]
    · rw [Binding.owner_of_not_isMember hmember, Binding.owner_of_not_isMember hmember']

theorem exists_symbol (h : b.Recorded log) {x : Answered} (hx : x ∈ log) :
    ∃ y, b.symbol? x.symbol = some y ∧ y.name = x.binding.name ∧
      y.parent = x.binding.owner := by
  have hmem : x.binding ∈ Answered.bindingsOf log x.symbol := Answered.mem_bindingsOf_iff.mpr hx
  cases hl : Answered.bindingsOf log x.symbol with
  | nil => simp [hl] at hmem
  | cons first rest =>
    have hfirst : (⟨first, x.symbol⟩ : Answered) ∈ log := by
      rw [← Answered.mem_bindingsOf_iff, hl]
      exact List.mem_cons_self
    refine ⟨_, by rw [h.symbol, hl]; rfl, ?_, ?_⟩
    · exact h.name _ hfirst x hx rfl
    · exact h.owner_eq hfirst hx rfl

theorem not_mem_of_next (h : b.Recorded log) {x : Answered} (hx : x ∈ log) :
    x.symbol ≠ b.next := by
  intro heq
  obtain ⟨y, hy, -, -⟩ := h.exists_symbol hx
  rw [heq, b.symbol?_next] at hy
  cases hy

/-- A declaration that joins a symbol has the name of all declarations before it, and none of them
is a member. -/
theorem of_mergeTarget (h : b.Recorded log) {c : Binding} {s : SymbolRef}
    (hs : b.mergeTarget? c.flags c.name = some s) {x : Answered} (hx : x ∈ log)
    (hsymbol : x.symbol = s) : x.binding.name = c.name ∧ x.binding.isMember = false := by
  have hlocal := (mergeTarget?_eq_some_iff.mp hs).1
  rw [h.fileLocal] at hlocal
  obtain ⟨d, hd, hmem⟩ := Answered.mem_of_lastSymbol? hlocal
  obtain ⟨hname, hfile⟩ := Binding.name_of_isOfFile hd
  refine ⟨(h.name x hx _ hmem hsymbol).trans hname, ?_⟩
  by_contra hmember
  rw [Bool.not_eq_false] at hmember
  have halone := h.alone x hx hmember
  have hin : d ∈ Answered.bindingsOf log x.symbol := by
    rw [hsymbol]
    exact Answered.mem_bindingsOf_iff.mpr hmem
  rw [halone, List.mem_singleton] at hin
  rw [hin, hmember] at hfile
  cases hfile

theorem apply (h : b.Recorded log) (hsize : b.symbols.size < 4294967295) (c : Binding) :
    (b.apply c).1.Recorded (log ++ [⟨c, (b.apply c).2⟩]) := by
  have hjoin : ∀ x ∈ log, x.symbol = (b.apply c).2 →
      x.binding.name = c.name ∧ x.binding.isMember = false ∧ c.isMember = false := by
    intro x hx hsymbol
    rcases b.apply_cases c with ⟨hnew, -⟩ | ⟨hfile, hmerge⟩
    · exact absurd (hsymbol.trans hnew) (h.not_mem_of_next hx)
    · obtain ⟨hname, hmember⟩ := h.of_mergeTarget hmerge hx hsymbol
      exact ⟨hname, hmember, (Binding.name_of_isOfFile hfile).2⟩
  refine ⟨fun s => ?_, fun n => ?_, fun name => ?_, ?_, ?_⟩
  · rw [symbol?_apply hsize, Answered.bindingsOf_append, h.symbol]
    by_cases hs : s = (b.apply c).2
    · simp [hs, Binding.symbolOf_append]
    · simp [hs, Ne.symm hs]
  · rw [nodeSymbols_apply, Answered.lastSymbol?_append, h.node]
  · rw [fileLocals_apply, Answered.lastSymbol?_append, h.fileLocal]
  · intro x hx y hy hxy
    rcases List.mem_append.mp hx with hx | hx <;> rcases List.mem_append.mp hy with hy | hy
    · exact h.name x hx y hy hxy
    · obtain rfl := List.mem_singleton.mp hy
      exact (hjoin x hx hxy).1
    · obtain rfl := List.mem_singleton.mp hx
      exact (hjoin y hy hxy.symm).1.symm
    · obtain rfl := List.mem_singleton.mp hx
      obtain rfl := List.mem_singleton.mp hy
      rfl
  · intro x hx hmember
    rw [Answered.bindingsOf_append]
    rcases List.mem_append.mp hx with hx | hx
    · have hne : (b.apply c).2 ≠ x.symbol := by
        intro heq
        have hnot := (hjoin x hx heq.symm).2.1
        rw [hmember] at hnot
        cases hnot
      rw [if_neg hne, h.alone x hx hmember]
    · obtain rfl := List.mem_singleton.mp hx
      have hnone : Answered.bindingsOf log (b.apply c).2 = [] := by
        refine List.eq_nil_iff_forall_not_mem.mpr fun d hd => ?_
        have hnot := (hjoin _ (Answered.mem_bindingsOf_iff.mp hd) rfl).2.2
        rw [hmember] at hnot
        cases hnot
      rw [if_pos rfl, hnone, List.nil_append]

theorem ne_of_isMember {before after : List Answered} {x : Answered}
    (h : b.Recorded (before ++ x :: after)) (hmember : x.binding.isMember = true) :
    ∀ y ∈ before ++ after, y.symbol ≠ x.symbol := by
  have hmem : x ∈ before ++ x :: after := List.mem_append_right _ List.mem_cons_self
  have halone := congrArg List.length (h.alone x hmem hmember)
  have hlength : (Answered.bindingsOf (before ++ after) x.symbol).length = 0 := by
    simp [Answered.bindingsOf] at halone
    simp only [Answered.bindingsOf, List.length_map, List.filter_append, List.length_append]
    omega
  intro y hy hsymbol
  have hin : y.binding ∈ Answered.bindingsOf (before ++ after) x.symbol :=
    hsymbol ▸ Answered.mem_bindingsOf_iff.mpr hy
  rw [List.length_eq_zero_iff.mp hlength] at hin
  cases hin

theorem fileLocal_ne_of_isMember (h : b.Recorded log) {x : Answered} (hx : x ∈ log)
    (hmember : x.binding.isMember = true) (name : String) :
    b.fileLocals.get? name ≠ some x.symbol := by
  intro hlocal
  rw [h.fileLocal] at hlocal
  obtain ⟨d, hd, hmem⟩ := Answered.mem_of_lastSymbol? hlocal
  have hin : d ∈ Answered.bindingsOf log x.symbol := Answered.mem_bindingsOf_iff.mpr hmem
  rw [h.alone x hx hmember, List.mem_singleton] at hin
  have hfile := (Binding.name_of_isOfFile hd).2
  rw [hin, hmember] at hfile
  cases hfile

end Recorded

theorem logFrom_append (b : Bindings) (l l' : List Binding) :
    b.logFrom (l ++ l') =
      b.logFrom l ++ (l.foldl (fun b c => (b.apply c).1) b).logFrom l' := by
  induction l generalizing b with
  | nil => rfl
  | cons c l ih => simp [logFrom, ih]

theorem log_append_singleton (l : List Binding) (c : Binding) :
    log (l ++ [c]) = log l ++ [⟨c, ((bound l).apply c).2⟩] :=
  logFrom_append empty l [c]

theorem bound_append_singleton (l : List Binding) (c : Binding) :
    bound (l ++ [c]) = ((bound l).apply c).1 :=
  List.foldl_append ..

theorem recorded_bound {l : List Binding} (hsize : (bound l).symbols.size < 4294967295) :
    (bound l).Recorded (log l) := by
  induction l using List.reverseRecOn with
  | nil => exact recorded_empty
  | append_singleton l c ih =>
    rw [bound_append_singleton] at hsize ⊢
    rw [log_append_singleton]
    have hlt := Nat.lt_of_le_of_lt ((bound l).size_le_apply c) hsize
    exact (ih hlt).apply hlt c

/-- What is known in the end is determined by the log. A symbol has the flags, the nodes and the
first value node of the declarations answered with it, and the name and the owner of each of them;
a node and a name of the file stand for the last symbol answered. A member is always new, and no
name of the file stands for it. -/
theorem bound_determined_by_log (l : List Binding)
    (hsize : (bound l).symbols.size < 4294967295) :
    (∀ s, (bound l).symbol? s = Binding.symbolOf (Answered.bindingsOf (log l) s)) ∧
    (∀ x ∈ log l, ∃ y, (bound l).symbol? x.symbol = some y ∧
      y.name = x.binding.name ∧ y.parent = x.binding.owner) ∧
    (∀ n, (bound l).nodeSymbols.get? (Row.toWord n) =
      Answered.lastSymbol? (log l) (·.declares n)) ∧
    (∀ name, (bound l).fileLocals.get? name =
      Answered.lastSymbol? (log l) (·.isOfFile name)) ∧
    ∀ before x after, log l = before ++ x :: after → x.binding.isMember = true →
      (∀ y ∈ before ++ after, y.symbol ≠ x.symbol) ∧
        ∀ name, (bound l).fileLocals.get? name ≠ some x.symbol := by
  have h := recorded_bound hsize
  refine ⟨h.symbol, fun x hx => h.exists_symbol hx, h.node, h.fileLocal, ?_⟩
  intro before x after hlog hmember
  have hmem : x ∈ log l := by simp [hlog]
  rw [hlog] at h
  exact ⟨h.ne_of_isMember hmember, (recorded_bound hsize).fileLocal_ne_of_isMember hmem hmember⟩

/-- An interface with a member is opened twice more, once without a node, and then its name is
declared without flags. -/
def reopened : List Binding :=
  [.ofFile (Row.ofIndex 1) SymbolFlags.interface "I",
    .ofMember (Row.ofIndex 0) (Row.ofIndex 2) SymbolFlags.property "I",
    .ofFile none 0x60 "I", .ofFile (Row.ofIndex 7) SymbolFlags.classLike "I",
    .ofFile (Row.ofIndex 1) 0 "I"]

theorem reopened_determined_by_log :
    (bound reopened).symbols.size < 4294967295 ∧
    (bound reopened).symbol? (Row.ofIndex 0) = some
      { flags := 0x60, name := "I", declarations := [Row.ofIndex 1, Row.ofIndex 7],
        valueDeclaration := Row.ofIndex 7 } ∧
    (bound reopened).nodeSymbols.get? 1 = some (Row.ofIndex 2) ∧
    (bound reopened).fileLocals.get? "I" = some (Row.ofIndex 2) := by
  have hsize : (bound reopened).symbols.size < 4294967295 := by decide
  obtain ⟨hsymbol, -, hnode, hlocal, -⟩ := bound_determined_by_log reopened hsize
  refine ⟨hsize, ?_, ?_, ?_⟩
  · rw [hsymbol]
    decide
  · exact (hnode (Row.ofIndex 1)).trans (by decide)
  · rw [hlocal]
    decide

end Bindings

end TypeAtlas
