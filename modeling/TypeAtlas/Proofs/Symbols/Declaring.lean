import TypeAtlas.Draft
import TypeAtlas.Proofs.Tree.Growth
import Mathlib.Data.List.Forall2

/-! What a declaration does to the symbols: which symbol it merges into or makes, and what stays as
it was for all others. -/

namespace TypeAtlas

theorem Row.toWord_inj {sheet : Sheet} {a b : Option (Row sheet)} :
    toWord a = toWord b ↔ a = b := by
  constructor
  · intro h
    rw [← ofWord_toWord a, h, ofWord_toWord]
  · rintro rfl
    rfl

namespace Bindings

variable {b : Bindings}

theorem next_eq (h : b.symbols.size < 4294967295) : b.next = some ⟨b.symbols.size, h⟩ :=
  Row.ofIndex_of_lt h

theorem symbol?_next (b : Bindings) : b.symbol? b.next = none := by
  cases h : b.next with
  | none => rfl
  | some s => simp [symbol?, Row.index_of_ofIndex h]

theorem symbol?_push (h : b.symbols.size < 4294967295) (x : Symbol) (s : SymbolRef) :
    (b.push x).symbol? s = if s = b.next then some x else b.symbol? s := by
  cases s with
  | none => simp [symbol?, next_eq h]
  | some s =>
    have hiff : some s = b.next ↔ s.index = b.symbols.size := by
      rw [next_eq h]
      cases s
      simp
    simp only [symbol?, push, Option.bind_some, Array.getElem?_push, hiff]

theorem symbol?_modify (b : Bindings) (t s : SymbolRef) (f : Symbol → Symbol) :
    (b.modify t f).symbol? s = if s = t then (b.symbol? s).map f else b.symbol? s := by
  cases t with
  | none => cases s <;> simp [modify, symbol?]
  | some t =>
    cases s with
    | none => simp [symbol?]
    | some s =>
      have hiff : t.index = s.index ↔ s = t := by
        cases s
        cases t
        simp [eq_comm]
      simp [modify, symbol?, Array.getElem?_modify, hiff]

theorem symbol?_record (b : Bindings) (t s : SymbolRef) (n : NodeRef) (flags : UInt32) :
    (b.record t n flags).symbol? s =
      if s = t then (b.symbol? s).map (·.declare n flags) else b.symbol? s := by
  rw [← symbol?_modify]
  cases n <;> rfl

theorem fileLocals_record (b : Bindings) (t : SymbolRef) (n : NodeRef) (flags : UInt32) :
    (b.record t n flags).fileLocals = b.fileLocals := by
  cases n <;> cases t <;> rfl

theorem size_record (b : Bindings) (t : SymbolRef) (n : NodeRef) (flags : UInt32) :
    (b.record t n flags).symbols.size = b.symbols.size := by
  cases n <;> cases t <;> simp [record, modify, link]

theorem nodeSymbol?_record (b : Bindings) (t : SymbolRef) (n : NodeId) (flags : UInt32)
    (m : NodeRef) : (b.record t (some n) flags).nodeSymbol? m =
      if m = some n then some t else b.nodeSymbol? m := by
  have hrecord : (b.record t (some n) flags).nodeSymbols =
      b.nodeSymbols.insert (Row.toWord (some n)) t := by
    cases t <;> rfl
  cases m with
  | none => simp [nodeSymbol?]
  | some m =>
    have hiff : Row.toWord (some n) = Row.toWord (some m) ↔ some m = some n :=
      Row.toWord_inj.trans eq_comm
    simp [nodeSymbol?, hrecord, Table.get?_insert, hiff]

def declared (flags : UInt32) (name : String) (n : NodeRef) : Symbol :=
  Symbol.declare { flags, name } n flags

theorem mergeTarget?_eq_some_iff {flags : UInt32} {name : String} {s : SymbolRef} :
    b.mergeTarget? flags name = some s ↔ b.fileLocals.get? name = some s ∧
      ∃ x, b.symbol? s = some x ∧ x.hasAnyFlag flags = true := by
  simp only [mergeTarget?, Option.filter_eq_some_iff, Option.any_eq_true]

theorem declare_of_merge {flags : UInt32} {name : String} {s : SymbolRef} (n : NodeRef)
    (h : b.mergeTarget? flags name = some s) :
    b.declare n flags name = (b.record s n flags, s) := by
  simp [declare, h]

theorem declare_of_new {flags : UInt32} {name : String} (n : NodeRef)
    (h : b.mergeTarget? flags name = none) :
    b.declare n flags name =
      (((b.push { flags, name }).setLocal name b.next).record b.next n flags, b.next) := by
  simp [declare, h, alloc]

theorem fileLocals_declare (b : Bindings) (n : NodeRef) (flags : UInt32) (name other : String) :
    (b.declare n flags name).1.fileLocals.get? other =
      if name = other then some (b.declare n flags name).2 else b.fileLocals.get? other := by
  cases h : b.mergeTarget? flags name with
  | some s =>
    rw [declare_of_merge n h, fileLocals_record]
    split_ifs with hname
    · subst hname
      exact (mergeTarget?_eq_some_iff.mp h).1
    · rfl
  | none =>
    rw [declare_of_new n h, fileLocals_record]
    exact Table.get?_insert _ _ _ _

theorem nodeSymbol?_declare {n : NodeId} {m : NodeRef} (hne : m ≠ some n) (flags : UInt32)
    (name : String) : (b.declare (some n) flags name).1.nodeSymbol? m = b.nodeSymbol? m := by
  cases h : b.mergeTarget? flags name with
  | some s => rw [declare_of_merge _ h, nodeSymbol?_record, if_neg hne]
  | none =>
    rw [declare_of_new _ h, nodeSymbol?_record, if_neg hne]
    rfl

theorem size_le_declare (b : Bindings) (n : NodeRef) (flags : UInt32) (name : String) :
    b.symbols.size ≤ (b.declare n flags name).1.symbols.size := by
  cases h : b.mergeTarget? flags name with
  | some s =>
    rw [declare_of_merge n h]
    exact Nat.le_of_eq (size_record b s n flags).symm
  | none =>
    rw [declare_of_new n h, size_record]
    simp [setLocal, push]

theorem symbol?_declare_of_new {flags : UInt32} {name : String} (n : NodeRef)
    (h : b.mergeTarget? flags name = none) (hsize : b.symbols.size < 4294967295) (s : SymbolRef) :
    (b.declare n flags name).1.symbol? s =
      if s = b.next then some (declared flags name n) else b.symbol? s := by
  rw [declare_of_new n h, symbol?_record]
  change (if s = b.next then ((b.push { flags, name }).symbol? s).map _
    else (b.push { flags, name }).symbol? s) = _
  rw [symbol?_push hsize]
  split_ifs <;> rfl

def memberSymbol (owner : SymbolRef) (n : NodeRef) (name : String) : Symbol :=
  { flags := SymbolFlags.property, name, declarations := [n], valueDeclaration := n,
    parent := owner }

theorem symbol?_declareMember (hsize : b.symbols.size < 4294967295) (owner : SymbolRef)
    (n : NodeId) (name : String) (s : SymbolRef) :
    (b.declareMember owner (some n) SymbolFlags.property name).1.symbol? s =
      if s = b.next then some (memberSymbol owner (some n) name) else b.symbol? s := by
  have hvalue : (SymbolFlags.property &&& SymbolFlags.value != 0) = true := by decide
  simp only [declareMember, symbol?_record, symbol?_push hsize]
  split_ifs
  · simp [Symbol.declare, memberSymbol, hvalue]
  · rfl

theorem size_declareMember (b : Bindings) (owner : SymbolRef) (n : NodeRef) (flags : UInt32)
    (name : String) :
    (b.declareMember owner n flags name).1.symbols.size = b.symbols.size + 1 := by
  simp [declareMember, size_record, push]

/-- Members of one owner have been declared, and nothing else has changed. -/
structure MembersDeclared (owner : SymbolRef) (b b' : Bindings) (members : List (NodeRef × String))
    (symbols : List SymbolRef) : Prop where
  fileLocals : b'.fileLocals = b.fileLocals
  kept : ∀ {s x}, b.symbol? s = some x → b'.symbol? s = some x
  others : ∀ n, n ∉ members.map Prod.fst → b'.nodeSymbol? n = b.nodeSymbol? n
  made : List.Forall₂ (fun m s => b'.symbol? s = some (memberSymbol owner m.1 m.2) ∧
    b'.nodeSymbol? m.1 = some s) members symbols

end Bindings

namespace Draft

theorem size_le_declareMembers (owner : SymbolRef) (b : Bindings)
    (members : List (NodeRef × String)) :
    b.symbols.size ≤ (declareMembers owner b members).1.symbols.size := by
  induction members generalizing b with
  | nil => exact Nat.le_refl _
  | cons m members ih =>
    have hstep := Bindings.size_declareMember b owner m.1 SymbolFlags.property m.2
    have hrest := ih (b.declareMember owner m.1 SymbolFlags.property m.2).1
    change _ ≤ (declareMembers owner (b.declareMember owner m.1 SymbolFlags.property m.2).1
      members).1.symbols.size
    omega

theorem membersDeclared {owner : SymbolRef} {b : Bindings} {members : List (NodeRef × String)}
    (hsome : ∀ m ∈ members, m.1.isSome) (hnodup : (members.map Prod.fst).Nodup)
    (hsize : (declareMembers owner b members).1.symbols.size < 4294967295) :
    b.MembersDeclared owner (declareMembers owner b members).1 members
      (declareMembers owner b members).2 := by
  induction members generalizing b with
  | nil => exact ⟨rfl, id, fun _ _ => rfl, .nil⟩
  | cons m members ih =>
    obtain ⟨n, name⟩ := m
    obtain ⟨id, rfl⟩ := Option.isSome_iff_exists.mp (hsome _ List.mem_cons_self)
    obtain ⟨hnot, hnodup⟩ := List.nodup_cons.mp hnodup
    let step := b.declareMember owner (some id) SymbolFlags.property name
    have hstep : step.1.symbols.size = b.symbols.size + 1 := Bindings.size_declareMember ..
    change (declareMembers owner step.1 members).1.symbols.size < 4294967295 at hsize
    have hle := size_le_declareMembers owner step.1 members
    have hb : b.symbols.size < 4294967295 := by omega
    have hlookup := Bindings.symbol?_declareMember hb owner id name
    have hrest := ih (fun m hm => hsome m (List.mem_cons_of_mem _ hm)) hnodup hsize
    have hnext : step.1.symbol? b.next = some (Bindings.memberSymbol owner (some id) name) := by
      rw [hlookup, if_pos rfl]
    have hnode : step.1.nodeSymbol? (some id) = some b.next := by
      simp [step, Bindings.declareMember, Bindings.nodeSymbol?_record]
    refine ⟨?_, ?_, ?_, .cons ⟨hrest.kept hnext, ?_⟩ hrest.made⟩
    · rw [declareMembers, hrest.fileLocals]
      exact Bindings.fileLocals_record ..
    · intro s x hs
      have hne : s ≠ b.next := by
        rintro rfl
        rw [b.symbol?_next] at hs
        cases hs
      apply hrest.kept
      rw [hlookup, if_neg hne, hs]
    · intro m hm
      obtain ⟨hne, hm⟩ := not_or.mp (List.mem_cons.not.mp hm)
      refine (hrest.others m hm).trans ?_
      simp only [step, Bindings.declareMember, Bindings.nodeSymbol?_record, if_neg hne]
      rfl
    · exact (hrest.others _ hnot).trans hnode

end Draft

end TypeAtlas
