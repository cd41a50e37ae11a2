import TypeAtlas.Proofs.Draft.Layout
import TypeAtlas.Proofs.Draft.Merging

/-! A draft after any sequence of declarations: its tree, its symbols and its types by name are
those of the declarations made so far. -/

namespace TypeAtlas

namespace Draft

theorem find_note (name : String) (symbol : SymbolRef) (members : List SymbolRef)
    (l : List (String × DeclaredType)) (key : String) :
    Table.find (note name symbol members l) key =
      if name = key then
        match Table.find l name with
        | some type => some { type with members := type.members ++ members }
        | none => some { symbol, members }
      else Table.find l key := by
  induction l with
  | nil => by_cases h : name = key <;> simp [note, Table.find, h]
  | cons entry rest ih =>
    obtain ⟨first, type⟩ := entry
    by_cases hfirst : first = name
    · subst hfirst
      by_cases h : first = key <;> simp [note, Table.find, h]
    · rw [note, if_neg hfirst, Table.find, Table.find, Table.find, if_neg hfirst, ih]
      by_cases hkey : first = key
      · have hne : name ≠ key := fun h => hfirst (hkey.trans h.symm)
        simp [hkey, hne]
      · simp [hkey]

theorem mem_keys_note {name key : String} {symbol : SymbolRef} {members : List SymbolRef}
    {l : List (String × DeclaredType)} (h : key ∈ (note name symbol members l).map Prod.fst) :
    key = name ∨ key ∈ l.map Prod.fst := by
  induction l with
  | nil => simpa [note] using h
  | cons entry rest ih =>
    obtain ⟨first, type⟩ := entry
    by_cases hfirst : first = name
    · rw [note, if_pos hfirst] at h
      exact .inr h
    · rw [note, if_neg hfirst] at h
      rcases List.mem_cons.mp h with rfl | h
      · exact .inr List.mem_cons_self
      · exact (ih h).imp_right (List.mem_cons_of_mem _)

theorem nodup_keys_note {l : List (String × DeclaredType)} (h : (l.map Prod.fst).Nodup)
    (name : String) (symbol : SymbolRef) (members : List SymbolRef) :
    ((note name symbol members l).map Prod.fst).Nodup := by
  induction l with
  | nil => exact List.nodup_singleton name
  | cons entry rest ih =>
    obtain ⟨first, type⟩ := entry
    by_cases hfirst : first = name
    · rwa [note, if_pos hfirst]
    · rw [note, if_neg hfirst]
      obtain ⟨hnot, hrest⟩ := List.nodup_cons.mp h
      refine List.nodup_cons.mpr ⟨fun hmem => ?_, ih hrest⟩
      exact (mem_keys_note hmem).elim hfirst hnot

theorem length_note_le (name : String) (symbol : SymbolRef) (members : List SymbolRef)
    (l : List (String × DeclaredType)) : (note name symbol members l).length ≤ l.length + 1 := by
  induction l with
  | nil => exact Nat.le_refl 1
  | cons entry rest ih =>
    obtain ⟨first, type⟩ := entry
    rw [note]
    split
    · exact Nat.le_succ _
    · exact Nat.succ_le_succ ih

/-- The type of a name: the symbol of its first declaration with the members of all of them. -/
def typeOf (made : List Made) : Option DeclaredType :=
  made.head?.map fun x => { symbol := x.symbol, members := made.flatMap Made.memberSymbols }

theorem typeOf_cons {l : List Made} {first : Made} {rest : List Made} (h : l = first :: rest) :
    typeOf l = some { symbol := first.symbol, members := l.flatMap Made.memberSymbols } := by
  rw [h]
  rfl

structure Typed (declared : List (String × DeclaredType)) (made : List Made) : Prop where
  keys : (declared.map Prod.fst).Nodup
  types : ∀ name, Table.find declared name = typeOf (Made.named made name)

theorem Typed.note {declared : List (String × DeclaredType)} {made : List Made}
    (h : Typed declared made) (y : Made) :
    Typed (note y.declaration.name y.symbol y.memberSymbols declared) (made ++ [y]) := by
  refine ⟨nodup_keys_note h.keys _ _ _, fun name => ?_⟩
  rw [find_note, Made.named_append, Made.named_singleton]
  by_cases hname : y.declaration.name = name
  · subst hname
    rw [if_pos rfl, if_pos rfl, h.types]
    cases Made.named made y.declaration.name <;> simp [typeOf]
  · rw [if_neg hname, if_neg hname, h.types, List.append_nil]

/-- A draft holds exactly what these declarations have made. -/
structure Reflects (d : Draft) (made : List Made) : Prop where
  balanced : d.arena.Balanced
  carries : ∀ x ∈ made,
    d.arena.Carries x.declaration.spec.exportContext x.node x.members x.pending
  targets : ∀ x ∈ made, x.pending.map (·.target) = x.declaration.targets
  length : ∀ x ∈ made, x.members.length = x.declaration.spec.members.length
  statements : d.statements = made.map Made.node
  pending : d.pending = made.flatMap Made.pending
  bound : Bound d.bindings made
  typed : Typed d.declared made
  few : d.declared.length ≤ d.arena.nodes.size

theorem reflects_start (fileName : String) : Reflects (start fileName) [] where
  balanced := Arena.balanced_empty
  carries _ hx := nomatch hx
  targets _ hx := nomatch hx
  length _ hx := nomatch hx
  statements := rfl
  pending := rfl
  bound := .empty
  typed := ⟨.nil, fun _ => rfl⟩
  few := Nat.le_refl 0

def declareEach (d : Draft) (calls : List Declaration) : Draft × NodeList :=
  addEach (fun d c => d.declare c.isClass c.spec) d calls

def build (fileName : String) (calls : List Declaration) : Program × NodeList :=
  let (d, nodes) := (start fileName).declareEach calls
  (d.finish, nodes)

theorem declare_grows {d : Draft} (hb : d.arena.Balanced) (c : Declaration) :
    (d.declare c.isClass c.spec).1.arena.Balanced ∧
      d.arena.nodes.size ≤ (d.declare c.isClass c.spec).1.arena.nodes.size ∧
      d.bindings.symbols.size ≤ (d.declare c.isClass c.spec).1.bindings.symbols.size := by
  obtain ⟨pending, ho⟩ := layOut_outlined d c.isClass c.spec hb
  let laid := d.layOut c.isClass c.spec
  let b₁ := laid.1.bindings.declare laid.2.1 c.flags c.name
  have hdeclare := laid.1.bindings.size_le_declare laid.2.1 c.flags c.name
  have hmembers := size_le_declareMembers b₁.2 b₁.1 (laid.2.2.zip c.spec.members)
  refine ⟨ho.grown.balanced, ho.grown.size_le, ?_⟩
  rw [← ho.bindings_eq]
  exact Nat.le_trans hdeclare hmembers

theorem declareEach_grows {d : Draft} (hb : d.arena.Balanced) (calls : List Declaration) :
    d.arena.nodes.size ≤ (d.declareEach calls).1.arena.nodes.size ∧
      d.bindings.symbols.size ≤ (d.declareEach calls).1.bindings.symbols.size := by
  induction calls generalizing d with
  | nil => exact ⟨Nat.le_refl _, Nat.le_refl _⟩
  | cons c calls ih =>
    obtain ⟨hb, hnodes, hsymbols⟩ := declare_grows hb c
    obtain ⟨hnodes', hsymbols'⟩ := ih hb
    exact ⟨Nat.le_trans hnodes hnodes', Nat.le_trans hsymbols hsymbols'⟩

theorem Reflects.isSome_node {d : Draft} {made : List Made} (h : Reflects d made) {x : Made}
    (hx : x ∈ made) : x.node.isSome := by
  obtain ⟨node, hnode, -⟩ := (h.carries x hx).flags
  obtain ⟨n, hn, -⟩ := Option.bind_eq_some_iff.mp hnode
  exact Option.isSome_of_eq_some hn

theorem Reflects.declare {d : Draft} {made : List Made} (h : Reflects d made) (c : Declaration)
    (hnodes : (d.declare c.isClass c.spec).1.arena.nodes.size < 4294967295)
    (hsymbols : (d.declare c.isClass c.spec).1.bindings.symbols.size < 4294967295) :
    ∃ y, y.declaration = c ∧ y.node = (d.declare c.isClass c.spec).2 ∧
      Reflects (d.declare c.isClass c.spec).1 (made ++ [y]) := by
  obtain ⟨pending, ho⟩ := layOut_outlined d c.isClass c.spec h.balanced
  let laid := d.layOut c.isClass c.spec
  let b₁ := laid.1.bindings.declare laid.2.1 c.flags c.name
  let b₂ := declareMembers b₁.2 b₁.1 (laid.2.2.zip c.spec.members)
  let y : Made :=
    { declaration := c, node := laid.2.1, members := laid.2.2, pending, symbol := b₁.2,
      memberSymbols := b₂.2 }
  have hcarries : laid.1.arena.Carries c.spec.exportContext y.node y.members pending :=
    ho.carries hnodes
  obtain ⟨node, hnode, -⟩ := hcarries.flags
  obtain ⟨n, hn, -⟩ := Option.bind_eq_some_iff.mp hnode
  have hnew : ∀ x ∈ made, ∀ m ∈ x.members, m ≠ y.node ∧ m ∉ y.members := by
    intro x hx m hm
    obtain ⟨old, hold, -⟩ := (h.carries x hx).holds.plain m hm
    have hnot : m ∉ y.node :: y.members := by
      intro hmem
      rw [ho.new m hmem] at hold
      cases hold
    exact not_or.mp (List.mem_cons.not.mp hnot)
  have hplain : ∀ m ∈ y.members, m.isSome := by
    intro m hm
    obtain ⟨id, hid, -⟩ := (hcarries.holds.plain m hm).exists_id
    exact Option.isSome_of_eq_some hid
  have hbindings : laid.1.bindings = d.bindings := ho.bindings_eq
  have hbound : Bound b₂.1 (made ++ [y]) := by
    have hsome : ∀ x ∈ made, x.node.isSome := fun x hx => h.isSome_node hx
    refine h.bound.declare hn hsome hnew hplain hcarries.holds.nodup ho.length ?_ ?_ hsymbols
    · rw [← hbindings]
    · rw [← hbindings]
  have hfew : (note y.declaration.name y.symbol y.memberSymbols d.declared).length ≤
      laid.1.arena.nodes.size := by
    have hle := length_note_le y.declaration.name y.symbol y.memberSymbols d.declared
    exact Nat.le_trans hle (Nat.succ_le_of_lt (Nat.lt_of_le_of_lt h.few ho.size_lt))
  refine ⟨y, rfl, rfl, ⟨ho.grown.balanced, ?_, ?_, ?_, ?_, ?_, hbound, ?_, ?_⟩⟩
  · exact List.forall_mem_append.mpr ⟨fun x hx => ho.grown.carries (h.carries x hx),
      List.forall_mem_singleton.mpr hcarries⟩
  · exact List.forall_mem_append.mpr ⟨h.targets, List.forall_mem_singleton.mpr ho.targets⟩
  · exact List.forall_mem_append.mpr ⟨h.length, List.forall_mem_singleton.mpr ho.length⟩
  · change laid.1.statements ++ [y.node] = _
    rw [ho.statements_eq, h.statements, List.map_append]
    rfl
  · change laid.1.pending = _
    rw [ho.pending_eq, h.pending, List.flatMap_append]
    simp [y]
  · change Typed (note y.declaration.name y.symbol y.memberSymbols laid.1.declared) _
    rw [ho.declared_eq]
    exact h.typed.note y
  · change (note y.declaration.name y.symbol y.memberSymbols laid.1.declared).length ≤ _
    rw [ho.declared_eq]
    exact hfew

theorem Reflects.declareEach {d : Draft} {made : List Made} (h : Reflects d made)
    (calls : List Declaration)
    (hnodes : (d.declareEach calls).1.arena.nodes.size < 4294967295)
    (hsymbols : (d.declareEach calls).1.bindings.symbols.size < 4294967295) :
    ∃ made', made'.map Made.declaration = calls ∧
      made'.map Made.node = (d.declareEach calls).2 ∧
      Reflects (d.declareEach calls).1 (made ++ made') := by
  induction calls generalizing d made with
  | nil => exact ⟨[], rfl, rfl, by rwa [List.append_nil]⟩
  | cons c calls ih =>
    obtain ⟨hb, -, -⟩ := declare_grows h.balanced c
    obtain ⟨hle, hle'⟩ := declareEach_grows hb calls
    obtain ⟨y, hc, hnode, hy⟩ :=
      h.declare c (Nat.lt_of_le_of_lt hle hnodes) (Nat.lt_of_le_of_lt hle' hsymbols)
    obtain ⟨rest, hcalls, hnodes, hrest⟩ := ih hy hnodes hsymbols
    rw [List.append_assoc] at hrest
    refine ⟨y :: rest, ?_, ?_, hrest⟩
    · rw [List.map_cons, hc, hcalls]
    · rw [List.map_cons, hnode, hnodes]
      rfl

end Draft

end TypeAtlas
