import TypeAtlas.Proofs.Draft.Run
import TypeAtlas.Proofs.Heritage.Walk

/-! The program of a draft. Its references have the types of their names, its types are those of the
declared names, and a member is exported as its declaration says. -/

namespace TypeAtlas

theorem Table.find_eq_some_iff {κ ν : Type} [DecidableEq κ] {l : List (κ × ν)} {k : κ} {v : ν}
    (h : (l.map Prod.fst).Nodup) : Table.find l k = some v ↔ (k, v) ∈ l := by
  induction l with
  | nil => simp [Table.find]
  | cons entry rest ih =>
    obtain ⟨key, value⟩ := entry
    obtain ⟨hnot, hrest⟩ := List.nodup_cons.mp h
    rw [Table.find, List.mem_cons, Prod.mk.injEq]
    by_cases hkey : key = k
    · subst hkey
      have hrest : (key, v) ∉ rest := fun hmem => hnot (List.mem_map.mpr ⟨_, hmem, rfl⟩)
      simp [hrest, eq_comm]
    · simp [hkey, Ne.symm hkey, ih hrest]

namespace Draft

def entryOf (type : DeclaredType) : TypeEntry :=
  { symbol := some type.symbol, properties := type.members }

theorem declaredTypes_eq (d : Draft) :
    d.declaredTypes = { types := (d.declared.map fun entry => entryOf entry.2).toArray } := by
  have hfold : ∀ (l : List (String × DeclaredType)) (t : TypeTable),
      l.foldl (fun types entry => (types.add (entryOf entry.2)).1) t =
      { t with types := t.types ++ (l.map fun entry => entryOf entry.2).toArray } := by
    intro l
    induction l with
    | nil => simp
    | cons entry l ih =>
      intro t
      rw [List.foldl_cons, ih]
      simp [TypeTable.add]
  refine (hfold d.declared .empty).trans ?_
  simp [TypeTable.empty]

theorem findType_eq_none_iff {name : String} {k : Nat} {l : List (String × DeclaredType)} :
    findType name k l = none ↔ Table.find l name = none := by
  induction l generalizing k with
  | nil => simp [findType, Table.find]
  | cons entry l ih =>
    obtain ⟨key, type⟩ := entry
    by_cases hkey : key = name <;> simp [findType, Table.find, hkey, ih]

theorem of_findType_eq_some {name : String} {k : Nat} {l : List (String × DeclaredType)}
    {id : TypeId} {type : DeclaredType} (h : findType name k l = some (id, type)) :
    Table.find l name = some type ∧ ∃ i, l[i]? = some (name, type) ∧ id = .ofNat (k + i) := by
  induction l generalizing k with
  | nil => simp [findType] at h
  | cons entry l ih =>
    obtain ⟨key, value⟩ := entry
    by_cases hkey : key = name
    · subst hkey
      obtain ⟨rfl, rfl⟩ : UInt32.ofNat k = id ∧ value = type := by simpa [findType] using h
      exact ⟨by simp [Table.find], 0, rfl, rfl⟩
    · rw [findType, if_neg hkey] at h
      obtain ⟨hfind, i, hi, rfl⟩ := ih h
      refine ⟨by rw [Table.find, if_neg hkey, hfind], i + 1, hi, ?_⟩
      rw [Nat.add_right_comm, Nat.add_assoc]

def typeIdOf (d : Draft) (name : String) : Option TypeId :=
  (findType name 0 d.declared).map Prod.fst

theorem types_resolve (d : Draft) (t : TypeTable) (r : PendingReference) :
    (d.resolve t r).types = t.types := by
  unfold resolve
  split <;> rfl

theorem typeAt?_resolve (d : Draft) (t : TypeTable) (r : PendingReference) {n : NodeRef}
    (hn : n.isSome) : (d.resolve t r).typeAt? n =
      if r.reference = n then (d.typeIdOf r.target).or (t.typeAt? n) else t.typeAt? n := by
  unfold resolve typeIdOf
  split
  · next h => simp [h]
  · next id type h =>
    have hget := Table.get?_insert t.nodeTypes (Row.toWord r.reference) id (Row.toWord n)
    simp only [TypeTable.typeAt?, hn, TypeTable.setTypeAt, TypeTable.setSymbolAt, hget,
      Row.toWord_inj, h]
    rfl

theorem typeAt?_foldl_resolve (d : Draft) {l : List PendingReference} {n : NodeRef}
    {target : String} (hn : n.isSome) (htarget : ∀ r ∈ l, r.reference = n → r.target = target)
    (t : TypeTable) : (l.foldl d.resolve t).typeAt? n =
      if n ∈ l.map (·.reference) then (d.typeIdOf target).or (t.typeAt? n) else t.typeAt? n := by
  induction l generalizing t with
  | nil => rfl
  | cons r l ih =>
    rw [List.foldl_cons, ih fun r hr => htarget r (List.mem_cons_of_mem _ hr),
      typeAt?_resolve d t r hn]
    by_cases hr : r.reference = n
    · have hsame := htarget r List.mem_cons_self hr
      cases hid : d.typeIdOf target <;> simp [hr, hsame, hid]
    · simp [hr, Ne.symm hr]

theorem types_finish (d : Draft) : d.finish.types.types = d.declaredTypes.types := by
  have hfold : ∀ (l : List PendingReference) (t : TypeTable),
      (l.foldl d.resolve t).types = t.types := by
    intro l
    induction l with
    | nil => exact fun _ => rfl
    | cons r l ih => exact fun t => (ih _).trans (types_resolve d t r)
  exact hfold d.pending d.declaredTypes

theorem grown_finish {d : Draft} (hb : d.arena.Balanced) : d.arena.Grown 0 d.finish.arena :=
  Arena.grown_add .sourceFile 0 0 hb fun _ _ => Nat.zero_le _

theorem plain_file (d : Draft) (hsize : d.arena.nodes.size < 4294967295) :
    d.finish.arena.Plain (some ⟨d.arena.nodes.size, hsize⟩) := by
  rw [← Arena.next_eq hsize]
  exact ⟨_, Arena.node?_next _ _ _ _ hsize, rfl⟩

/-- A program with few enough nodes and symbols comes from a draft whose every part is known. -/
theorem exists_reflects (fileName : String) (calls : List Declaration)
    (hnodes : (build fileName calls).1.arena.nodes.size < 4294967295)
    (hsymbols : (build fileName calls).1.bindings.symbols.size < 4294967295) :
    ∃ d made, Reflects d made ∧ d.arena.nodes.size < 4294967295 ∧
      (build fileName calls).1 = d.finish ∧ made.map Made.declaration = calls ∧
      made.map Made.node = (build fileName calls).2 := by
  let d := ((start fileName).declareEach calls).1
  have hlt : d.arena.nodes.size < 4294967295 := by
    have hsize : d.finish.arena.nodes.size = d.arena.nodes.size + 1 :=
      Arena.size_nodes_add d.arena .sourceFile 0 0 _
    change d.finish.arena.nodes.size < 4294967295 at hnodes
    omega
  obtain ⟨made, hcalls, hmade, hreflects⟩ :=
    (reflects_start fileName).declareEach calls hlt hsymbols
  exact ⟨d, made, hreflects, hlt, rfl, hcalls, hmade⟩

namespace Reflects

variable {d : Draft} {made : List Made}

theorem heritageReferences_finish (h : Reflects d made) {x : Made} (hx : x ∈ made) :
    d.finish.heritageReferences x.node = x.pending.map (·.reference) := by
  have hgrown := grown_finish h.balanced
  obtain ⟨content, hcontent, -, hclauses⟩ := (h.carries x hx).content
  have hlinked := (hgrown.clauses hclauses).2
  rw [← hlinked, Program.heritageReferences, Arena.heritageClauses?, hgrown.content hcontent]
  rfl

theorem references_finish (h : Reflects d made) {x : Made} (hx : x ∈ made) :
    d.finish.references x.node = x.pending.map (·.reference) := by
  rw [Program.references_eq, h.heritageReferences_finish hx]

theorem refers (h : Reflects d made) {r : PendingReference} (hr : r ∈ d.pending) :
    d.arena.Refers r.reference r.target := by
  rw [h.pending] at hr
  obtain ⟨x, hx, hr⟩ := List.mem_flatMap.mp hr
  exact (h.carries x hx).holds.refers r hr

theorem typeAt?_finish (h : Reflects d made) {r : PendingReference} (hr : r ∈ d.pending) :
    d.finish.types.typeAt? r.reference = d.typeIdOf r.target := by
  have hsome : r.reference.isSome := by
    obtain ⟨e, hc, -⟩ := h.refers hr
    cases hreference : r.reference with
    | none => rw [hreference] at hc; cases hc
    | some id => rfl
  have htarget : ∀ q ∈ d.pending, q.reference = r.reference → q.target = r.target :=
    fun q hq heq => (heq ▸ h.refers hq).target_unique (h.refers hr)
  change (d.pending.foldl d.resolve d.declaredTypes).typeAt? r.reference = _
  rw [typeAt?_foldl_resolve d hsome htarget, if_pos (List.mem_map_of_mem hr), declaredTypes_eq]
  simp [TypeTable.typeAt?, Table.get?, Table.empty, Table.find]

theorem typeAt?_eq_none (h : Reflects d made) {r : PendingReference} (hr : r ∈ d.pending)
    (hnone : Made.named made r.target = []) : d.finish.types.typeAt? r.reference = none := by
  have hfind : Table.find d.declared r.target = none := by rw [h.typed.types, hnone]; rfl
  rw [h.typeAt?_finish hr, typeIdOf, findType_eq_none_iff.mpr hfind]
  rfl

theorem exists_entry (h : Reflects d made) {r : PendingReference} (hr : r ∈ d.pending)
    {type : DeclaredType} (htype : typeOf (Made.named made r.target) = some type)
    (hsize : d.arena.nodes.size < 4294967295) :
    ∃ id, d.finish.types.typeAt? r.reference = some id ∧
      d.finish.types.entry? id = some (entryOf type) := by
  rw [← h.typed.types] at htype
  cases hfound : findType r.target 0 d.declared with
  | none =>
    rw [findType_eq_none_iff.mp hfound] at htype
    cases htype
  | some found =>
    obtain ⟨id, type'⟩ := found
    obtain ⟨hfind, i, hi, rfl⟩ := of_findType_eq_some hfound
    obtain rfl := Option.some.inj (hfind.symm.trans htype)
    have hlt : i < d.declared.length := (List.getElem?_eq_some_iff.mp hi).1
    have hfew := h.few
    have hword : (UInt32.ofNat (0 + i)).toNat = i := by
      rw [Nat.zero_add]
      exact UInt32.toNat_ofNat_of_lt' (by simp only [UInt32.size]; omega)
    refine ⟨_, by rw [h.typeAt?_finish hr, typeIdOf, hfound]; rfl, ?_⟩
    rw [TypeTable.entry?, hword, types_finish, declaredTypes_eq]
    simp [hi]

theorem mem_types_iff (h : Reflects d made) {entry : TypeEntry} :
    entry ∈ d.finish.types.types ↔
      ∃ name type, typeOf (Made.named made name) = some type ∧ entry = entryOf type := by
  rw [types_finish, declaredTypes_eq]
  simp only [List.mem_toArray, List.mem_map, Prod.exists, ← h.typed.types,
    Table.find_eq_some_iff h.typed.keys, eq_comm]

theorem parent_finish (h : Reflects d made) (n : NodeId) :
    d.finish.arena.parent (some n) =
      if some n ∈ made.map Made.node ∧ n.index ≤ d.arena.nodes.size then d.arena.next
      else d.arena.parent (some n) := by
  rw [← h.statements]
  exact Arena.parent_add h.balanced .sourceFile 0 0 _ n

theorem ancestry_member (h : Reflects d made) {x : Made} (hx : x ∈ made) {m n : NodeId}
    (hm : some m ∈ x.members) (hn : x.node = some n) (hsize : d.arena.nodes.size < 4294967295) :
    d.finish.arena.ancestry (some m) = [m, n, ⟨d.arena.nodes.size, hsize⟩] := by
  have hgrown := grown_finish h.balanced
  have hcarries := h.carries x hx
  obtain ⟨member, hmember, -⟩ := hcarries.holds.plain _ hm
  obtain ⟨node, hnode, -⟩ := hcarries.flags
  rw [hn] at hnode
  obtain ⟨file, hfile, -⟩ := d.plain_file hsize
  have hparent : d.finish.arena.parent (some m) = some n := by
    have hnot : some m ∉ made.map Made.node := by
      intro hmem
      obtain ⟨z, hz, hzm⟩ := List.mem_map.mp hmem
      have hroot := (h.carries z hz).root
      rw [hzm, hcarries.parent _ hm, hn] at hroot
      cases hroot
    rw [h.parent_finish, if_neg fun hboth => hnot hboth.1, hcarries.parent _ hm, hn]
  have hroot : d.finish.arena.parent (some n) = some ⟨d.arena.nodes.size, hsize⟩ := by
    have hmem : some n ∈ made.map Made.node := hn ▸ List.mem_map_of_mem hx
    have hlt := Arena.index_lt_of_node? hnode
    rw [h.parent_finish, if_pos ⟨hmem, Nat.le_of_lt hlt⟩, Arena.next_eq hsize]
  have htop : d.finish.arena.parent (some ⟨d.arena.nodes.size, hsize⟩) = none := by
    have hnot : some ⟨d.arena.nodes.size, hsize⟩ ∉ made.map Made.node := by
      intro hmem
      obtain ⟨z, hz, hzm⟩ := List.mem_map.mp hmem
      obtain ⟨old, hold, -⟩ := (h.carries z hz).flags
      rw [hzm] at hold
      exact Nat.lt_irrefl _ (Arena.index_lt_of_node? hold)
    rw [h.parent_finish, if_neg fun hboth => hnot hboth.1]
    exact Arena.parent_eq_none h.balanced (Nat.le_refl _)
  change d.finish.arena.climb (9997 + 1 + 1 + 1) (some m) = _
  rw [Arena.climb_succ (hgrown.node hmember), hparent, Arena.climb_succ (hgrown.node hnode), hroot,
    Arena.climb_succ hfile, htop, Arena.climb_none]

theorem inExportContext_member (h : Reflects d made) {x : Made} (hx : x ∈ made) {m : NodeRef}
    (hm : m ∈ x.members) (hsize : d.arena.nodes.size < 4294967295) {s : Symbol}
    (hs : s.valueDeclaration = m) :
    s.inExportContext d.finish.arena = x.declaration.spec.exportContext := by
  have hgrown := grown_finish h.balanced
  have hcarries := h.carries x hx
  obtain ⟨member, hmember, hplain⟩ := hcarries.holds.plain _ hm
  obtain ⟨id, rfl, -⟩ := Option.bind_eq_some_iff.mp hmember
  obtain ⟨node, hnode, hflags⟩ := hcarries.flags
  obtain ⟨n, hn, -⟩ := Option.bind_eq_some_iff.mp hnode
  obtain ⟨file, hfile, hfileflags⟩ := d.plain_file hsize
  rw [hn] at hnode
  rw [Symbol.inExportContext, hs, h.ancestry_member hx hm hn hsize]
  simp only [List.any_cons, List.any_nil, hgrown.node hmember, hgrown.node hnode, hfile,
    Option.any_some, hplain, hflags, hfileflags]
  cases x.declaration.spec.exportContext <;> decide

theorem exists_member (h : Reflects d made) {x : Made} (hx : x ∈ made) {s : SymbolRef}
    (hs : s ∈ x.memberSymbols) : ∃ m ∈ x.members, ∃ name,
      d.bindings.symbol? s = some (Bindings.memberSymbol x.symbol m name) ∧
        d.bindings.nodeSymbol? m = some s := by
  obtain ⟨⟨m, name⟩, hmem, hsymbol, hnode⟩ := exists_left_of_forall₂ (h.bound.members x hx) hs
  exact ⟨m, (List.of_mem_zip hmem).1, name, hsymbol, hnode⟩

theorem isExportedMember_finish (h : Reflects d made) {x : Made} (hx : x ∈ made) {s : SymbolRef}
    (hs : s ∈ x.memberSymbols) (hsize : d.arena.nodes.size < 4294967295) :
    d.finish.isExportedMember s = x.declaration.spec.exportContext := by
  obtain ⟨m, hm, name, hsymbol, -⟩ := h.exists_member hx hs
  change (d.bindings.symbol? s).any (·.inExportContext d.finish.arena) = _
  rw [hsymbol]
  exact h.inExportContext_member hx hm hsize rfl

theorem symbolNames_memberSymbols (h : Reflects d made) {x : Made} (hx : x ∈ made) :
    d.finish.symbolNames x.memberSymbols = x.declaration.spec.members := by
  have hnames : ∀ {l : List (NodeRef × String)} {symbols : List SymbolRef},
      List.Forall₂ (fun m s => d.bindings.symbol? s =
        some (Bindings.memberSymbol x.symbol m.1 m.2) ∧ d.bindings.nodeSymbol? m.1 = some s)
        l symbols → d.finish.symbolNames symbols = l.map Prod.snd := by
    intro l symbols hall
    induction hall with
    | nil => rfl
    | cons hfirst _ ih =>
      change (List.map Symbol.name (List.filterMap d.bindings.symbol? _)) = _
      rw [List.filterMap_cons_some hfirst.1, List.map_cons, List.map_cons]
      exact congrArg (_ :: ·) ih
  rw [hnames (h.bound.members x hx)]
  exact List.map_snd_zip (Nat.le_of_eq (h.length x hx).symm)

end Reflects

end Draft

end TypeAtlas
