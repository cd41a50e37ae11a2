import TypeAtlas.Json.Codec

/-! Finite maps with their keys in the order in which they came. -/

namespace TypeAtlas

structure Table (κ ν : Type) where
  entries : List (κ × ν)
  keys_nodup : (entries.map Prod.fst).Nodup

namespace Table

variable {κ ν : Type} [DecidableEq κ]

def empty : Table κ ν :=
  ⟨[], List.nodup_nil⟩

instance : Inhabited (Table κ ν) :=
  ⟨empty⟩

def size (t : Table κ ν) : Nat :=
  t.entries.length

def find : List (κ × ν) → κ → Option ν
  | [], _ => none
  | (key, value) :: rest, k => if key = k then some value else find rest k

def get? (t : Table κ ν) (k : κ) : Option ν :=
  find t.entries k

/-- The entries with the value of one key replaced, or with the key at the end. -/
def put (k : κ) (v : ν) : List (κ × ν) → List (κ × ν)
  | [] => [(k, v)]
  | (key, value) :: rest => if key = k then (key, v) :: rest else (key, value) :: put k v rest

theorem mem_keys_put {k key : κ} {v : ν} {entries : List (κ × ν)} :
    key ∈ (put k v entries).map Prod.fst ↔ key = k ∨ key ∈ entries.map Prod.fst := by
  induction entries with
  | nil => simp [put]
  | cons entry rest ih =>
    by_cases h : entry.1 = k
    · simp only [put, h, if_true, List.map_cons, List.mem_cons]
      constructor
      · rintro (rfl | hr)
        · exact .inl rfl
        · exact .inr (.inr hr)
      · rintro (rfl | rfl | hr)
        · exact .inl rfl
        · exact .inl rfl
        · exact .inr hr
    · simp only [put, h, if_false, List.map_cons, List.mem_cons, ih]
      constructor
      · rintro (rfl | rfl | hr)
        · exact .inr (.inl rfl)
        · exact .inl rfl
        · exact .inr (.inr hr)
      · rintro (rfl | rfl | hr)
        · exact .inr (.inl rfl)
        · exact .inl rfl
        · exact .inr (.inr hr)

theorem nodup_keys_put {k : κ} {v : ν} {entries : List (κ × ν)}
    (h : (entries.map Prod.fst).Nodup) : ((put k v entries).map Prod.fst).Nodup := by
  induction entries with
  | nil => simp [put]
  | cons entry rest ih =>
    obtain ⟨first, value⟩ := entry
    rw [List.map_cons, List.nodup_cons] at h
    by_cases hk : first = k
    · subst hk
      simpa [put] using h
    · rw [put, if_neg hk, List.map_cons, List.nodup_cons, mem_keys_put, not_or]
      exact ⟨⟨hk, h.1⟩, ih h.2⟩

def insert (t : Table κ ν) (k : κ) (v : ν) : Table κ ν :=
  ⟨put k v t.entries, nodup_keys_put t.keys_nodup⟩

theorem get?_insert (t : Table κ ν) (k : κ) (v : ν) (key : κ) :
    (t.insert k v).get? key = if k = key then some v else t.get? key := by
  simp only [get?, insert]
  induction t.entries with
  | nil => simp [put, find]
  | cons entry rest ih =>
    obtain ⟨first, value⟩ := entry
    by_cases hk : first = k
    · subst hk
      by_cases hkey : first = key <;> simp [put, find, hkey]
    · rw [put, if_neg hk, find, find]
      by_cases hkey : first = key
      · have : ¬ k = key := fun h => hk (hkey.trans h.symm)
        simp [hkey, this]
      · simp [hkey, ih]

/-- Inserts the entries of a list from left to right, so that the last value of a key stays. -/
def ofList (entries : List (κ × ν)) : Table κ ν :=
  entries.foldl (fun t (k, v) => t.insert k v) empty

/-- An object with the keys as the names of its members. -/
def codec (spell : κ → List Char) (key? : List Char → Option κ) (c : Codec ν) :
    Codec (Table κ ν) where
  encode t := .object (t.entries.map fun (k, v) => (spell k, c.encode v))
  decode
    | .object members => do
      let entries ← members.mapM fun (key, v) =>
        match key? key with
        | none => .error .malformed
        | some k => (c.decode v).map fun v => (k, v)
      return ofList entries
    | _ => .error .malformed

def namedCodec (c : Codec ν) : Codec (Table String ν) :=
  codec (fun k => Json.escape k.toList) (fun key => (Json.unescape key).map String.ofList) c

/-- Tables by number. A key has digits only, and the first one is zero only in `0`. -/
def numberedCodec (c : Codec ν) : Codec (Table UInt32 ν) :=
  codec (fun k => Nat.toDigits 10 k.toNat)
    (fun key =>
      match Json.scanInteger key with
      | some (digits, []) =>
        let n := Nat.ofDigitChars 10 digits 0
        if n < UInt32.size then some (.ofNat n) else none
      | _ => none)
    c

end Table

end TypeAtlas
