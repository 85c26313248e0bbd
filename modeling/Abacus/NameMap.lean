import Abacus.Bytes

/-!
# Maps from names

A finite map from byte strings, as the list of its entries in the order of the bytes of the names.
Because the order is strict, a map has one list of entries only, and two maps with the same
lookups are the same map (`NameMap.ext_find?`).
-/

namespace Abacus

namespace NameMap

variable {α : Type}

/-! ## Entries in order -/

/-- The value of a name among some entries. -/
def lookup (name : Bytes) : List (Bytes × α) → Option α
  | [] => none
  | (key, value) :: rest => if key = name then some value else lookup name rest

/-- Entries with one name set to a value; an entry of that name is replaced. -/
def place (name : Bytes) (value : α) : List (Bytes × α) → List (Bytes × α)
  | [] => [(name, value)]
  | (key, old) :: rest =>
    if name < key then (name, value) :: (key, old) :: rest
    else if key = name then (name, value) :: rest
    else (key, old) :: place name value rest

/-- The names of some entries strictly ascend. -/
def Ascending (entries : List (Bytes × α)) : Prop := entries.Pairwise fun a b ↦ a.1 < b.1

theorem mem_place {name : Bytes} {value : α} {entry : Bytes × α} {entries : List (Bytes × α)}
    (h : entry ∈ place name value entries) : entry = (name, value) ∨ entry ∈ entries := by
  induction entries with
  | nil => simpa [place] using h
  | cons head rest ih =>
    obtain ⟨key, old⟩ := head
    simp only [place] at h
    split at h
    · simpa using h
    · split at h
      · rcases List.mem_cons.mp h with h | h
        · exact .inl h
        · exact .inr (List.mem_cons_of_mem _ h)
      · rcases List.mem_cons.mp h with h | h
        · exact .inr (h ▸ List.mem_cons_self)
        · exact (ih h).imp_right (List.mem_cons_of_mem _)

theorem lt_of_not_lt_of_ne {a b : Bytes} (h : ¬a < b) (hne : b ≠ a) : b < a :=
  Classical.byContradiction fun h' ↦ hne (Std.Trichotomous.trichotomous b a h' h)

theorem Ascending.place {entries : List (Bytes × α)} (h : Ascending entries) (name : Bytes)
    (value : α) : Ascending (place name value entries) := by
  induction entries with
  | nil => simp [NameMap.place, Ascending]
  | cons head rest ih =>
    obtain ⟨key, old⟩ := head
    obtain ⟨hhead, hrest⟩ := List.pairwise_cons.mp h
    simp only [NameMap.place]
    split
    · next hlt =>
      refine List.pairwise_cons.mpr ⟨fun e he ↦ ?_, h⟩
      rcases List.mem_cons.mp he with rfl | he
      · exact hlt
      · exact List.lt_trans hlt (hhead e he)
    · next hlt =>
      split
      · next heq =>
        subst heq
        exact List.pairwise_cons.mpr ⟨hhead, hrest⟩
      · next hne =>
        refine List.pairwise_cons.mpr ⟨fun e he ↦ ?_, ih hrest⟩
        rcases mem_place he with rfl | he
        · exact lt_of_not_lt_of_ne hlt hne
        · exact hhead e he

end NameMap

/-- A finite map from names. -/
structure NameMap (α : Type) where
  /-- The entries, in the order of their names. -/
  entries : List (Bytes × α)
  /-- The names strictly ascend. -/
  ascending : NameMap.Ascending entries

namespace NameMap

variable {α : Type}

/-! ## Operations -/

/-- The map without entries. -/
def empty : NameMap α := ⟨[], .nil⟩

instance : Inhabited (NameMap α) := ⟨empty⟩

/-- The number of entries. -/
def size (m : NameMap α) : Nat := m.entries.length

/-- The value of a name. -/
def find? (m : NameMap α) (name : Bytes) : Option α := lookup name m.entries

/-- The map with one name set to a value. -/
def insert (m : NameMap α) (name : Bytes) (value : α) : NameMap α :=
  ⟨place name value m.entries, m.ascending.place name value⟩

/-- The map with every entry of another one set. -/
def overlay (m other : NameMap α) : NameMap α :=
  other.entries.foldl (fun m entry ↦ m.insert entry.1 entry.2) m

/-- The map of some entries, where the last one of a name counts. -/
def ofList (entries : List (Bytes × α)) : NameMap α :=
  entries.foldl (fun m entry ↦ m.insert entry.1 entry.2) empty

/-! ## Lookups -/

theorem lookup_place (name : Bytes) (value : α) (other : Bytes) (entries : List (Bytes × α)) :
    lookup other (place name value entries)
      = if name = other then some value else lookup other entries := by
  induction entries with
  | nil => rfl
  | cons head rest ih =>
    obtain ⟨key, old⟩ := head
    simp only [place]
    split
    · rfl
    · split
      · next heq =>
        subst heq
        simp only [lookup]
        split
        · rfl
        · rfl
      · next hne =>
        simp only [lookup, ih]
        by_cases h1 : key = other
        · subst h1
          simp [Ne.symm hne]
        · simp [h1]

@[simp] theorem find?_empty (name : Bytes) : (empty : NameMap α).find? name = none := rfl

theorem find?_insert (m : NameMap α) (name : Bytes) (value : α) (other : Bytes) :
    (m.insert name value).find? other = if name = other then some value else m.find? other :=
  lookup_place name value other m.entries

/-! ## Extensionality -/

theorem lookup_of_lt {name : Bytes} {entries : List (Bytes × α)}
    (h : ∀ entry ∈ entries, name < entry.1) : lookup name entries = none := by
  induction entries with
  | nil => rfl
  | cons head rest ih =>
    have hlt := h head List.mem_cons_self
    have hne : head.1 ≠ name := fun heq ↦ List.lt_irrefl name (heq ▸ hlt)
    rw [lookup, if_neg hne]
    exact ih fun entry he ↦ h entry (List.mem_cons_of_mem _ he)

private theorem not_lt_of_lookup {key name : Bytes} {value old : α} {rest other : List (Bytes × α)}
    (hother : Ascending ((name, old) :: other))
    (h : lookup key ((key, value) :: rest) = lookup key ((name, old) :: other)) :
    ¬key < name := by
  intro hlt
  have hnone : lookup key ((name, old) :: other) = none :=
    lookup_of_lt fun entry he ↦ by
      rcases List.mem_cons.mp he with rfl | he
      · exact hlt
      · exact List.lt_trans hlt ((List.pairwise_cons.mp hother).1 entry he)
  rw [← h, lookup, if_pos rfl] at hnone
  cases hnone

theorem eq_of_lookup {l₁ l₂ : List (Bytes × α)} (h₁ : Ascending l₁) (h₂ : Ascending l₂)
    (h : ∀ name, lookup name l₁ = lookup name l₂) : l₁ = l₂ := by
  induction l₁ generalizing l₂ with
  | nil =>
    cases l₂ with
    | nil => rfl
    | cons head rest => simpa [lookup] using h head.1
  | cons head rest ih =>
    obtain ⟨key, value⟩ := head
    cases l₂ with
    | nil => simpa [lookup] using h key
    | cons head₂ rest₂ =>
      obtain ⟨key₂, value₂⟩ := head₂
      obtain rfl : key = key₂ := Std.Trichotomous.trichotomous key key₂
        (not_lt_of_lookup h₂ (h key)) (not_lt_of_lookup h₁ (h key₂).symm)
      have hvalue := h key
      simp only [lookup, if_true, Option.some.injEq] at hvalue
      obtain ⟨hhead, hrest⟩ := List.pairwise_cons.mp h₁
      obtain ⟨hhead₂, hrest₂⟩ := List.pairwise_cons.mp h₂
      rw [hvalue, ih hrest hrest₂ fun name ↦ ?_]
      by_cases hname : key = name
      · subst hname
        rw [lookup_of_lt hhead, lookup_of_lt hhead₂]
      · simpa [lookup, hname] using h name

theorem ext_find? {m₁ m₂ : NameMap α} (h : ∀ name, m₁.find? name = m₂.find? name) : m₁ = m₂ := by
  obtain ⟨l₁, h₁⟩ := m₁
  obtain ⟨l₂, h₂⟩ := m₂
  congr
  exact eq_of_lookup h₁ h₂ h

/-! ## Maps laid over others -/

private theorem find?_foldl_insert {entries : List (Bytes × α)} (h : Ascending entries)
    (m : NameMap α) (name : Bytes) :
    (entries.foldl (fun m entry ↦ m.insert entry.1 entry.2) m).find? name
      = (lookup name entries).or (m.find? name) := by
  induction entries generalizing m with
  | nil => rfl
  | cons head rest ih =>
    obtain ⟨key, value⟩ := head
    obtain ⟨hhead, hrest⟩ := List.pairwise_cons.mp h
    rw [List.foldl_cons, ih hrest, find?_insert, lookup]
    by_cases hname : key = name
    · -- no later entry has the name of the first one
      subst hname
      rw [lookup_of_lt hhead, if_pos rfl, if_pos rfl]
      rfl
    · rw [if_neg hname, if_neg hname]

/-- A name of the map that is laid over another one has its value there. -/
theorem find?_overlay (m other : NameMap α) (name : Bytes) :
    (m.overlay other).find? name = (other.find? name).or (m.find? name) :=
  find?_foldl_insert other.ascending m name

end NameMap

end Abacus
