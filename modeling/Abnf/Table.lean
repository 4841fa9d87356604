/-
Tables by name.

A `Table` maps names to values.  Its entries are in strictly increasing order of their names, so
that there is one entry for a name and one order to list them in.

* `get?_update` and `get?_erase` say what the operations do to a lookup;
* a table is known by its lookups (`eq_of_get?`);
* `Table.group` collects the items of a list under their names, and looking a name up gives the
  items of the list that have this name, in the order of the list (`itemsOf_group`).  Items can be
  added one by one (`group_concat`).
-/

namespace Abnf

/-- Values by name. -/
structure Table (α : Type) where
  entries : List (String × α)
  sorted : entries.Pairwise fun a b => a.1 < b.1

namespace Table

variable {α : Type}

def empty : Table α := ⟨[], .nil⟩

/-- The value of a name. -/
def get? (t : Table α) (name : String) : Option α := (t.entries.find? (·.1 == name)).map (·.2)

/-- Whether a name has a value. -/
def contains (t : Table α) (name : String) : Bool := (t.get? name).isSome

def size (t : Table α) : Nat := t.entries.length

def isEmpty (t : Table α) : Bool := t.entries.isEmpty

/-! ### Writing -/

/-- Replaces the value of a name, or puts a new entry into its place. -/
def updateEntry (name : String) (f : Option α → α) : List (String × α) → List (String × α)
  | [] => [(name, f none)]
  | (n, v) :: rest =>
    if name < n then (name, f none) :: (n, v) :: rest
    else if name = n then (n, f (some v)) :: rest
    else (n, v) :: updateEntry name f rest

/-- An update brings in no name but its own. -/
theorem name_of_mem_updateEntry {name : String} {f : Option α → α} {entries : List (String × α)}
    {e : String × α} (h : e ∈ updateEntry name f entries) :
    e.1 = name ∨ ∃ d ∈ entries, d.1 = e.1 := by
  induction entries with
  | nil =>
    rw [updateEntry, List.mem_singleton] at h
    exact Or.inl (h ▸ rfl)
  | cons a rest ih =>
    obtain ⟨n, v⟩ := a
    rw [updateEntry] at h
    split at h
    · rcases List.mem_cons.1 h with rfl | h
      · exact Or.inl rfl
      · exact Or.inr ⟨e, h, rfl⟩
    · split at h
      · rcases List.mem_cons.1 h with rfl | h
        · exact Or.inr ⟨(n, v), List.mem_cons_self, rfl⟩
        · exact Or.inr ⟨e, List.mem_cons_of_mem _ h, rfl⟩
      · rcases List.mem_cons.1 h with rfl | h
        · exact Or.inr ⟨(n, v), List.mem_cons_self, rfl⟩
        · rcases ih h with h | ⟨d, hd, h⟩
          · exact Or.inl h
          · exact Or.inr ⟨d, List.mem_cons_of_mem _ hd, h⟩

theorem sorted_updateEntry {name : String} {f : Option α → α} {entries : List (String × α)}
    (h : entries.Pairwise fun a b => a.1 < b.1) :
    (updateEntry name f entries).Pairwise fun a b => a.1 < b.1 := by
  induction entries with
  | nil => simp [updateEntry]
  | cons a rest ih =>
    obtain ⟨n, v⟩ := a
    rw [List.pairwise_cons] at h
    rw [updateEntry]
    split
    · rename_i hlt
      refine List.pairwise_cons.2 ⟨fun e he => ?_, List.pairwise_cons.2 h⟩
      rcases List.mem_cons.1 he with rfl | he
      · exact hlt
      · exact String.lt_trans hlt (h.1 e he)
    · rename_i hlt
      split
      · exact List.pairwise_cons.2 h
      · rename_i hne
        refine List.pairwise_cons.2 ⟨fun e he => ?_, ih h.2⟩
        rcases name_of_mem_updateEntry he with he | ⟨d, hd, he⟩
        · rw [he]
          exact Std.lt_of_le_of_ne (String.not_lt.1 hlt) (Ne.symm hne)
        · rw [← he]
          exact h.1 d hd

/-- Gives a name a value that depends on the one it had. -/
def update (t : Table α) (name : String) (f : Option α → α) : Table α :=
  ⟨updateEntry name f t.entries, sorted_updateEntry t.sorted⟩

/-- Gives a name a value. -/
def insert (t : Table α) (name : String) (value : α) : Table α := t.update name fun _ => value

/-- Takes the value of a name away. -/
def erase (t : Table α) (name : String) : Table α :=
  ⟨t.entries.filter (·.1 != name), t.sorted.filter _⟩

/-! ### Lookups after writing -/

@[simp]
theorem get?_empty (name : String) : (empty : Table α).get? name = none := rfl

theorem get?_update (t : Table α) (name : String) (f : Option α → α) (other : String) :
    (t.update name f).get? other =
      if name = other then some (f (t.get? name)) else t.get? other := by
  obtain ⟨entries, sorted⟩ := t
  simp only [update, get?]
  induction entries with
  | nil => by_cases h : name = other <;> simp [updateEntry, h]
  | cons a rest ih =>
    obtain ⟨n, v⟩ := a
    rw [List.pairwise_cons] at sorted
    rw [updateEntry]
    split
    · rename_i hlt
      have hne : n ≠ name := fun h => String.lt_irrefl n (h ▸ hlt)
      have hnone : rest.find? (·.1 == name) = none := by
        rw [List.find?_eq_none]
        intro e he h
        have hlt' : name < e.1 := String.lt_trans hlt (sorted.1 e he)
        rw [beq_iff_eq.1 h] at hlt'
        exact String.lt_irrefl name hlt'
      by_cases h : name = other
      · subst h
        simp [hne, hnone]
      · simp [h]
    · split
      · rename_i heq
        subst heq
        by_cases h : name = other <;> simp [h]
      · rename_i hne
        by_cases h : n = other
        · subst h
          simp [hne]
        · simpa [h, Ne.symm hne] using ih sorted.2

theorem get?_insert (t : Table α) (name : String) (value : α) (other : String) :
    (t.insert name value).get? other = if name = other then some value else t.get? other :=
  get?_update t name _ other

theorem get?_erase (t : Table α) (name other : String) :
    (t.erase name).get? other = if name = other then none else t.get? other := by
  obtain ⟨entries, sorted⟩ := t
  simp only [erase, get?]
  clear sorted
  induction entries with
  | nil => simp
  | cons a rest ih =>
    by_cases h : a.1 = name
    · by_cases ho : name = other <;> simp_all
    · by_cases ho : a.1 = other
      · simp [← ho, Ne.symm h, h]
      · simpa [h, ho] using ih

/-! ### Tables and their lookups -/

/-- A name that is smaller than those of all entries has no value. -/
theorem find?_eq_none_of_lt {entries : List (String × α)} {name : String}
    (h : ∀ e ∈ entries, name < e.1) : entries.find? (·.1 == name) = none := by
  rw [List.find?_eq_none]
  intro e he heq
  have hlt := h e he
  rw [beq_iff_eq.1 heq] at hlt
  exact String.lt_irrefl name hlt

/-- If the first names of two tables were different, the smaller one would have a value in one table
only. -/
theorem not_lt_of_find?_eq {a b : String × α} {as bs : List (String × α)}
    (hb : ∀ e ∈ bs, b.1 < e.1)
    (h : (a :: as).find? (·.1 == a.1) = (b :: bs).find? (·.1 == a.1)) : ¬a.1 < b.1 := by
  intro hlt
  have hnone : (b :: bs).find? (·.1 == a.1) = none := by
    refine find?_eq_none_of_lt fun e he => ?_
    rcases List.mem_cons.1 he with rfl | he
    · exact hlt
    · exact String.lt_trans hlt (hb e he)
  rw [hnone, List.find?_cons_of_pos (by simp)] at h
  exact Option.some_ne_none a h

theorem eq_of_find?_eq {as bs : List (String × α)} (ha : as.Pairwise fun a b => a.1 < b.1)
    (hb : bs.Pairwise fun a b => a.1 < b.1)
    (h : ∀ name, as.find? (·.1 == name) = bs.find? (·.1 == name)) : as = bs := by
  induction as generalizing bs with
  | nil =>
    cases bs with
    | nil => rfl
    | cons b bs =>
      have hfind := h b.1
      rw [List.find?_nil, List.find?_cons_of_pos (by simp)] at hfind
      exact absurd hfind.symm (Option.some_ne_none b)
  | cons a as ih =>
    cases bs with
    | nil =>
      have hfind := h a.1
      rw [List.find?_nil, List.find?_cons_of_pos (by simp)] at hfind
      exact absurd hfind (Option.some_ne_none a)
    | cons b bs =>
      rw [List.pairwise_cons] at ha hb
      have hname : a.1 = b.1 :=
        Std.le_antisymm (String.not_lt.1 (not_lt_of_find?_eq ha.1 (h b.1).symm))
          (String.not_lt.1 (not_lt_of_find?_eq hb.1 (h a.1)))
      have hsame : a = b := by
        have hfind := h a.1
        rw [List.find?_cons_of_pos (by simp), List.find?_cons_of_pos (by simp [hname])] at hfind
        exact Option.some.inj hfind
      subst hsame
      rw [ih ha.2 hb.2]
      intro name
      by_cases heq : a.1 = name
      · -- a name occurs once, so both rests are without it
        subst heq
        rw [find?_eq_none_of_lt ha.1, find?_eq_none_of_lt hb.1]
      · have hfind := h name
        rwa [List.find?_cons_of_neg (by simpa using heq),
          List.find?_cons_of_neg (by simpa using heq)] at hfind

/-- An entry that was found is the name with its value. -/
theorem find?_eq_map_get? (t : Table α) (name : String) :
    t.entries.find? (·.1 == name) = (t.get? name).map (name, ·) := by
  rw [get?]
  cases h : t.entries.find? (·.1 == name) with
  | none => rfl
  | some e =>
    have hname : e.1 = name := by simpa using List.find?_some h
    rw [Option.map_some, Option.map_some, ← hname]

/-- An entry is what is found under its name. -/
theorem get?_of_mem {t : Table α} {e : String × α} (h : e ∈ t.entries) : t.get? e.1 = some e.2 := by
  obtain ⟨entries, sorted⟩ := t
  have hfind : entries.find? (·.1 == e.1) = some e := by
    induction entries with
    | nil => exact absurd h List.not_mem_nil
    | cons a rest ih =>
      rw [List.pairwise_cons] at sorted
      rcases List.mem_cons.1 h with rfl | h
      · exact List.find?_cons_of_pos (beq_self_eq_true e.1)
      · rw [List.find?_cons_of_neg, ih sorted.2 h]
        intro heq
        have hlt := sorted.1 e h
        rw [beq_iff_eq.1 heq] at hlt
        exact String.lt_irrefl e.1 hlt
  rw [get?, hfind, Option.map_some]

/-- A table is known by its lookups. -/
theorem eq_of_get? {t u : Table α} (h : ∀ name, t.get? name = u.get? name) : t = u := by
  have hentries : t.entries = u.entries := by
    refine eq_of_find?_eq t.sorted u.sorted fun name => ?_
    rw [find?_eq_map_get?, find?_eq_map_get?, h]
  obtain ⟨entries, sorted⟩ := t
  subst hentries
  rfl

/-! ### Groups -/

/-- The items under a name. -/
def itemsOf (t : Table (List α)) (name : String) : List α := (t.get? name).getD []

/-- Puts an item behind those under a name. -/
def add (t : Table (List α)) (name : String) (item : α) : Table (List α) :=
  t.update name fun items => items.getD [] ++ [item]

/-- The items of a list by their names. -/
def group (nameOf : α → String) : List α → Table (List α)
  | [] => empty
  | a :: as => (group nameOf as).update (nameOf a) fun items => a :: items.getD []

/-- A name has an entry iff an item has this name, and the entry is what a search through the list
finds. -/
theorem get?_group (nameOf : α → String) (items : List α) (name : String) :
    (group nameOf items).get? name =
      if (items.filter (nameOf · == name)).isEmpty then none
      else some (items.filter (nameOf · == name)) := by
  induction items with
  | nil => rfl
  | cons a as ih =>
    rw [group, get?_update]
    by_cases h : nameOf a = name
    · subst h
      rw [if_pos rfl, ih, List.filter_cons_of_pos (by simp)]
      cases as.filter (nameOf · == nameOf a) <;> rfl
    · rw [if_neg h, ih, List.filter_cons_of_neg (by simpa using h)]

/-- A group is what a search through the list finds. -/
theorem itemsOf_group (nameOf : α → String) (items : List α) (name : String) :
    (group nameOf items).itemsOf name = items.filter (nameOf · == name) := by
  rw [itemsOf, get?_group]
  cases items.filter (nameOf · == name) <;> rfl

theorem get?_add (t : Table (List α)) (name : String) (item : α) (other : String) :
    (t.add name item).get? other =
      if name = other then some (t.itemsOf name ++ [item]) else t.get? other :=
  get?_update t name _ other

/-- Items that are added one by one make the same groups. -/
theorem group_concat (nameOf : α → String) (items : List α) (item : α) :
    group nameOf (items ++ [item]) = (group nameOf items).add (nameOf item) item := by
  refine eq_of_get? fun name => ?_
  rw [get?_add, get?_group, List.filter_append]
  by_cases h : nameOf item = name
  · subst h
    rw [if_pos rfl, itemsOf_group, List.filter_cons_of_pos (by simp), List.filter_nil, if_neg (by simp)]
  · rw [if_neg h, get?_group, List.filter_cons_of_neg (by simpa using h), List.filter_nil,
      List.append_nil]

end Table

end Abnf
