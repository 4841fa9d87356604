/-
The history of a store.

A store is filled by an engine that makes trees of the texts of documents.  The engine may fail at any
time, and what it makes of a text may depend on all that it was asked before (`Engine`).  Whatever it
does, and in whatever order documents are written and dropped, the store holds the last successful write
of each document and nothing else (`entries_are_last_writes`).

* `Database.get?_step_of_concerns` and `Database.get?_step_of_not_concerns` say what one operation does to
  the entry of a document;
* `Database.lastWritten_concat` follows the last write of a document along the operations, and
  `Database.get?_after_iff` puts the two side by side;
* `Table.mem_names` ties the size of a store to its entries.
-/
import Mathlib.Data.List.Induction
import Abnf.Store

namespace Abnf

/-! ### The names of a table -/

namespace Table

variable {α : Type}

/-- The names that have a value. -/
def names (t : Table α) : List String := t.entries.map (·.1)

theorem nodup_names (t : Table α) : t.names.Nodup := by
  refine List.pairwise_map.mpr (t.sorted.imp fun {a b} hlt heq => ?_)
  rw [heq] at hlt
  exact String.lt_irrefl _ hlt

theorem mem_names {t : Table α} {name : String} :
    name ∈ t.names ↔ (t.get? name).isSome = true := by
  rw [names, get?, Option.isSome_map, List.find?_isSome, List.mem_map]
  simp only [beq_iff_eq]

end Table

/-! ### One write -/

namespace Store

theorem upsert_index (store : Store) (document : String) (tree? : Option SyntaxTree) :
    (store.upsert document tree?).2.1 = tree?.map (Index.ofTree document) := by
  cases tree? with
  | none => rfl
  | some tree =>
    refine (Table.get?_insert store.entries document _ document).trans ?_
    rw [if_pos rfl, Option.map_some]

theorem get?_upsert_fst (store : Store) (document : String) (tree? : Option SyntaxTree)
    (other : String) :
    (store.upsert document tree?).1.get? other =
      if document = other then (store.upsert document tree?).2.1 else store.get? other := by
  rw [upsert_index]
  cases tree? with
  | none => exact Table.get?_erase store.entries document other
  | some tree => exact Table.get?_insert store.entries document _ other

end Store

/-! ### Databases -/

/-- Something that makes trees of texts, or fails to.  What it makes of a text may depend on its state,
and each text may change the state. -/
structure Engine where
  State : Type
  parse : State → Text → Option SyntaxTree × State

/-- An engine and the store that is filled with what it makes. -/
structure Database (engine : Engine) where
  state : engine.State
  store : Store

namespace Database

/-- What can be done to a database. -/
inductive Operation where
  | upsert (document : String) (text : Text)
  | invalidate (document : String)
  | disposeAll

/-- Whether an operation is about a document: it names the document, or drops all of them. -/
def Operation.Concerns (document : String) : Operation → Prop
  | upsert name _ => name = document
  | invalidate name => name = document
  | disposeAll => True

/-- A database without documents. -/
def fresh (engine : Engine) (state : engine.State) : Database engine := ⟨state, .empty⟩

variable {engine : Engine}

/-- Gives a document the index of a text.  The index that is given back is the one that the document has
then. -/
def upsert (db : Database engine) (document : String) (text : Text) :
    Database engine × Option Index :=
  let parsed := engine.parse db.state text
  let written := db.store.upsert document parsed.1
  (⟨parsed.2, written.1⟩, written.2.1)

def step (db : Database engine) : Operation → Database engine
  | .upsert document text => (db.upsert document text).1
  | .invalidate document => { db with store := (db.store.invalidate document).1 }
  | .disposeAll => { db with store := db.store.disposeAll.1 }

/-- A database after some operations. -/
def after (db : Database engine) (operations : List Operation) : Database engine :=
  operations.foldl step db

/-- Whether the last of some operations that concerns a document is an upsert, of whose text the engine
made a tree when it was asked. -/
def LastWritten (db : Database engine) (operations : List Operation) (document : String)
    (tree : SyntaxTree) : Prop :=
  ∃ before text later, operations = before ++ .upsert document text :: later ∧
    (∀ o ∈ later, ¬o.Concerns document) ∧
    (engine.parse (db.after before).state text).1 = some tree

/-! ### One operation -/

/-- An upsert gives back the index of the tree that was made, if one was. -/
theorem upsert_snd (db : Database engine) (document : String) (text : Text) :
    (db.upsert document text).2 = (engine.parse db.state text).1.map (Index.ofTree document) :=
  db.store.upsert_index document _

/-- An upsert changes no entry but that of its document, which becomes what is given back. -/
theorem get?_upsert (db : Database engine) (document : String) (text : Text) (other : String) :
    (db.upsert document text).1.store.get? other =
      if document = other then (db.upsert document text).2 else db.store.get? other :=
  db.store.get?_upsert_fst document _ other

/-- An operation that does not concern a document leaves its entry alone. -/
theorem get?_step_of_not_concerns {db : Database engine} {o : Operation} {document : String}
    (h : ¬o.Concerns document) : (db.step o).store.get? document = db.store.get? document := by
  cases o with
  | upsert name text =>
    rw [step, get?_upsert]
    exact if_neg h
  | invalidate name => exact (Table.get?_erase db.store.entries name document).trans (if_neg h)
  | disposeAll => exact absurd trivial h

/-- After an operation that concerns it, a document has the entry that the operation wrote. -/
theorem get?_step_of_concerns {db : Database engine} {o : Operation} {document : String}
    (h : o.Concerns document) {index : Index} :
    (db.step o).store.get? document = some index ↔
      ∃ text tree, o = .upsert document text ∧ (engine.parse db.state text).1 = some tree ∧
        index = Index.ofTree document tree := by
  cases o with
  | upsert name text =>
    obtain rfl : name = document := h
    rw [step, get?_upsert, if_pos rfl, upsert_snd, Option.map_eq_some_iff]
    constructor
    · rintro ⟨tree, htree, rfl⟩
      exact ⟨text, tree, rfl, htree, rfl⟩
    · rintro ⟨text', tree, hsame, htree, rfl⟩
      cases hsame
      exact ⟨tree, htree, rfl⟩
  | invalidate name =>
    have hnone : (db.step (.invalidate name)).store.get? document = none :=
      (Table.get?_erase db.store.entries name document).trans (if_pos h)
    rw [hnone]
    constructor
    · intro hindex
      exact absurd hindex (by simp)
    · rintro ⟨text, tree, hsame, -⟩
      cases hsame
  | disposeAll =>
    constructor
    · intro hindex
      exact absurd hindex (by simp [step, Store.disposeAll, Store.empty, Store.get?])
    · rintro ⟨text, tree, hsame, -⟩
      cases hsame

/-! ### A run of operations -/

theorem after_concat (db : Database engine) (operations : List Operation) (o : Operation) :
    db.after (operations ++ [o]) = (db.after operations).step o := by
  rw [after, List.foldl_append]
  rfl

/-- The last write of a document is the last operation, or it came before and the last operation is about
other documents. -/
theorem lastWritten_concat {db : Database engine} {operations : List Operation} {o : Operation}
    {document : String} {tree : SyntaxTree} :
    db.LastWritten (operations ++ [o]) document tree ↔
      (∃ text, o = .upsert document text ∧
          (engine.parse (db.after operations).state text).1 = some tree) ∨
        ¬o.Concerns document ∧ db.LastWritten operations document tree := by
  constructor
  · rintro ⟨before, text, later, hsplit, hlater, htree⟩
    -- the write is the last operation iff nothing comes later
    rcases List.eq_nil_or_concat later with rfl | ⟨later, last, rfl⟩
    · obtain ⟨rfl, hlast⟩ := List.append_inj' hsplit rfl
      exact Or.inl ⟨text, List.singleton_inj.mp hlast, htree⟩
    · rw [List.concat_eq_append, ← List.cons_append, ← List.append_assoc] at hsplit
      obtain ⟨hsplit, hlast⟩ := List.append_inj' hsplit rfl
      rw [List.concat_eq_append] at hlater
      rw [List.singleton_inj.mp hlast]
      refine Or.inr ⟨hlater last (by simp), before, text, later, hsplit, fun o ho => ?_, htree⟩
      exact hlater o (List.mem_append_left _ ho)
  · rintro (⟨text, rfl, htree⟩ | ⟨hnot, before, text, later, rfl, hlater, htree⟩)
    · exact ⟨operations, text, [], rfl, fun _ ho => absurd ho List.not_mem_nil, htree⟩
    · refine ⟨before, text, later ++ [o], by simp, fun o' ho' => ?_, htree⟩
      rcases List.mem_append.mp ho' with ho' | ho'
      · exact hlater o' ho'
      · rw [List.mem_singleton.mp ho']
        exact hnot

/-- A document has an entry iff its last write made one. -/
theorem get?_after_iff (state : engine.State) (operations : List Operation) (document : String)
    (index : Index) :
    ((fresh engine state).after operations).store.get? document = some index ↔
      ∃ tree, (fresh engine state).LastWritten operations document tree ∧
        index = Index.ofTree document tree := by
  -- the last operation decides, unless it is about other documents
  induction operations using List.reverseRecOn with
  | nil =>
    constructor
    · intro h
      exact absurd h (by simp [after, fresh, Store.get?, Store.empty])
    · rintro ⟨tree, ⟨before, text, later, hsplit, -⟩, -⟩
      exact absurd hsplit (by simp)
  | append_singleton operations o ih =>
    rw [after_concat]
    simp only [lastWritten_concat]
    by_cases hconcerns : o.Concerns document
    · rw [get?_step_of_concerns hconcerns]
      constructor
      · rintro ⟨text, tree, ho, htree, hindex⟩
        exact ⟨tree, Or.inl ⟨text, ho, htree⟩, hindex⟩
      · rintro ⟨tree, ⟨text, ho, htree⟩ | ⟨hnot, -⟩, hindex⟩
        · exact ⟨text, tree, ho, htree, hindex⟩
        · exact absurd hconcerns hnot
    · rw [get?_step_of_not_concerns hconcerns, ih]
      constructor
      · rintro ⟨tree, hlast, hindex⟩
        exact ⟨tree, Or.inr ⟨hconcerns, hlast⟩, hindex⟩
      · rintro ⟨tree, ⟨text, rfl, -⟩ | ⟨-, hlast⟩, hindex⟩
        · exact absurd rfl hconcerns
        · exact ⟨tree, hlast, hindex⟩

end Database

/-- A store holds the last successful write of each document, whatever the engine does.  After any
operations on an empty database, a document has an entry iff the last operation that concerns it is an
upsert of whose text the engine made a tree, and the entry is the index of that tree.  An upsert for which
the engine fails gives nothing back; it takes the entry of its document away and leaves all others.  The
size is the number of documents that have an entry, and the store is empty iff its size is zero. -/
theorem entries_are_last_writes (engine : Engine) (state : engine.State)
    (operations : List Database.Operation) :
    let db := (Database.fresh engine state).after operations
    (∀ document index, db.store.get? document = some index ↔
        ∃ tree, (Database.fresh engine state).LastWritten operations document tree ∧
          index = Index.ofTree document tree) ∧
      (∀ document text, (engine.parse db.state text).1 = none →
        (db.upsert document text).2 = none ∧
          ∀ other, (db.upsert document text).1.store.get? other =
            if document = other then none else db.store.get? other) ∧
      (∃ documents : List String, documents.Nodup ∧
        (∀ document, document ∈ documents ↔ (db.store.get? document).isSome = true) ∧
        db.store.size = documents.length) ∧
      (db.store.isEmpty = true ↔ db.store.size = 0) := by
  intro db
  refine ⟨Database.get?_after_iff state operations, fun document text hfail => ?_, ?_, ?_⟩
  · have hnone : (db.upsert document text).2 = none := by
      rw [Database.upsert_snd, hfail, Option.map_none]
    refine ⟨hnone, fun other => ?_⟩
    rw [Database.get?_upsert, hnone]
  · exact ⟨db.store.entries.names, db.store.entries.nodup_names, fun document => Table.mem_names,
      (List.length_map _).symm⟩
  · rw [Store.isEmpty, Store.size, Table.isEmpty, Table.size, List.isEmpty_iff_length_eq_zero]

/-- An engine that fails after two texts.  The failure takes away the first of two documents. -/
theorem entries_are_last_writes_flaky :
    let engine : Engine :=
      ⟨Nat, fun left text => if left = 0 then (none, 0) else (some (parse 1 text), left - 1)⟩
    let db := (Database.fresh engine (2 : Nat)).after
      [.upsert "a" "x = y".toList, .upsert "b" "z = x".toList]
    (engine.parse db.state "x = z".toList).1 = none ∧ (db.store.get? "a").isSome = true ∧
      (db.upsert "a" "x = z".toList).2 = none ∧
      (db.upsert "a" "x = z".toList).1.store.get? "a" = none ∧
      (db.upsert "a" "x = z".toList).1.store.get? "b" = db.store.get? "b" := by
  intro engine db
  have hfail : (engine.parse db.state "x = z".toList).1 = none := rfl
  obtain ⟨-, hfailed, -⟩ := entries_are_last_writes engine (2 : Nat)
    [.upsert "a" "x = y".toList, .upsert "b" "z = x".toList]
  obtain ⟨hnone, hget⟩ := hfailed "a" "x = z".toList hfail
  exact ⟨hfail, by decide +kernel, hnone, hget "a", hget "b"⟩

end Abnf
