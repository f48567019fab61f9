import AblResolve.Arena
import AblResolve.Text.Fold
import AblResolve.Tree.Kind
/-!
The names of a scope. A name can be in use once in each namespace; a new definition takes the
place of the old one, with its spelling, where the old one stood.
-/
namespace AblResolve

inductive Namespace where
  | variable
  | routine
  | buffer
  /-- Temp-tables and work-tables, each standing for its default buffer. -/
  | table
  | event
  | widget (kind : WidgetKind)
deriving Repr, DecidableEq, Inhabited

structure NameEntry where
  space : Namespace
  name : String
  symbol : SymbolId
deriving Repr, DecidableEq, Inhabited

def NameEntry.isFor (e : NameEntry) (space : Namespace) (name : String) : Bool :=
  e.space = space && Text.same e.name name

/-- Entries in the order in which their names were first defined. -/
structure NameTable where
  entries : List NameEntry := []
deriving Repr, DecidableEq, Inhabited

namespace NameTable

def find? (t : NameTable) (space : Namespace) (name : String) : Option SymbolId :=
  (t.entries.find? (·.isFor space name)).map (·.symbol)

/-- The entries with the one that `e` supersedes replaced by it, or with `e` at the end, and the
symbol that was replaced. -/
def put (e : NameEntry) : List NameEntry → Option SymbolId × List NameEntry
  | [] => (none, [e])
  | old :: rest =>
    if old.isFor e.space e.name then (some old.symbol, e :: rest)
    else ((put e rest).1, old :: (put e rest).2)

/-- Defines a name; the first result is the symbol it stood for before. -/
def insert (t : NameTable) (space : Namespace) (name : String) (symbol : SymbolId) :
    Option SymbolId × NameTable :=
  let (replaced, entries) := put ⟨space, name, symbol⟩ t.entries
  (replaced, ⟨entries⟩)

theorem mem_put {e : NameEntry} {entry : NameEntry} {entries : List NameEntry}
    (h : entry ∈ (put e entries).2) : entry ∈ entries ∨ entry = e := by
  induction entries with
  | nil => exact .inr (List.mem_singleton.1 h)
  | cons old rest ih =>
    unfold put at h
    split at h
    · rcases List.mem_cons.1 h with rfl | h
      · exact .inr rfl
      · exact .inl (List.mem_cons_of_mem _ h)
    · rcases List.mem_cons.1 h with rfl | h
      · exact .inl List.mem_cons_self
      · exact (ih h).imp (List.mem_cons_of_mem _) id

/-- An entry after `insert`: one that was there, or the new one. -/
theorem mem_entries_insert {t : NameTable} {space : Namespace} {name : String}
    {symbol : SymbolId} {entry : NameEntry} (h : entry ∈ (t.insert space name symbol).2.entries) :
    entry ∈ t.entries ∨ entry = ⟨space, name, symbol⟩ :=
  mem_put h

theorem exists_mem_of_find? {t : NameTable} {space : Namespace} {name : String}
    {symbol : SymbolId} (h : t.find? space name = some symbol) :
    ∃ entry ∈ t.entries, entry.space = space ∧ entry.symbol = symbol := by
  obtain ⟨entry, hfind, hsymbol⟩ := Option.map_eq_some_iff.1 h
  have hfor := List.find?_some hfind
  simp only [NameEntry.isFor, Bool.and_eq_true, decide_eq_true_eq] at hfor
  exact ⟨entry, List.mem_of_find?_eq_some hfind, hfor.1, hsymbol⟩

/-- The entries of one namespace. -/
def inNamespace (t : NameTable) (space : Namespace) : List NameEntry :=
  t.entries.filter (·.space = space)

/-- A name is found under the symbol it was inserted with last. -/
theorem find?_insert (t : NameTable) (space space' : Namespace) (name name' : String)
    (symbol : SymbolId) :
    (t.insert space name symbol).2.find? space' name' =
      if space = space' ∧ Text.same name name' = true then some symbol
      else t.find? space' name' := by
  obtain ⟨entries⟩ := t
  simp only [find?, insert]
  induction entries with
  | nil => by_cases h : space = space' ∧ Text.same name name' = true <;>
      simp_all [put, NameEntry.isFor]
  | cons old rest ih =>
    unfold put
    by_cases hold : old.isFor space name = true
    · simp only [hold, if_true]
      simp only [NameEntry.isFor, Bool.and_eq_true, decide_eq_true_eq] at hold
      obtain ⟨hs, hn⟩ := hold
      by_cases h : space = space' ∧ Text.same name name' = true
      · simp [h, NameEntry.isFor]
      · have hne : old.isFor space' name' = false := by
          simp only [NameEntry.isFor, Bool.and_eq_false_imp, decide_eq_true_eq]
          intro hs'
          cases hsame : Text.same old.name name' with
          | false => rfl
          | true => exact absurd ⟨hs ▸ hs', Text.same_trans (Text.same_symm hn) hsame⟩ h
        have hnew : (NameEntry.mk space name symbol).isFor space' name' = false := by
          simpa [NameEntry.isFor] using h
        simp [hne, hnew, h]
    · simp only [hold, Bool.false_eq_true, if_false]
      by_cases h' : old.isFor space' name' = true
      · have hne : ¬ (space = space' ∧ Text.same name name' = true) := by
          rintro ⟨rfl, hsame⟩
          simp only [NameEntry.isFor, Bool.and_eq_true, decide_eq_true_eq] at hold h'
          exact hold ⟨h'.1, Text.same_trans h'.2 (Text.same_symm hsame)⟩
        simp [h', hne]
      · simp only [List.find?_cons, h']
        exact ih

end NameTable

end AblResolve
