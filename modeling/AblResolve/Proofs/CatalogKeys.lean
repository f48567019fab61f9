import AblResolve.Index.Loading
import AblResolve.Proofs.Spelling
/-!
The keys of catalog tables. A table of the catalog is known by its folded `database.table`. As long
as no name of a database has a dot in it, names that lead to tables with one key lead to one table,
even if the catalog has several: all names prefer the table that comes first.
-/
namespace AblResolve

namespace Text

theorem fold_append (a b : String) : fold (a ++ b) = fold a ++ fold b := by
  rw [← String.toList_inj]
  simp [fold, String.toList_map]

/-- A fold has a dot where the name has one. -/
theorem dot_mem_fold {a : String} : '.' ∈ (fold a).toList ↔ '.' ∈ a.toList := by
  simp [fold, String.toList_map, toLower_eq_dot]

theorem abbreviates_congr {name a b : String} (h : same a b = true) :
    abbreviates name a = abbreviates name b := by
  have folds := same_iff.1 h
  rw [abbreviates, abbreviates, folds, ← utf8ByteSize_fold a, folds, utf8ByteSize_fold]

/-- Of the candidates with the name of the one that is found, that one comes first. -/
theorem find?_of_matchName {α : Type} {name : String} {candidates : List (String × α)}
    {mayAbbreviate : Bool} {found : Match α}
    (h : matchName name candidates mayAbbreviate = some found) :
    ∃ full, candidates.find? (fun c => same c.1 full) = some (full, found.item) := by
  unfold matchName at h
  cases exact : candidates.find? fun c => same c.1 name with
  | some c =>
    rw [exact] at h
    cases h
    have spelled : same c.1 name = true := by simpa using List.find?_some exact
    refine ⟨c.1, ?_⟩
    rwa [show (fun d : String × α => same d.1 c.1) = fun d => same d.1 name from
      funext fun d => same_congr rfl (same_iff.1 spelled)]
  | none =>
    rw [exact] at h
    dsimp only at h
    split at h
    · split at h
      · rename_i full item only
        cases h
        have mem : (full, item) ∈ candidates.filter fun c => abbreviates name c.1 := by
          rw [only]
          exact List.mem_singleton_self _
        obtain ⟨mem, abbreviated⟩ := List.mem_filter.1 mem
        refine ⟨full, ?_⟩
        cases first : candidates.find? fun c => same c.1 full with
        | none => exact absurd (same_refl full) (List.find?_eq_none.1 first _ mem)
        | some c =>
          -- an earlier one would be abbreviated by the name, too
          have spelled : same c.1 full = true := by simpa using List.find?_some first
          have alike : c ∈ candidates.filter fun c => abbreviates name c.1 :=
            List.mem_filter.2 ⟨List.mem_of_find?_eq_some first,
              (abbreviates_congr spelled).trans abbreviated⟩
          rw [only] at alike
          rw [List.mem_singleton.1 alike]
      · cases h
    · cases h

end Text

namespace Catalog

/-- No name of a database has a dot in it. -/
def Undotted (c : Catalog) : Prop := ∀ d ∈ c.databases, '.' ∉ d.name.toList

instance (c : Catalog) : Decidable c.Undotted := by
  unfold Undotted
  infer_instance

/-- The tables of all databases, by name. -/
def entries (c : Catalog) : List (String × Entry) := c.databases.flatMap Database.entries

variable {c : Catalog} {e e' : Entry} {name name' : String}

/-- Tables with the same names have the same key. -/
theorem Entry.key_congr (database : Text.fold e.database = Text.fold e'.database)
    (table : Text.fold e.table.name = Text.fold e'.table.name) : e.key = e'.key := by
  rw [key, key, Text.fold_append, Text.fold_append, Text.fold_append, Text.fold_append, database,
    table]

/-- The key has both names in it, divided at its first dot. -/
theorem Entry.names_of_key (h : e.key = e'.key) (plain : '.' ∉ e.database.toList)
    (plain' : '.' ∉ e'.database.toList) : Text.fold e.database = Text.fold e'.database ∧
      Text.fold e.table.name = Text.fold e'.table.name := by
  have keys : ∀ e : Entry, e.key.toList =
      (Text.fold e.database).toList ++ '.' :: (Text.fold e.table.name).toList := by
    intro e
    rw [key, Text.fold_append, Text.fold_append, String.toList_append, String.toList_append,
      List.append_assoc]
    simp [Text.fold, String.toList_map]
  have head : ∀ e : Entry, '.' ∉ e.database.toList →
      e.key.toList.takeWhile (· != '.') = (Text.fold e.database).toList := by
    intro e plain
    rw [keys, List.takeWhile_append_of_pos, List.takeWhile_cons_of_neg (by simp), List.append_nil]
    intro c hc
    have : c ≠ '.' := fun dot => plain (Text.dot_mem_fold.1 (dot ▸ hc))
    simpa using this
  have database : (Text.fold e.database).toList = (Text.fold e'.database).toList := by
    rw [← head e plain, h, head e' plain']
  have lists := congrArg String.toList h
  rw [keys, keys, database, List.append_cancel_left_eq, List.cons.injEq] at lists
  exact ⟨String.toList_inj.1 database, String.toList_inj.1 lists.2⟩

/-- The tables that have the names of a table. -/
def Entry.isLike (e : Entry) (p : String × Entry) : Bool :=
  Text.same p.2.database e.database && Text.same p.1 e.table.name

theorem Entry.isLike_self (e : Entry) : e.isLike (e.table.name, e) = true := by
  simp [isLike, Text.same_refl]

theorem Entry.same_of_isLike {p : String × Entry} (h : e.isLike p = true) :
    Text.same p.1 e.table.name = true := by
  simp only [isLike, Bool.and_eq_true] at h
  exact h.2

/-- What is found among more is found among fewer. -/
theorem find?_narrow {α : Type} {p q : α → Bool} {xs : List α} {a : α} (h : xs.find? p = some a)
    (ha : q a = true) (imp : ∀ x, q x = true → p x = true) : xs.find? q = some a := by
  obtain ⟨-, before, after, rfl, earlier⟩ := List.find?_eq_some_iff_append.1 h
  refine List.find?_eq_some_iff_append.2 ⟨ha, before, after, rfl, fun x hx => ?_⟩
  have := earlier x hx
  cases hq : q x with
  | true => simp [imp x hq] at this
  | false => rfl

/-- What the first element of a sort leads to, when no other sort leads anywhere. -/
theorem findSome?_of_find? {α β : Type} {p : α → Bool} {f : α → Option β} {xs : List α} {a : α}
    {b : β} (first : xs.find? p = some a) (found : f a = some b)
    (none : ∀ x, p x = false → f x = none) : xs.findSome? f = some b := by
  obtain ⟨-, before, after, rfl, earlier⟩ := List.find?_eq_some_iff_append.1 first
  rw [List.findSome?_append, List.findSome?_eq_none_iff.2, List.findSome?_cons, found]
  · rfl
  · exact fun x hx => none x (by simpa using earlier x hx)

/-- The table that a name leads to is the first one with its names. -/
theorem find?_of_table? (h : c.table? name = some e) :
    c.entries.find? e.isLike = some (e.table.name, e) := by
  obtain ⟨⟨candidates, tableName⟩, hcandidates, h⟩ := Option.bind_eq_some_iff.1 h
  obtain ⟨found, hmatch, hitem⟩ := Option.map_eq_some_iff.1 h
  obtain ⟨full, hfirst⟩ := Text.find?_of_matchName hmatch
  rw [hitem] at hfirst
  unfold candidates? at hcandidates
  cases hsplit : Text.splitFirst? name with
  | some p =>
    rw [hsplit] at hcandidates
    obtain ⟨d, hd, heq⟩ := Option.map_eq_some_iff.1 hcandidates
    cases heq
    obtain ⟨t, -, heq⟩ := List.mem_map.1 (List.mem_of_find?_eq_some hfirst)
    cases heq
    have named : Text.same d.name p.1 = true := by simpa using List.find?_some hd
    rw [entries, List.find?_flatMap]
    refine findSome?_of_find? (p := fun d' => Text.same d'.name d.name) ?_
      (find?_narrow hfirst (Entry.isLike_self _) fun _ => Entry.same_of_isLike) fun d' other => ?_
    · rw [← hd, database?]
      congr
      funext d'
      exact Text.same_congr rfl (Text.same_iff.1 named)
    · refine List.find?_eq_none.2 fun p hp => ?_
      obtain ⟨t', -, rfl⟩ := List.mem_map.1 hp
      simp [Entry.isLike, other]
  | none =>
    rw [hsplit] at hcandidates
    cases hcandidates
    obtain ⟨d, -, hmem⟩ := List.mem_flatMap.1 (List.mem_of_find?_eq_some hfirst)
    obtain ⟨t, -, heq⟩ := List.mem_map.1 hmem
    cases heq
    exact find?_narrow hfirst (Entry.isLike_self _) fun _ => Entry.same_of_isLike

/-- The table that a name leads to is one of a database of the catalog. -/
theorem database_of_table? (h : c.table? name = some e) :
    ∃ d ∈ c.databases, d.name = e.database := by
  obtain ⟨d, hd, hmem⟩ := List.mem_flatMap.1 (List.mem_of_find?_eq_some (find?_of_table? h))
  obtain ⟨t, -, heq⟩ := List.mem_map.1 hmem
  exact ⟨d, hd, congrArg (·.2.database) heq⟩

/-- Names that lead to tables with one key lead to one table. -/
theorem eq_of_key (undotted : c.Undotted) (h : c.table? name = some e)
    (h' : c.table? name' = some e') (key : e.key = e'.key) : e = e' := by
  have plain : ∀ {e name}, c.table? name = some e → '.' ∉ e.database.toList := by
    intro e name h
    obtain ⟨d, hd, hname⟩ := database_of_table? h
    exact hname ▸ undotted d hd
  obtain ⟨database, table⟩ := Entry.names_of_key key (plain h) (plain h')
  have alike : e.isLike = e'.isLike := by
    funext p
    rw [Entry.isLike, Entry.isLike, Text.same_congr rfl database, Text.same_congr rfl table]
  have first := find?_of_table? h
  rw [alike, find?_of_table? h', Option.some.injEq, Prod.mk.injEq] at first
  exact first.2.symm

end Catalog

end AblResolve
