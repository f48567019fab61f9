import AblResolve.Index.HashedNames
import AblResolve.Proofs.FoldedBytes
import AblResolve.Proofs.NameTables
/-!
Name tables as maps that keep their order. What a name leads to is told by the definitions alone:
the last one in its namespace, up to the case of ASCII letters, at the place of the first. It makes
no difference that the entries are found by hashing. The hash of a name does not depend on its
spelling, so an entry whose spelling changes stays where it can be found, and positions are those of
a search through the list.
-/
namespace AblResolve

/-! ### Keys -/

/-- All that decides which entry a definition replaces. -/
def NameEntry.key (e : NameEntry) : Namespace × String := (e.space, Text.fold e.name)

/-- The last definition under a key. -/
def lastUnder (definitions : List NameEntry) (key : Namespace × String) : Option NameEntry :=
  definitions.reverse.find? (·.key = key)

/-- The keys in the order of their first definitions. -/
def keysOf (definitions : List NameEntry) : List (Namespace × String) :=
  (definitions.map (·.key)).eraseDups

variable {e old : NameEntry} {entries definitions : List NameEntry} {space : Namespace}
  {name : String} {key : Namespace × String}

theorem NameEntry.isFor_iff : e.isFor space name = true ↔ e.key = (space, Text.fold name) := by
  simp [isFor, key, Text.same_iff]

theorem lastUnder_concat : lastUnder (definitions ++ [e]) key =
    if e.key = key then some e else lastUnder definitions key := by
  rw [lastUnder, List.reverse_concat, List.find?_cons]
  by_cases h : e.key = key <;> simp [h, lastUnder]

theorem key_of_lastUnder (h : lastUnder definitions key = some e) : e.key = key := by
  simpa using List.find?_some h

theorem lastUnder_isSome : (lastUnder definitions key).isSome ↔ key ∈ keysOf definitions := by
  simp [lastUnder, keysOf, List.mem_eraseDups]

theorem keysOf_concat : keysOf (definitions ++ [e]) =
    if e.key ∈ keysOf definitions then keysOf definitions else keysOf definitions ++ [e.key] := by
  rw [keysOf, List.map_append, List.eraseDups_append]
  simp only [keysOf, List.mem_eraseDups, List.map_cons, List.map_nil, List.removeAll]
  split <;> simp_all [List.eraseDups_cons]

theorem nodup_keysOf (definitions : List NameEntry) : (keysOf definitions).Nodup := by
  induction definitions using List.reverseRecOn with
  | nil => exact List.nodup_nil
  | append_singleton rest e ih =>
    rw [keysOf_concat]
    split
    · exact ih
    · rename_i fresh
      refine List.nodup_append.2 ⟨ih, List.nodup_singleton _, fun k hk k' hk' same => fresh ?_⟩
      rwa [← List.mem_singleton.1 hk', ← same]

/-! ### Name tables by key -/

namespace NameTable

theorem put_eq (e : NameEntry) (entries : List NameEntry) : put e entries =
    match entries.findIdx? (·.isFor e.space e.name) with
    | some i => (entries[i]?.map (·.symbol), entries.set i e)
    | none => (none, entries ++ [e]) := by
  induction entries with
  | nil => rfl
  | cons old rest ih =>
    rw [put, List.findIdx?_cons]
    split
    · rfl
    · rw [ih]
      cases rest.findIdx? (·.isFor e.space e.name) <;> rfl

theorem find?_eq_findIdx? (t : NameTable) (space : Namespace) (name : String) :
    t.find? space name =
      (t.entries.findIdx? (·.isFor space name)).bind fun i => t.entries[i]?.map (·.symbol) := by
  obtain ⟨entries⟩ := t
  unfold find?
  induction entries with
  | nil => rfl
  | cons old rest ih =>
    rw [List.find?_cons, List.findIdx?_cons]
    cases old.isFor space name with
    | true => rfl
    | false =>
      rw [ih]
      cases rest.findIdx? (·.isFor space name) <;> rfl

/-- What a definition replaces is what its name has stood for. -/
theorem insert_fst (t : NameTable) (space : Namespace) (name : String) (symbol : SymbolId) :
    (t.insert space name symbol).1 = t.find? space name := by
  rw [find?_eq_findIdx?, insert, put_eq]
  cases t.entries.findIdx? (·.isFor space name) <;> rfl

theorem ofList_concat : ofList (definitions ++ [e]) =
    ((ofList definitions).insert e.space e.name e.symbol).2 := by
  rw [ofList, List.foldl_append]
  rfl

/-- A name leads to the symbol of its last definition. -/
theorem find?_ofList (definitions : List NameEntry) (space : Namespace) (name : String) :
    (ofList definitions).find? space name =
      (lastUnder definitions (space, Text.fold name)).map (·.symbol) := by
  induction definitions using List.reverseRecOn with
  | nil => rfl
  | append_singleton rest e ih =>
    rw [ofList_concat, find?_insert, lastUnder_concat, ih]
    have same : (e.space = space ∧ Text.same e.name name = true) ↔
        e.key = (space, Text.fold name) := by
      simp [NameEntry.key, Text.same_iff]
    simp only [same]
    split <;> rfl

/-- A definition takes the place of the entry under its key, or comes last. -/
theorem put_filterMap {keys : List (Namespace × String)}
    {held held' : Namespace × String → Option NameEntry} (nodup : keys.Nodup)
    (keyed : ∀ k ∈ keys, ∃ old, held k = some old ∧ old.key = k)
    (turns : ∀ k, held' k = if e.key = k then some e else held k) :
    (put e (keys.filterMap held)).2 =
      (if e.key ∈ keys then keys else keys ++ [e.key]).filterMap held' := by
  induction keys with
  | nil => simp [put, turns]
  | cons k rest ih =>
    obtain ⟨fresh, nodup⟩ := List.nodup_cons.1 nodup
    obtain ⟨⟨old, hold, own⟩, keyed⟩ := List.forall_mem_cons.1 keyed
    rw [List.filterMap_cons_some hold, put]
    by_cases here : e.key = k
    · have found : old.isFor e.space e.name = true := NameEntry.isFor_iff.2 (own.trans here.symm)
      have turned : held' k = some e := by rw [turns, if_pos here]
      rw [if_pos found, if_pos (here ▸ List.mem_cons_self ..), List.filterMap_cons_some turned]
      refine congrArg _ (List.filterMap_congr fun k' hk' => ?_)
      rw [turns, if_neg fun same => fresh (by rwa [here.symm.trans same])]
    · have other : ¬ old.isFor e.space e.name = true :=
        fun found => here (own.symm.trans (NameEntry.isFor_iff.1 found)).symm
      have kept : held' k = some old := by rw [turns, if_neg here, hold]
      rw [if_neg other, ih nodup keyed]
      by_cases later : e.key ∈ rest
      · rw [if_pos later, if_pos (List.mem_cons_of_mem _ later), List.filterMap_cons_some kept]
      · rw [if_neg later, if_neg (by simp [here, later]), List.cons_append,
          List.filterMap_cons_some kept]

/-- The entries are the last definitions, in the order of the first. -/
theorem entries_ofList (definitions : List NameEntry) : (ofList definitions).entries =
    (keysOf definitions).filterMap (lastUnder definitions) := by
  induction definitions using List.reverseRecOn with
  | nil => rfl
  | append_singleton rest e ih =>
    have keyed : ∀ k ∈ keysOf rest, ∃ old, lastUnder rest k = some old ∧ old.key = k := by
      intro k hk
      obtain ⟨old, hold⟩ := Option.isSome_iff_exists.1 (lastUnder_isSome.2 hk)
      exact ⟨old, hold, key_of_lastUnder hold⟩
    have step : (ofList (rest ++ [e])).entries = (put e (ofList rest).entries).2 := by
      rw [ofList_concat]
      rfl
    rw [step, ih, put_filterMap (nodup_keysOf rest) keyed fun _ => lastUnder_concat, keysOf_concat]

/-- Every entry is the last definition under its key. -/
theorem lastUnder_of_mem (h : e ∈ (ofList definitions).entries) :
    lastUnder definitions e.key = some e := by
  rw [entries_ofList] at h
  obtain ⟨k, -, last⟩ := List.mem_filterMap.1 h
  rwa [key_of_lastUnder last]

/-- There is one entry for each key, where the key first came. -/
theorem map_key_ofList (definitions : List NameEntry) :
    (ofList definitions).entries.map (·.key) = keysOf definitions := by
  have own : ∀ k ∈ keysOf definitions, (lastUnder definitions k).map (·.key) = some k := by
    intro k hk
    obtain ⟨e, last⟩ := Option.isSome_iff_exists.1 (lastUnder_isSome.2 hk)
    rw [last, Option.map_some, key_of_lastUnder last]
  rw [entries_ofList, List.map_filterMap]
  exact (List.filterMap_congr own).trans List.filterMap_some

theorem map_key_inNamespace (t : NameTable) (space : Namespace) :
    (t.inNamespace space).map (·.key) = (t.entries.map (·.key)).filter (·.1 = space) := by
  rw [inNamespace, List.filter_map]
  rfl

end NameTable

/-! ### Tables of positions -/

/-- What is known of the tables of positions of a library, where `Holds` says which positions a
table has under which hashes: an empty table has none. One more is added, if those that are there
are hashed as before. A search finds a position that is there and passes the test, perhaps under
another hash, and fails only if none under the hash passes. -/
structure PositionTable.Lawful (p : PositionTable) (Holds : p.Table → UInt64 → Nat → Prop) :
    Prop where
  empty {hash i} : ¬ Holds p.empty hash i
  insertUnique {t hash i rehash} (same : ∀ hash' i', Holds t hash' i' → rehash i' = hash')
    {hash' i'} : Holds (p.insertUnique t hash i rehash) hash' i' ↔
      Holds t hash' i' ∨ hash' = hash ∧ i' = i
  find_some {t hash test i} (found : p.find t hash test = some i) :
    test i = true ∧ ∃ hash', Holds t hash' i
  find_none {t hash test i} (failed : p.find t hash test = none) (held : Holds t hash i) :
    test i = false

/-- A name has the same hash in all its spellings. -/
theorem Hasher.hashKey_congr (h : Hasher) (same : e.isFor space name = true) :
    h.hashKey e.space e.name = h.hashKey space name := by
  simp only [NameEntry.isFor, Bool.and_eq_true, decide_eq_true_eq] at same
  rw [hashKey, hashKey, same.1, Text.same_iff_foldedBytes.1 same.2]

namespace HashedNames

variable {p : PositionTable} {Holds : p.Table → UInt64 → Nat → Prop} {h : Hasher}
  {t : HashedNames p} {symbol : SymbolId} {i : Nat}

/-- The positions are those of the entries, each under the hash of its name, and no two entries are
for the same name. -/
structure Indexed (Holds : p.Table → UInt64 → Nat → Prop) (h : Hasher) (t : HashedNames p) :
    Prop where
  distinct : NameTable.Distinct t.entries
  positions : ∀ hash i, Holds t.positions hash i ↔
    ∃ e, t.entries[i]? = some e ∧ h.hashKey e.space e.name = hash

theorem isAt_iff : isAt entries space name i = true ↔
    ∃ e, entries[i]? = some e ∧ e.isFor space name = true := by
  unfold isAt
  cases entries[i]? <;> simp

/-- No two entries pass the test for one name. -/
theorem eq_of_isAt {j : Nat} (distinct : NameTable.Distinct entries)
    (hi : isAt entries space name i = true) (hj : isAt entries space name j = true) : i = j := by
  obtain ⟨a, ha, fora⟩ := isAt_iff.1 hi
  obtain ⟨b, hb, forb⟩ := isAt_iff.1 hj
  have clash : a.isFor b.space b.name = true ∧ b.isFor a.space a.name = true := by
    rw [NameEntry.isFor_iff] at fora forb
    exact ⟨NameEntry.isFor_iff.2 (fora.trans forb.symm),
      NameEntry.isFor_iff.2 (forb.trans fora.symm)⟩
  obtain ⟨hi, rfl⟩ := List.getElem?_eq_some_iff.1 ha
  obtain ⟨hj, rfl⟩ := List.getElem?_eq_some_iff.1 hb
  have apart := List.pairwise_iff_getElem.1 distinct
  rcases Nat.lt_trichotomy i j with before | rfl | after
  · exact absurd clash.1 (Bool.eq_false_iff.1 (apart i j hi hj before))
  · rfl
  · exact absurd clash.2 (Bool.eq_false_iff.1 (apart j i hj hi after))

theorem findIdx?_isAt (hfind : entries.findIdx? (·.isFor space name) = some i) :
    isAt entries space name i = true := by
  obtain ⟨hi, found, -⟩ := List.findIdx?_eq_some_iff_getElem.1 hfind
  exact isAt_iff.2 ⟨_, List.getElem?_eq_getElem hi, found⟩

/-- The position of a name is the one that a search through the entries finds. -/
theorem Indexed.position?_eq (lawful : p.Lawful Holds) (indexed : t.Indexed Holds h)
    (space : Namespace) (name : String) :
    t.position? h space name = t.entries.findIdx? (·.isFor space name) := by
  cases hposition : t.position? h space name with
  | some i =>
    have found := (lawful.find_some hposition).1
    cases hfind : t.entries.findIdx? (·.isFor space name) with
    | some j => rw [eq_of_isAt indexed.distinct found (findIdx?_isAt hfind)]
    | none =>
      obtain ⟨e, he, same⟩ := isAt_iff.1 found
      have := List.findIdx?_eq_none_iff.1 hfind e (List.mem_of_getElem? he)
      rw [same] at this
      cases this
  | none =>
    refine (List.findIdx?_eq_none_iff.2 fun e he => ?_).symm
    obtain ⟨i, hi⟩ := List.getElem?_of_mem he
    refine Bool.eq_false_iff.2 fun same => ?_
    -- the entry is under the hash that was looked for, and passes the test
    have held := (indexed.positions _ i).2 ⟨e, hi, h.hashKey_congr same⟩
    have := lawful.find_none hposition held
    rw [isAt_iff.2 ⟨e, hi, same⟩] at this
    cases this

theorem Indexed.find?_eq (lawful : p.Lawful Holds) (indexed : t.Indexed Holds h)
    (space : Namespace) (name : String) :
    t.find? h space name = NameTable.find? ⟨t.entries⟩ space name := by
  rw [find?, indexed.position?_eq lawful, NameTable.find?_eq_findIdx?]

theorem modify_eq_set (he : entries[i]? = some e) (same : e.isFor space name = true) :
    (entries.modify i fun old => { old with name, symbol }) =
      entries.set i ⟨space, name, symbol⟩ := by
  simp only [NameEntry.isFor, Bool.and_eq_true, decide_eq_true_eq] at same
  refine List.ext_getElem? fun j => ?_
  rw [List.getElem?_modify, List.getElem?_set]
  by_cases here : i = j
  · subst here
    rw [if_pos rfl, if_pos (List.getElem?_eq_some_iff.1 he).1, he]
    simp [same.1]
  · cases entries[j]? <;> simp [here]

/-- Defining a name does what it does without hashing. -/
theorem Indexed.insert_eq (lawful : p.Lawful Holds) (indexed : t.Indexed Holds h)
    (space : Namespace) (name : String) (symbol : SymbolId) :
    ((t.insert h space name symbol).1, (t.insert h space name symbol).2.entries) =
      NameTable.put ⟨space, name, symbol⟩ t.entries := by
  rw [NameTable.put_eq, insert, indexed.position?_eq lawful]
  cases hfind : t.entries.findIdx? (·.isFor space name) with
  | none => rfl
  | some i =>
    obtain ⟨e, he, same⟩ := isAt_iff.1 (findIdx?_isAt hfind)
    exact Prod.ext rfl (modify_eq_set he same)

/-- Positions stay those of the entries: an entry that gets another spelling has the hash that it
had, and a new one comes last. -/
theorem Indexed.insert (lawful : p.Lawful Holds) (indexed : t.Indexed Holds h)
    (space : Namespace) (name : String) (symbol : SymbolId) :
    (t.insert h space name symbol).2.Indexed Holds h := by
  have entries := congrArg Prod.snd (indexed.insert_eq lawful space name symbol)
  dsimp only at entries
  refine ⟨entries ▸ NameTable.distinct_put indexed.distinct, fun hash j => ?_⟩
  rw [entries, NameTable.put_eq, HashedNames.insert, indexed.position?_eq lawful]
  dsimp only
  cases hfind : t.entries.findIdx? (·.isFor space name) with
  | some i =>
    obtain ⟨old, hold, same⟩ := isAt_iff.1 (findIdx?_isAt hfind)
    dsimp only
    rw [indexed.positions, List.getElem?_set]
    by_cases here : i = j
    · subst here
      rw [if_pos rfl, if_pos (List.getElem?_eq_some_iff.1 hold).1, hold]
      simp [h.hashKey_congr same]
    · simp [here]
  | none =>
    dsimp only
    have rehashed : ∀ hash' i', Holds t.positions hash' i' →
        hashAt h (t.entries ++ [⟨space, name, symbol⟩]) i' = hash' := by
      intro hash' i' held
      obtain ⟨e, he, rfl⟩ := (indexed.positions _ _).1 held
      have := (List.getElem?_eq_some_iff.1 he).1
      rw [hashAt, List.getElem?_append_left this, he]
    rw [lawful.insertUnique rehashed, indexed.positions]
    rcases Nat.lt_trichotomy j t.entries.length with before | rfl | after
    · rw [List.getElem?_append_left before]
      simp [Nat.ne_of_lt before]
    · simp [eq_comm]
    · have none : (t.entries ++ [⟨space, name, symbol⟩])[j]? = none :=
        List.getElem?_eq_none (by rw [List.length_append]; exact after)
      simp [none, List.getElem?_eq_none (Nat.le_of_lt after), Nat.ne_of_gt after]

theorem indexed_empty (lawful : p.Lawful Holds) (h : Hasher) :
    ({} : HashedNames p).Indexed Holds h where
  distinct := List.Pairwise.nil
  positions hash i := by simp [lawful.empty]

theorem ofList_concat : ofList p h (definitions ++ [e]) =
    ((ofList p h definitions).insert h e.space e.name e.symbol).2 := by
  rw [ofList, List.foldl_append]
  rfl

theorem indexed_ofList (lawful : p.Lawful Holds) (h : Hasher) (definitions : List NameEntry) :
    (ofList p h definitions).Indexed Holds h := by
  induction definitions using List.reverseRecOn with
  | nil => exact indexed_empty lawful h
  | append_singleton rest e ih =>
    rw [ofList_concat]
    exact ih.insert lawful _ _ _

/-- The entries are those that there are without hashing. -/
theorem entries_ofList (lawful : p.Lawful Holds) (h : Hasher) (definitions : List NameEntry) :
    (ofList p h definitions).entries = (NameTable.ofList definitions).entries := by
  induction definitions using List.reverseRecOn with
  | nil => rfl
  | append_singleton rest e ih =>
    rw [ofList_concat, NameTable.ofList_concat, NameTable.insert, ← ih]
    exact congrArg Prod.snd ((indexed_ofList lawful h rest).insert_eq lawful _ _ _)

/-- A name table is a map that keeps its order. There is one entry for each key, where the key
first came, and it is the last definition under the key; a name leads to the symbol of the last
definition under its key, and what a definition replaces is what its name has led to. Whatever the
hash function and the table of positions are, entries are found where a search through the list
finds them, and all of this is what there is without hashing. -/
theorem ofList_ordered (lawful : p.Lawful Holds) (h : Hasher) (definitions : List NameEntry) :
    let t := ofList p h definitions
    let plain := NameTable.ofList definitions
    (∀ space name, t.find? h space name =
      (lastUnder definitions (space, Text.fold name)).map (·.symbol)) ∧
    (∀ space name symbol, (t.insert h space name symbol).1 = t.find? h space name) ∧
    t.entries.map (·.key) = keysOf definitions ∧
    (∀ e ∈ t.entries, lastUnder definitions e.key = some e) ∧
    (∀ space, (t.inNamespace space).Sublist t.entries ∧
      (t.inNamespace space).map (·.key) = (keysOf definitions).filter (·.1 = space)) ∧
    (∀ hash i, Holds t.positions hash i → i < t.entries.length) ∧
    (∀ space name, t.position? h space name = t.entries.findIdx? (·.isFor space name)) ∧
    t.entries = plain.entries ∧
    (∀ space name, t.find? h space name = plain.find? space name) ∧
    ∀ space name symbol,
      (t.insert h space name symbol).1 = (plain.insert space name symbol).1 ∧
      (t.insert h space name symbol).2.entries = (plain.insert space name symbol).2.entries := by
  intro t plain
  have indexed : t.Indexed Holds h := indexed_ofList lawful h definitions
  have entries : t.entries = plain.entries := entries_ofList lawful h definitions
  have finds : ∀ space name, t.find? h space name = plain.find? space name := by
    intro space name
    rw [indexed.find?_eq lawful, entries]
  have inserts : ∀ space name symbol,
      (t.insert h space name symbol).1 = (plain.insert space name symbol).1 ∧
      (t.insert h space name symbol).2.entries = (plain.insert space name symbol).2.entries := by
    intro space name symbol
    have same := indexed.insert_eq lawful space name symbol
    rw [entries] at same
    exact ⟨congrArg Prod.fst same, congrArg Prod.snd same⟩
  refine ⟨fun space name => ?_, fun space name symbol => ?_, ?_, fun e he => ?_,
    fun space => ⟨?_, ?_⟩, fun hash i held => ?_, indexed.position?_eq lawful, entries, finds,
    inserts⟩
  · rw [finds, NameTable.find?_ofList]
  · rw [(inserts space name symbol).1, NameTable.insert_fst, finds]
  · rw [entries, NameTable.map_key_ofList]
  · exact NameTable.lastUnder_of_mem (entries ▸ he)
  · exact List.filter_sublist
  · have same : t.inNamespace space = plain.inNamespace space := by
      rw [inNamespace, NameTable.inNamespace, entries]
    rw [same, NameTable.map_key_inNamespace, NameTable.map_key_ofList]
  · obtain ⟨e, he, -⟩ := (indexed.positions _ _).1 held
    exact (List.getElem?_eq_some_iff.1 he).1

end HashedNames

/-! ### A hash function and a table -/

/-- A hash function that multiplies. -/
def Hasher.multiplying : Hasher where
  State := UInt64
  start := 0
  writeWord s w := (s + w) * 0xf1357aea2e62a9c5
  writeByte s b := (s + b.toUInt64) * 0xf1357aea2e62a9c5
  finish s := s <<< 26 ||| s >>> 38

/-- A table that is laid out anew whenever a position is added. -/
def PositionTable.listed : PositionTable where
  Table := List (UInt64 × Nat)
  empty := []
  find t hash test := (t.find? fun q => q.1 == hash && test q.2).map (·.2)
  insertUnique t hash i rehash := t.map (fun q => (rehash q.2, q.2)) ++ [(hash, i)]

theorem PositionTable.listed_lawful :
    listed.Lawful fun (t : List (UInt64 × Nat)) hash i => (hash, i) ∈ t where
  empty := List.not_mem_nil
  insertUnique := by
    intro (t : List (UInt64 × Nat)) hash i rehash same hash' i'
    have still : t.map (fun q => (rehash q.2, q.2)) = t := calc
      t.map (fun q => (rehash q.2, q.2))
      _ = t.map id := List.map_congr_left fun q hq => Prod.ext (same q.1 q.2 hq) rfl
      _ = t := List.map_id t
    simp [listed, still]
  find_some := by
    intro t hash test i found
    obtain ⟨q, hq, rfl⟩ := Option.map_eq_some_iff.1 found
    have passes := List.find?_some hq
    rw [Bool.and_eq_true] at passes
    exact ⟨passes.2, q.1, List.mem_of_find?_eq_some hq⟩
  find_none := by
    intro t hash test i failed held
    have := List.find?_eq_none.1 (Option.map_eq_none_iff.1 failed) _ held
    simpa using this

/-- Two routines, the first of which is defined again in other letters. -/
def redefinedRoutines : List NameEntry :=
  [⟨.routine, "f", ⟨0⟩⟩, ⟨.routine, "g", ⟨1⟩⟩, ⟨.routine, "F", ⟨2⟩⟩]

/-- The routine that is defined again keeps its place. -/
theorem HashedNames.ofList_ordered_redefined :
    (ofList .listed .multiplying redefinedRoutines).entries.map (·.key) =
        [(.routine, "f"), (.routine, "g")] ∧
      (ofList .listed .multiplying redefinedRoutines).find? .multiplying .routine "f" = some ⟨2⟩ ∧
      ((ofList .listed .multiplying redefinedRoutines).insert .multiplying .routine "G" ⟨3⟩).1 =
        some ⟨1⟩ := by
  obtain ⟨finds, inserts, keys, -⟩ :=
    ofList_ordered PositionTable.listed_lawful .multiplying redefinedRoutines
  have folds : Text.fold "f" = "f" ∧ Text.fold "F" = "f" ∧ Text.fold "g" = "g" ∧
      Text.fold "G" = "g" := by decide +kernel
  refine ⟨?_, ?_, ?_⟩
  · rw [keys]
    simp [redefinedRoutines, keysOf, NameEntry.key, folds, List.eraseDups_cons]
  · rw [finds]
    simp [redefinedRoutines, lastUnder, NameEntry.key, folds]
  · rw [inserts, finds]
    simp [redefinedRoutines, lastUnder, NameEntry.key, folds]

end AblResolve
