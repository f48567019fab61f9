import AblResolve.Proofs.Abbreviations
import AblResolve.Proofs.Handles
/-!
The flags of records and fields. A name that is looked up is flagged by what is known at the lookup:
how the field was matched, whether there is a dot in the name, how long the name of the table is. No
other node is flagged then, and no node twice.
-/
namespace AblResolve

namespace UnitIndex

variable {x y : UnitIndex} {b : SymbolId} {name : String}

/-- A field is abbreviated by a name that is not a spelling of the field's. -/
theorem fieldNamed?_fits {t : TableId} {found : Text.Match FieldId}
    (h : x.fieldNamed? t name = some found) : ∃ full, x.fieldName? found.item = some full ∧
      (found.abbreviated = true ↔ Text.same name full = false) := by
  obtain ⟨table, -, hmatch⟩ := Option.bind_eq_some_iff.1 h
  obtain ⟨full, mem, -, abbreviated⟩ := Text.matchName_fits hmatch
  obtain ⟨f, -, hf⟩ := List.mem_filterMap.1 mem
  obtain ⟨field, hfield, heq⟩ := Option.map_eq_some_iff.1 hf
  simp only [Prod.mk.injEq] at heq
  obtain ⟨rfl, rfl⟩ := heq
  exact ⟨field.name, by rw [fieldName?, hfield, Option.map_some], abbreviated⟩

theorem bufferField?_fits {found : Text.Match FieldId} (h : x.bufferField? b name = some found) :
    ∃ full, x.fieldName? found.item = some full ∧
      (found.abbreviated = true ↔ Text.same name full = false) := by
  obtain ⟨t, -, hnamed⟩ := Option.bind_eq_some_iff.1 h
  exact fieldNamed?_fits hnamed

theorem Extends.isAbbreviatedTable_eq (ext : x.Extends y) (c : x.Coherent)
    (hb : b.val < x.symbols.size) :
    Walk.isAbbreviatedTable y b name = Walk.isAbbreviatedTable x b name := by
  rw [Bool.eq_iff_iff, isAbbreviatedTable_iff, isAbbreviatedTable_iff, ext.catalogName?_eq c hb]

/-- The last segment of a name is short for the name of the field that the symbol leads to. -/
def AbbreviatesField (x : UnitIndex) (name : String) (s : SymbolId) : Prop :=
  ∃ f full, x.asFieldBuffer? s = some f ∧ x.fieldName? f.field = some full ∧
    Text.same (Text.lastSegment name) full = false

/-- What stands before the last dot of a name is short for the name of the catalog table through
whose default buffer the symbol leads to a field. -/
def AbbreviatesQualifier (x : UnitIndex) (name : String) (s : SymbolId) : Prop :=
  ∃ f before last, x.asFieldBuffer? s = some f ∧ Text.splitLast? name = some (before, last) ∧
    x.AbbreviatesTable before f.buffer

end UnitIndex

/-- What a record or a field says about its name: what it stands for, and its flags. -/
structure Naming where
  symbol : Option SymbolId
  unqualified : Bool
  abbreviated : Bool

def Annotation.naming (a : Annotation) : Naming := ⟨a.symbol, a.unqualified, a.abbreviated⟩

def Walk.FieldLookup.naming (l : FieldLookup) : Naming :=
  ⟨some l.symbol, l.unqualified, l.abbreviated⟩

namespace Naming

open UnitIndex

variable {x y : UnitIndex} {catalog : Catalog} {name : String} {hint : Option SymbolId} {m : Naming}

/-- It has no flags, and stands for no field of a table. -/
structure Plain (x : UnitIndex) (m : Naming) : Prop where
  unqualified : m.unqualified = false
  abbreviated : m.abbreviated = false
  unreached : ∀ s, m.symbol = some s → s.val < x.symbols.size ∧ x.asFieldBuffer? s = none

theorem Plain.later (h : m.Plain x) (ext : x.Extends y) : m.Plain y where
  unqualified := h.unqualified
  abbreviated := h.abbreviated
  unreached s hs := by
    obtain ⟨lt, reach⟩ := h.unreached s hs
    exact ⟨ext.lt_symbols lt, (ext.asFieldBuffer?_eq lt).trans reach⟩

/-- The flags are those of a field with a name. If it has been looked up in the table of a buffer
that a hint points to, that buffer is given by `hint`. -/
inductive Flagged (x : UnitIndex) (catalog : Catalog) (name : String) (hint : Option SymbolId)
    (m : Naming) : Prop
  | plain (plain : m.Plain x) : Flagged x catalog name hint m
  | field {s : SymbolId} {f : FieldBuffer} {full : String} (found : m.symbol = some s)
      (reach : x.asFieldBuffer? s = some f) (named : x.fieldName? f.field = some full)
      (bare : m.unqualified = true ↔ '.' ∉ name.toList)
      (short : m.abbreviated = true ↔ Text.same (Text.lastSegment name) full = false ∨
        hint = none ∧ ∃ p, Text.splitLast? name = some p ∧
          Walk.isAbbreviatedTable x f.buffer p.1 = true)
      (answers : hint = none → ∀ p, Text.splitLast? name = some p →
        x.Answers catalog p.1 f.buffer) : Flagged x catalog name hint m

theorem Flagged.later (h : m.Flagged x catalog name hint) (ext : x.Extends y) (c : x.Coherent)
    (listed : x.schemaTables ⊆ y.schemaTables) : m.Flagged y catalog name hint := by
  cases h with
  | plain plain => exact .plain (plain.later ext)
  | @field s f _ found reach named bare short answers =>
    obtain ⟨symbol, hsymbol, kind⟩ := asFieldBuffer?_eq_some.1 reach
    have ok := (c.symbols hsymbol).kind
    rw [kind] at ok
    have hb : f.buffer.val < x.symbols.size := ok.1.lt_size
    refine .field found (ext.asFieldBuffer? reach) (ext.fieldName? named) bare ?_
      fun unhinted p hp => (answers unhinted p hp).later ext c hb listed
    simpa only [ext.isAbbreviatedTable_eq c hb] using short

/-- In an index whose tables of the catalog are copies, the flags say what they should. -/
theorem Flagged.exact (h : m.Flagged x catalog name hint) (copies : x.Copies catalog)
    (plainTables : catalog.PlainTables) :
    (m.unqualified = true ↔
      ∃ s, m.symbol = some s ∧ (x.asFieldBuffer? s).isSome ∧ '.' ∉ name.toList) ∧
    (m.abbreviated = true ↔ ∃ s, m.symbol = some s ∧
      (x.AbbreviatesField name s ∨ hint = none ∧ x.AbbreviatesQualifier name s)) := by
  cases h with
  | plain plain =>
    have none : ∀ s, m.symbol = some s → x.asFieldBuffer? s = none :=
      fun s hs => (plain.unreached s hs).2
    constructor
    · simp +contextual [plain.unqualified, none]
    · simp +contextual [plain.abbreviated, none, AbbreviatesField, AbbreviatesQualifier]
  | @field s f full found reach named bare short answers =>
    have own : x.AbbreviatesField name s ↔ Text.same (Text.lastSegment name) full = false := by
      simp [AbbreviatesField, reach, named]
    have table : hint = none → (x.AbbreviatesQualifier name s ↔ ∃ p, Text.splitLast? name = some p ∧
        Walk.isAbbreviatedTable x f.buffer p.1 = true) := by
      intro unhinted
      constructor
      · rintro ⟨f', before, last, reach', hp, other⟩
        rw [reach] at reach'
        cases reach'
        exact ⟨_, hp, ((answers unhinted _ hp).isAbbreviatedTable_iff copies plainTables).2 other⟩
      · rintro ⟨p, hp, other⟩
        exact ⟨f, p.1, p.2, reach, hp,
          ((answers unhinted _ hp).isAbbreviatedTable_iff copies plainTables).1 other⟩
    simp only [found, Option.some.injEq, exists_eq_left']
    refine ⟨by rw [bare, reach]; simp, ?_⟩
    rw [short, own]
    exact or_congr_right (and_congr_right fun unhinted => (table unhinted).symm)

end Naming

namespace Walk

open UnitIndex

variable {env : Env} {n m : NodeId} {w w' : Walk} {name : String} {b : SymbolId}

/-! ### Looking a field up -/

/-- A field that was matched in the table of a buffer and is reached through the buffer. -/
theorem flagged_of_reach {x y : UnitIndex} {catalog : Catalog} {found : Text.Match FieldId}
    {l : FieldLookup} {hint : Option SymbolId}
    (hfind : x.bufferField? b (Text.lastSegment name) = some found) (ext : x.Extends y)
    (reach : y.asFieldBuffer? l.symbol = some ⟨b, found.item⟩)
    (bare : l.unqualified = true ↔ '.' ∉ name.toList)
    (short : l.abbreviated = true ↔ found.abbreviated = true ∨ hint = none ∧
      ∃ p, Text.splitLast? name = some p ∧ isAbbreviatedTable y b p.1 = true)
    (answers : hint = none → ∀ p, Text.splitLast? name = some p → y.Answers catalog p.1 b) :
    l.naming.Flagged y catalog name hint := by
  obtain ⟨full, named, matched⟩ := bufferField?_fits hfind
  refine .field rfl reach (ext.fieldName? named) bare ?_ answers
  rw [← matched]
  exact short

theorem fieldOfBuffer?_flagged {l : FieldLookup} (n : NodeId) (hs : Sound w)
    (hok : fieldOfBuffer? b name w = .ok (some l) w') :
    l.naming.Flagged w'.index env.catalog name (some b) := by
  cases fieldOfBuffer?_end env n hs hok with
  | field has moves reached =>
    refine flagged_of_reach has moves.runs.extends reached ?_ (by simp) nofun
    rw [Option.isNone_iff_eq_none, Text.splitLast?_eq_none]

/-- A name with a dot: the buffer is found under what stands before the last one. -/
theorem lookupQualified?_flagged {before last : String} {binding : Bool} {l : FieldLookup}
    (n : NodeId) (hs : Sound w) (ok : w.index.SchemaTablesOk) (own : w.index.NamesNoCopy)
    (qualified : Text.splitLast? name = some (before, last))
    (hok : lookupQualified? env before last binding w = .ok (some l) w') :
    l.naming.Flagged w'.index env.catalog name none := by
  cases lookupQualified?_end n hs hok with
  | @field b _ found _ v _ find has obtains =>
    obtain ⟨moves, offers, -⟩ := (ends_findBuffer? env n hs before .buffer).ok find
    have offers := offers b rfl
    have answers := findBuffer?_answers n hs ok own find
    have calm : Calm {} v w' := obtains.calm
    have ext := obtains.moves.runs.extends
    have dotted : '.' ∈ name.toList := by
      by_contra plain
      rw [Text.splitLast?_eq_none.2 plain] at qualified
      cases qualified
    have segment : Text.lastSegment name = last := by rw [Text.lastSegment, qualified]
    refine flagged_of_reach (segment ▸ has) ext obtains.reached (by simp [dotted])
      (by simp [qualified]) fun _ p hp => ?_
    rw [qualified] at hp
    cases hp
    exact answers.later ext (moves.runs.sound hs).coherent offers.sees.lt_size
      (by rw [calm.schemaTables]; simp)

/-- A name without a dot: a field that is found is one of a table that is not named. -/
theorem lookupBare?_flagged {binding : Bool} {l : FieldLookup} (n : NodeId) (hs : Sound w)
    (bare : Text.splitLast? name = none) (hok : lookupBare? name binding w = .ok (some l) w') :
    l.naming.Flagged w'.index env.catalog name none := by
  have segment : Text.lastSegment name = name := by rw [Text.lastSegment, bare]
  have undotted := Text.splitLast?_eq_none.1 bare
  have field : ∀ {x y : UnitIndex} {b : SymbolId} {found : Text.Match FieldId} {l : FieldLookup},
      x.bufferField? b name = some found → x.Extends y →
      y.asFieldBuffer? l.symbol = some ⟨b, found.item⟩ → l.unqualified = true →
      l.abbreviated = found.abbreviated → l.naming.Flagged y env.catalog name none :=
    fun hfind ext reach unqualified abbreviated => flagged_of_reach (segment.symm ▸ hfind) ext reach
      (by simp [unqualified, undotted]) (by simp [abbreviated, bare]) (by simp [bare])
  cases lookupBare?_end env n hs hok with
  | plain found =>
    obtain ⟨sees, -, reach⟩ := hs.plainSymbol? found
    refine .plain ⟨rfl, rfl, fun s' hs' => ?_⟩
    cases hs'
    exact ⟨sees.lt_size, reach⟩
  | bound find _ moves reached =>
    exact field (boundField?_eq_some find) moves.runs.extends reached rfl rfl
  | visible find obtains =>
    exact field (visibleField?_eq_some find) obtains.moves.runs.extends obtains.reached rfl rfl

theorem lookupField?_flagged {binding : Bool} {l : FieldLookup} (n : NodeId) (hs : Sound w)
    (ok : w.index.SchemaTablesOk) (own : w.index.NamesNoCopy)
    (hok : lookupField? env name binding w = .ok (some l) w') :
    l.naming.Flagged w'.index env.catalog name none := by
  unfold lookupField? at hok
  cases hsplit : Text.splitLast? name with
  | some p =>
    rw [hsplit] at hok
    exact lookupQualified?_flagged n hs ok own hsplit hok
  | none =>
    rw [hsplit] at hok
    exact lookupBare?_flagged n hs hsplit hok

/-! ### What is written on fields and records -/

/-- Only references flag anything. -/
theorem Runs.flags (h : Runs env n w w') (m : NodeId) :
    (w'.notes.get m).unqualified = (w.notes.get m).unqualified ∧
      (w'.notes.get m).abbreviated = (w.notes.get m).abbreviated := by
  by_cases hne : m = n
  · subst hne
    refine h.notes (P := fun a b => b.unqualified = a.unqualified ∧ b.abbreviated = a.abbreviated)
      (fun _ => ⟨rfl, rfl⟩) (fun _ _ _ h k => ⟨k.1.trans h.1, k.2.trans h.2⟩) ?_
    intro v a b _ mark
    cases mark <;> exact ⟨rfl, rfl⟩
  · rw [h.apart hne]
    exact ⟨rfl, rfl⟩

/-- A node that has no flags yet says what is found. -/
theorem annotateField_naming {l : FieldLookup} {q : Qualifier} {hint : Option SymbolId}
    (clean : (w.notes.get n).unqualified = false ∧ (w.notes.get n).abbreviated = false)
    (flagged : l.naming.Flagged w.index env.catalog name hint)
    (hok : annotateField n l q w = .ok () w') : (w'.notes.get n).naming = l.naming := by
  obtain ⟨store, stored, notes, -⟩ := annotateField_ok hok
  have inTable : (l.unqualified && (store.isSome && store != some .variable)) = l.unqualified := by
    cases flagged with
    | plain plain =>
      have bare : l.unqualified = false := plain.unqualified
      rw [bare, Bool.false_and]
    | field found reach =>
      cases found
      obtain ⟨isSome, other⟩ := stored _ reach
      simp [isSome, other]
  rw [notes, Annotations.get_update_self]
  simp [FieldLookup.naming, Annotation.naming, clean.1, clean.2, inTable]

theorem ends_missingField_notes (hs : Sound w) {h : TableHint} (hb : w.hinted? h = some b) :
    Ends (missingField env n b (env.tree.text n)) w Never fun _ v =>
      v.notes = w.notes ∧ w.index.Extends v.index := by
  obtain ⟨symbol, hsymbol⟩ := Arena.exists_get? (hs.hinted? hb).1.lt_size
  unfold missingField
  cases isTolerant env n with
  | true => exact ⟨rfl, .refl _⟩
  | false =>
    simp only [Bool.not_false, if_true]
    rw [ends_bind, ends_symbolAt hsymbol, ends_bind, ends_report,
      ends_addUnresolved env n (hs.noted w.index.unresolved _)]
    exact ⟨rfl, { Extends.refl w.index with }⟩

/-- What happens before a reference is written down flags nothing. -/
theorem clean_of_moves (h : (w.notes.get n).naming.Plain w.index) (moves : Moves env n w w') :
    (w'.notes.get n).unqualified = false ∧ (w'.notes.get n).abbreviated = false := by
  obtain ⟨unqualified, abbreviated⟩ := Runs.flags moves.runs n
  exact ⟨unqualified.trans h.unqualified, abbreviated.trans h.abbreviated⟩

/-- Before a field is looked up, a variable may be defined in it, but it gets no flags. -/
theorem plain_of_moves (h : (w.notes.get n).naming.Plain w.index) (moves : Moves env n w w')
    (symbol : (w'.notes.get n).symbol = (w.notes.get n).symbol ∨
      ∃ s, (w'.notes.get n).symbol = some s ∧ w'.index.IsAttached s ∧
        w'.index.asFieldBuffer? s = none) : (w'.notes.get n).naming.Plain w'.index := by
  obtain ⟨unqualified, abbreviated⟩ := clean_of_moves h moves
  refine ⟨unqualified, abbreviated, fun s hs => ?_⟩
  rcases symbol with same | ⟨s', hs', inline⟩
  · exact (h.later moves.runs.extends).unreached s (same.symm.trans hs)
  · cases hs'.symm.trans hs
    exact ⟨inline.1.lt_size, inline.2⟩

/-- A lookup that leads to something is written down with its flags. -/
theorem annotateField_flagged {q : Qualifier} {h : TableHint} {l : FieldLookup} {v : Walk}
    {hint : Option SymbolId} (kind : env.tree.kind n = .field) (hv : Sound v)
    (clean : (v.notes.get n).unqualified = false ∧ (v.notes.get n).abbreviated = false)
    (leads : v.Leads (env.tree.text n) h l.symbol l.bufferScope)
    (flagged : l.naming.Flagged v.index env.catalog (env.tree.text n) hint)
    (hok : annotateField n l q v = .ok () w') :
    (w'.notes.get n).naming.Flagged w'.index env.catalog (env.tree.text n) hint := by
  have ext := ((ends_annotateField env n hv kind q leads).ok hok).extends
  have calm : Calm (entering env n) v w' := Calmly.annotateField l q _ _ _ hok
  rw [annotateField_naming clean flagged hok]
  exact flagged.later ext hv.coherent (by rw [calm.schemaTables]; simp)

theorem resolveField_flagged {q : Qualifier} {h : TableHint}
    (kind : env.tree.kind n = .field) (hs : Sound w) (ok : w.index.SchemaTablesOk)
    (own : w.index.NamesNoCopy) (plain : (w.notes.get n).naming.Plain w.index)
    (hok : resolveField env n q h w = .ok () w') :
    (w'.notes.get n).naming.Flagged w'.index env.catalog (env.tree.text n) (w.hinted? h) := by
  cases resolveField_end hs hok with
  | @hinted _ l v _ hint find annotates =>
    obtain ⟨moves, hfound, -⟩ := (ends_fieldOfBuffer? env n hs _).ok find
    obtain ⟨hbound, f, hf, carries⟩ := hfound l rfl
    have hs₁ := moves.runs.sound hs
    have leads : v.Leads (env.tree.text n) h l.symbol none :=
      hs₁.leads_hinted ((Moves.hinted? env n moves h).trans hint) hf carries
    rw [hint]
    exact annotateField_flagged kind hs₁ (clean_of_moves plain moves) (hbound ▸ leads)
      (fieldOfBuffer?_flagged n hs find) annotates
  | lacking hint _ misses =>
    obtain ⟨notes, ext⟩ := (ends_missingField_notes hs hint).ok misses
    rw [notes]
    exact .plain (plain.later ext)
  | found unhinted find annotates =>
    obtain ⟨moves, hfound⟩ := (ends_lookupField? env n hs _ _).ok find
    have leads := (hfound _ rfl).unhinted ((Moves.hinted? env n moves h).trans unhinted)
    rw [unhinted]
    exact annotateField_flagged kind (moves.runs.sound hs) (clean_of_moves plain moves) leads
      (lookupField?_flagged n hs ok own find) annotates
  | @unknown v _ _ find notes =>
    obtain ⟨moves, -⟩ := (ends_lookupField? env n hs _ _).ok find
    obtain ⟨ds, log, -⟩ := logs_lookupField? (l := {}) _ _ _ _ _ find
    have same : (v.notes.get n).heading = (w.notes.get n).heading := log.written (by simp)
    obtain ⟨noted, ext⟩ := ((ends_addUnresolved (E := Never)
      (Q := fun _ u => u.notes = v.notes ∧ v.index.Extends u.index) env n (moves.runs.sound hs)).2
        ⟨rfl, { Extends.refl _ with }⟩).ok notes
    rw [noted]
    exact .plain ((plain_of_moves plain moves (.inl (congrArg (·.1) same))).later ext)

/-- A field that has been entered is flagged as it should. -/
theorem enterField_flagged {plan : Plan env.tree n} (hs : Sound w) (ok : w.index.SchemaTablesOk)
    (own : w.index.NamesNoCopy) (kind : env.tree.kind n = .field)
    (plain : (w.notes.get n).naming.Plain w.index) (hok : enterField env n w = .ok plan w') :
    (w'.notes.get n).naming.Flagged w'.index env.catalog (env.tree.text n)
      (w.hinted? (w.hintAt n)) := by
  obtain ⟨v, primed, last⟩ := enterField_ok hs kind hok
  have moves := primed.moves
  have plain' := plain_of_moves plain moves primed.symbol
  rcases last with ⟨-, rfl⟩ | ⟨-, -, hresolve⟩
  · exact .plain plain'
  · have own' : v.index.NamesNoCopy := own.later hs.coherent moves.runs.extends
      fun name => primed.names _ _ name (by simp)
    have flagged := resolveField_flagged kind (moves.runs.sound hs)
      ((Runs.strides moves.runs hs).schemaTables hs ok) own' plain' hresolve
    rwa [Moves.hinted? env n moves] at flagged

/-- A record that has been entered stands for a buffer and is flagged by the length of its name. -/
theorem enterRecord_flagged {plan : Plan env.tree n} (hs : Sound w) (ok : w.index.SchemaTablesOk)
    (own : w.index.NamesNoCopy) (plain : (w.notes.get n).naming.Plain w.index)
    (hok : enterRecord env n w = .ok plan w') :
    ∃ b, b.val < w'.index.symbols.size ∧ w'.index.Answers env.catalog (env.tree.text n) b ∧
      (w'.notes.get n).naming =
        ⟨some b, false, isAbbreviatedTable w'.index b (env.tree.text n)⟩ := by
  obtain ⟨b, q, v, w₁, htake, hfind, calm, -, bufferScope, store, u, hbind, index, notes⟩ :=
    enterRecord_ok hok
  obtain ⟨-, moves, -, hindex, -⟩ := (ends_takeQualifier env n).ok htake
  have hv := moves.runs.sound hs
  obtain ⟨moves₁, offers, -⟩ := (ends_findBuffer? env n hv _ _).ok hfind
  have offers := offers b rfl
  have hs₁ := moves₁.runs.sound hv
  obtain ⟨moves₂, -⟩ := (ends_bindRecord env n hs₁ offers q).ok hbind
  have own' : v.index.NamesNoCopy := own.later hs.coherent moves.runs.extends fun name => by
    rw [hindex, UnitIndex.findIn?, UnitIndex.findIn?]
  have answers := findBuffer?_answers n hv ((Runs.strides moves.runs hs).schemaTables hs ok) own'
    hfind
  have all : Moves env n w u :=
    Relation.ReflTransGen.trans (Relation.ReflTransGen.trans moves moves₁) moves₂
  obtain ⟨unqualified, abbreviated⟩ := Runs.flags all.runs n
  have ext : w₁.index.Extends w'.index :=
    moves₂.runs.extends.trans (index ▸ extends_counted _ _ _)
  refine ⟨b, ext.lt_symbols offers.sees.lt_size, answers.later ext hs₁.coherent offers.sees.lt_size
    (by rw [calm.schemaTables]; simp), ?_⟩
  rw [notes, Annotations.get_update_self]
  have bare := unqualified.trans plain.unqualified
  have short := abbreviated.trans plain.abbreviated
  simp only [bare, short, Annotation.naming, Bool.false_or]

/-! ### Until the end of the walk -/

section Trail

variable {w₀ : Walk} {es : List (NodeId × Walk)} {rs : List NodeId}

/-- What is written on a node and changed by nothing but entering it: before that, it is what it was
at the start, and afterwards, it stays. -/
theorem Trail.lasts {α : Type} (g : Annotation → α) (trail : Trail env w₀ es rs w) (hs : Sound w₀)
    (nodup : (es.map (·.1)).Nodup) (apart : env.tree.kind m ≠ .identifier)
    (run : ∀ {n w w'}, Runs env n w w' → (env.tree.kind n = .field → w'.notes = w.notes) →
      g (w'.notes.get m) = g (w.notes.get m))
    (bind : ∀ {n w r b}, BindsStrongly env n w r b →
      g ((w.boundStrongly r b).notes.get m) = g (w.notes.get m)) :
    (m ∉ es.map (·.1) → g (w.notes.get m) = g (w₀.notes.get m)) ∧
    ∀ v plan v', (m, v) ∈ es → Walk.enter env m v = .ok plan v' →
      g (v.notes.get m) = g (w₀.notes.get m) ∧ g (w.notes.get m) = g (v'.notes.get m) := by
  induction trail with
  | start => exact ⟨fun _ => rfl, by simp⟩
  | @enter es rs n w w' plan trail entered ih =>
    obtain ⟨nodup, new⟩ := nodup_concat nodup
    obtain ⟨before, settled⟩ := ih nodup
    by_cases hmn : m = n
    · subst hmn
      refine ⟨fun absent => absurd (by simp) absent, fun v plan' v' he henter => ?_⟩
      rcases List.mem_append.1 he with he | he
      · exact absurd (List.mem_map_of_mem he) new
      · cases List.mem_singleton.1 he
        rw [entered] at henter
        cases henter
        exact ⟨before new, rfl⟩
    · rw [((ends_enter env n (trail.sound hs)).ok entered).enters.kept hmn apart]
      refine ⟨fun absent => before fun h => absent (by simp [h]), fun v plan' v' he => ?_⟩
      refine settled v plan' v' ((List.mem_append.1 he).resolve_right fun h => hmn ?_)
      cases List.mem_singleton.1 h
      rfl
  | tell trail tells ih =>
    obtain ⟨qualifiers, hints, rfl⟩ := tells.eq
    exact ih nodup
  | run trail runs field ih =>
    rw [run runs field]
    exact ih nodup
  | use q trail found ih => exact ih nodup
  | bind trail entry block binds ih =>
    rw [bind binds]
    exact ih nodup

/-- What a record or a field says about its name is settled when it is entered: before that, it says
what it said at the start, and afterwards, it goes on saying what was found. -/
theorem Trail.settled (trail : Trail env w₀ es rs w) (hs : Sound w₀)
    (nodup : (es.map (·.1)).Nodup) (hm : env.tree.kind m = .record ∨ env.tree.kind m = .field) :
    (m ∉ es.map (·.1) → (w.notes.get m).naming = (w₀.notes.get m).naming) ∧
    ∀ v plan v', (m, v) ∈ es → Walk.enter env m v = .ok plan v' →
      (v.notes.get m).naming = (w₀.notes.get m).naming ∧
      (w.notes.get m).naming = (v'.notes.get m).naming := by
  have apart : env.tree.kind m ≠ .identifier := by rcases hm with hm | hm <;> simp [hm]
  refine trail.lasts Annotation.naming hs nodup apart (fun {n w w'} runs field => ?_) fun _ => ?_
  · rcases hm with hm | hm
    · have symbol : (w'.notes.get m).symbol = (w.notes.get m).symbol :=
        congrArg (·.1) (runs.meaning (.inr (by simp [hm])))
      unfold Annotation.naming
      rw [symbol, (runs.flags m).1, (runs.flags m).2]
    · by_cases hmn : m = n
      · rw [field (hmn ▸ hm)]
      · rw [runs.apart hmn]
  · rw [boundStrongly, Annotations.get_update]
    split <;> rfl

/-- Nothing is written on a field but when it is entered. -/
theorem Trail.field_lasts (trail : Trail env w₀ es rs w) (hs : Sound w₀)
    (nodup : (es.map (·.1)).Nodup) (field : env.tree.kind m = .field) :
    ∀ v plan v', (m, v) ∈ es → Walk.enter env m v = .ok plan v' →
      v.notes.get m = w₀.notes.get m ∧ w.notes.get m = v'.notes.get m := by
  refine (trail.lasts id hs nodup (by simp [field]) (fun {n w w'} runs same => ?_)
    fun binds => ?_).2
  · by_cases hmn : m = n
    · rw [same (hmn ▸ field)]
    · rw [runs.apart hmn]
  · rw [boundStrongly, Annotations.get_update_of_ne]
    rintro rfl
    rw [binds.record] at field
    cases field

end Trail

section Unit

variable {size : Nat} {v : Walk}

theorem plain_start (n : NodeId) :
    ((start env (.blank size)).notes.get n).naming.Plain (start env (.blank size)).index := by
  have note : ((start env (.blank size)).notes.get n).naming =
      ⟨if ParseTree.root = n then some ⟨0⟩ else none, false, false⟩ := by
    rw [start, Annotations.get_update, Annotations.get_blank]
    split <;> rfl
  rw [note]
  refine ⟨rfl, rfl, fun s hs => ?_⟩
  dsimp only at hs
  split at hs <;> cases hs
  -- the root stands for the program
  exact ⟨Nat.one_pos, rfl⟩

/-- What is known of a record or a field in the states before and after it is entered. -/
structure Entry (env : Env) (n : NodeId) (v v' w : Walk) : Prop where
  sound : Sound v
  tables : v.index.SchemaTablesOk
  own : v.index.NamesNoCopy
  plain : (v.notes.get n).naming.Plain v.index
  written : (w.notes.get n).naming = (v'.notes.get n).naming
  coherent : v'.index.Coherent
  ext : v'.index.Extends w.index
  listed : v'.index.schemaTables ⊆ w.index.schemaTables

theorem visitUnit_entry (hok : visitUnit env (start env (.blank size)) = .ok () w)
    (he : (n, v) ∈ unitEntries env (.blank size))
    (hn : env.tree.kind n = .record ∨ env.tree.kind n = .field) :
    ∃ plan v', enter env n v = .ok plan v' ∧ Entry env n v v' w := by
  obtain ⟨rs, trail, -⟩ := visitUnit_trail hok
  obtain ⟨sound, tables, plan, v', henter, strides, sound', tables', frozen⟩ :=
    entered_tables hok he
  obtain ⟨before, written⟩ :=
    (trail.settled (sound_start env _) (unitEntries_nodup _ _) hn).2 v plan v' he henter
  have tidy := visitUnit_tidy hok he
  refine ⟨plan, v', henter, sound, tables, fun _ _ => tidy.catalogName?_of_findIn?, ?_, written,
    sound'.coherent, strides.extends, (strides.listed sound' tables' frozen).2.subset⟩
  have start : (v.notes.get n).naming.Plain (start env (.blank size)).index := by
    rw [before]
    exact plain_start n
  have apart : env.tree.kind n ≠ .identifier := by rcases hn with hn | hn <;> simp [hn]
  refine ⟨start.unqualified, start.abbreviated, fun s hs => ?_⟩
  have none : (v.notes.get n).symbol = none :=
    (fresh_of_mem_unitEntries he).2.symbol (.refl n) (.inr apart)
  cases none.symm.trans hs

theorem visitUnit_record_flagged (plain : env.catalog.PlainTables)
    (hok : visitUnit env (start env (.blank size)) = .ok () w)
    (he : (n, v) ∈ unitEntries env (.blank size)) (kind : env.tree.kind n = .record) :
    ∃ b, (w.notes.get n).symbol = some b ∧ (w.notes.get n).unqualified = false ∧
      ((w.notes.get n).abbreviated = true ↔ w.index.AbbreviatesTable (env.tree.text n) b) := by
  obtain ⟨plan, v', henter, entry⟩ := visitUnit_entry hok he (.inl kind)
  rw [enter_record kind] at henter
  obtain ⟨b, lt, answers, found⟩ :=
    enterRecord_flagged entry.sound entry.tables entry.own entry.plain henter
  have written := entry.written.trans found
  simp only [Naming.mk.injEq, Annotation.naming] at written
  obtain ⟨symbol, unqualified, abbreviated⟩ := written
  refine ⟨b, symbol, unqualified, ?_⟩
  rw [abbreviated, ← entry.ext.isAbbreviatedTable_eq entry.coherent lt]
  exact (answers.later entry.ext entry.coherent lt entry.listed).isAbbreviatedTable_iff
    (visitUnit_copies hok) plain

/-- The field is looked up without a hint that points to a buffer. -/
def WithoutHint (env : Env) (n : NodeId) : Prop :=
  ∃ v, (n, v) ∈ unitEntries env (.blank env.tree.size) ∧ v.hinted? (v.hintAt n) = none

theorem withoutHint_iff (he : (n, v) ∈ unitEntries env (.blank env.tree.size)) :
    v.hinted? (v.hintAt n) = none ↔ WithoutHint env n := by
  refine ⟨fun h => ⟨v, he, h⟩, fun ⟨v', he', h⟩ => ?_⟩
  cases List.inj_on_of_nodup_map (unitEntries_nodup _ _) he he' rfl
  exact h

theorem visitUnit_field_flagged (plainTables : env.catalog.PlainTables)
    (hok : visitUnit env (start env (.blank env.tree.size)) = .ok () w)
    (kind : env.tree.kind n = .field) :
    ((w.notes.get n).unqualified = true ↔ ∃ s, (w.notes.get n).symbol = some s ∧
      (w.index.asFieldBuffer? s).isSome ∧ '.' ∉ (env.tree.text n).toList) ∧
    ((w.notes.get n).abbreviated = true ↔ ∃ s, (w.notes.get n).symbol = some s ∧
      (w.index.AbbreviatesField (env.tree.text n) s ∨
        WithoutHint env n ∧ w.index.AbbreviatesQualifier (env.tree.text n) s)) := by
  have copies : w.index.Copies env.catalog := visitUnit_copies hok
  by_cases hn : n ∈ (unitEntries env (.blank env.tree.size)).map (·.1)
  · obtain ⟨⟨n, v⟩, he, rfl⟩ := List.mem_map.1 hn
    obtain ⟨plan, v', henter, entry⟩ := visitUnit_entry hok he (.inr kind)
    rw [enter_field kind] at henter
    have flagged := enterField_flagged entry.sound entry.tables entry.own kind entry.plain henter
    rw [← entry.written] at flagged
    rw [← withoutHint_iff he]
    exact (flagged.later entry.ext entry.coherent entry.listed).exact copies plainTables
  · obtain ⟨rs, trail, -⟩ := visitUnit_trail hok
    have same := (trail.settled (sound_start env _) (unitEntries_nodup _ _) (.inr kind)).1 hn
    have plain : (w.notes.get n).naming.Plain w.index := by
      rw [same]
      exact (plain_start n).later (strides_visitUnit hok).extends
    -- it is as if there had been a hint: nothing has been looked up
    have never : WithoutHint env n ↔ some (⟨0⟩ : SymbolId) = none :=
      iff_of_false (fun ⟨v, he, _⟩ => hn (List.mem_map_of_mem he)) nofun
    rw [never]
    exact (Naming.Flagged.plain plain).exact copies plainTables

end Unit

end Walk

namespace CompilationUnit

open UnitIndex Walk

variable (catalog : Catalog) (types : TypeRegistry) (options : Options)

/-- If no table of the catalog has a dot in its name, the flags are exact. A record is abbreviated
if it stands for the default buffer of a catalog table and what follows its last dot is not a
spelling of the table's name; no record is unqualified. A field is unqualified if it stands for a
field of a table and has no dot. It is abbreviated if it stands for a field of a table and what
follows its last dot is not a spelling of the field's name, or if it has been looked up without a
hint and what stands before that dot abbreviates the name of a catalog table. -/
theorem analyze_ofTree_flags {tree : ParseTree} {index : UnitIndex} {u : CompilationUnit}
    (plainTables : catalog.PlainTables)
    (hok : (ofTree tree).analyze catalog types options = (.ok index, u)) :
    let env : Env := { tree, catalog, types, options }
    (∀ n v, (n, v) ∈ unitEntries env (.blank tree.size) → tree.kind n = .record →
      ∃ b, (u.notes.get n).symbol = some b ∧ (u.notes.get n).unqualified = false ∧
        ((u.notes.get n).abbreviated = true ↔ index.AbbreviatesTable (tree.text n) b)) ∧
    ∀ n, tree.kind n = .field →
      ((u.notes.get n).unqualified = true ↔ ∃ s, (u.notes.get n).symbol = some s ∧
        (index.asFieldBuffer? s).isSome ∧ '.' ∉ (tree.text n).toList) ∧
      ((u.notes.get n).abbreviated = true ↔ ∃ s, (u.notes.get n).symbol = some s ∧
        (index.AbbreviatesField (tree.text n) s ∨
          WithoutHint env n ∧ index.AbbreviatesQualifier (tree.text n) s)) := by
  intro env
  obtain ⟨w, hw, rfl, rfl⟩ := analyze_ok catalog types options hok
  exact ⟨fun n v he kind => @visitUnit_record_flagged env n w _ v plainTables hw he kind,
    fun n kind => @visitUnit_field_flagged env n w plainTables hw kind⟩

/-- A record and two fields. The catalog table is abbreviated twice, and the last field stands
without it. -/
def flaggedSample : ParseTree := .ofRows [
  (0, .recordFunction, ""), (1, .record, "Sales"), (0, .expression, ""), (3, .field, "sal.RepName"),
  (0, .expression, ""), (5, .field, "RepName")]

/-- In the sample, the record and the first field are abbreviated, and the last field is unqualified
and spelled out. -/
theorem analyze_ofTree_flags_sample :
    let catalog : Catalog := ⟨[⟨"sports", [Catalog.Sample.salesRep]⟩]⟩
    let env : Env := { tree := flaggedSample, catalog }
    catalog.PlainTables ∧
    ∃ index u, (ofTree flaggedSample).analyze catalog {} {} = (.ok index, u) ∧
      (∃ b, (u.notes.get ⟨2⟩).symbol = some b ∧ index.AbbreviatesTable "Sales" b) ∧
      (∃ s, (u.notes.get ⟨4⟩).symbol = some s ∧ (index.AbbreviatesField "sal.RepName" s ∨
        WithoutHint env ⟨4⟩ ∧ index.AbbreviatesQualifier "sal.RepName" s)) ∧
      ∃ s, (u.notes.get ⟨6⟩).symbol = some s ∧ (index.asFieldBuffer? s).isSome ∧
        ¬ index.AbbreviatesField "RepName" s := by
  intro catalog env
  have plainTables : catalog.PlainTables := by decide
  obtain ⟨index, hok⟩ :=
    exists_analyze_ok (u := ofTree flaggedSample) catalog {} {} (by decide +kernel)
  obtain ⟨records, fields⟩ := analyze_ofTree_flags catalog {} {} plainTables hok
  obtain ⟨record, first, bare, spelled⟩ :
      let notes := ((ofTree flaggedSample).analyze catalog {} {}).2.notes
      (notes.get ⟨2⟩).abbreviated = true ∧ (notes.get ⟨4⟩).abbreviated = true ∧
        (notes.get ⟨6⟩).unqualified = true ∧ (notes.get ⟨6⟩).abbreviated = false := by
    decide +kernel
  have entered : ⟨2⟩ ∈ (unitEntries env (.blank flaggedSample.size)).map (·.1) := by decide +kernel
  obtain ⟨⟨n, v⟩, he, rfl⟩ := List.mem_map.1 entered
  obtain ⟨b, hb, -, short⟩ := records ⟨2⟩ v he (by decide)
  obtain ⟨s, hs, isField, -⟩ := (fields ⟨6⟩ (by decide)).1.1 bare
  refine ⟨plainTables, index, _, hok, ⟨b, hb, short.1 record⟩, (fields ⟨4⟩ (by decide)).2.1 first,
    s, hs, isField, fun other => ?_⟩
  rw [(fields ⟨6⟩ (by decide)).2.2 ⟨s, hs, .inl other⟩] at spelled
  cases spelled

end CompilationUnit

end AblResolve
