import AblResolve.Proofs.Reached
import AblResolve.Proofs.VainLookups
/-!
Buffers named beside the keyword BUFFER. They are looked up among the buffers in sight and the
tables of the unit, as the names of records are. But a record goes on to the catalog, and the
default buffer of a catalog table is found by a record alone, even if it has long been there.
-/
namespace AblResolve

namespace Walk

open UnitIndex ParseTree

variable {env : Env} {n : NodeId} {notes : Annotations} {w w' : Walk} {name : String}
  {b : SymbolId}

/-! ### Buffers that a lookup does not make -/

/-- A default buffer that is there already is the one that the root scope offers. -/
theorem defaultBuffer_old {t : TableId} (hok : defaultBuffer t w = .ok b w')
    (old : b.val < w.index.symbols.size) : w' = w ∧ w.index.unnamedBuffer? t = some b := by
  unfold defaultBuffer at hok
  obtain ⟨root, w₁, hroot, hrest⟩ := bind_ok.1 hok
  obtain ⟨found, rfl⟩ := scopeAt_ok.1 hroot
  cases hb : root.unnamedBuffer? t with
  | some buffer =>
    rw [hb] at hrest
    cases hrest
    exact ⟨rfl, by rw [unnamedBuffer?, found]; exact hb⟩
  | none =>
    rw [hb] at hrest
    obtain ⟨table, w₂, htable, hcreate⟩ := bind_ok.1 hrest
    obtain ⟨-, rfl⟩ := tableAt_ok.1 htable
    obtain ⟨b', w₃, hnew, hscope⟩ := bind_ok.1 hcreate
    obtain ⟨rfl, rfl⟩ := createSymbol_ok hnew
    obtain ⟨_, w₄, hupdate, hpure⟩ := bind_ok.1 hscope
    cases hpure
    exact absurd old (Nat.lt_irrefl _)

/-- A catalog table whose default buffer is there already has been loaded. -/
theorem schemaBuffer?_old (ok : w.index.SchemaTablesOk) (hs : Sound w)
    (hok : schemaBuffer? env name w = .ok (some b) w') (old : b.val < w.index.symbols.size) :
    w' = w ∧ ∃ e t, env.catalog.table? name = some e ∧ w.index.schemaTable? e = some t ∧
      w.index.unnamedBuffer? t = some b := by
  cases schemaBuffer?_end hok with
  | @offered e t _ _ _ listed loads offers =>
    unfold schemaTable at loads
    obtain ⟨x, w₁, hx, hload⟩ := bind_ok.1 loads
    cases hx
    cases htable : w.index.schemaTable? e with
    | some t' =>
      rw [htable] at hload
      cases hload
      obtain ⟨same, offered⟩ := defaultBuffer_old offers old
      exact ⟨same, e, t, listed, htable, offered⟩
    | none =>
      -- a table that is only now loaded has no default buffer yet
      rw [htable] at hload
      obtain ⟨_, w₂, hmodify, hpure⟩ := bind_ok.1 hload
      cases hmodify
      cases hpure
      obtain ⟨-, offered⟩ := defaultBuffer_old offers old
      have isDefault := ok.isDefault w.index.tables.next b offered
      exact absurd (hs.coherent.table_of_defaultTable? isDefault).2 (Nat.lt_irrefl _)

/-- What a name stands for that is neither looked up in the catalog nor loads anything. -/
def claimant? (w : Walk) (name : String) : Option SymbolId :=
  (w.index.resolve? w.scope .buffer name).or (w.index.findIn? rootScope .table name)

theorem claimant?_eq_none : w.claimant? name = none ↔ w.Unclaimed name := Option.or_eq_none_iff

/-- A record that leads to a buffer which is there already changes nothing. Its name is claimed, or
it is that of a catalog table. -/
theorem findBuffer?_old (hs : Sound w) (ok : w.index.SchemaTablesOk)
    (hok : findBuffer? env name .buffer w = .ok (some b) w')
    (old : b.val < w.index.symbols.size) : w' = w ∧ (w.claimant? name = some b ∨
      w.claimant? name = none ∧ ∃ e t, env.catalog.table? name = some e ∧
        w.index.schemaTable? e = some t ∧ w.index.unnamedBuffer? t = some b) := by
  unfold claimant?
  cases findBuffer?_end hs hok with
  | named found => exact ⟨rfl, .inl (by rw [found, Option.some_or])⟩
  | table unnamed found => exact ⟨rfl, .inl (by rw [unnamed, Option.none_or, found])⟩
  | schema unnamed noTable find =>
    obtain ⟨same, loaded⟩ := schemaBuffer?_old ok hs find old
    exact ⟨same, .inr ⟨by rw [unnamed, Option.none_or, noTable], loaded⟩⟩

/-! ### The widget name -/

/-- The state after a buffer has been named beside BUFFER. -/
def namedWidget (w : Walk) (env : Env) (n : NodeId) : Walk :=
  match w.claimant? (env.tree.text n) with
  | some b => { w with
      index := w.index.counted b .symbol
      notes := w.notes.update n fun a => { a with symbol := some b } }
  | none => { w with index := { w.index with
      diagnostics := w.index.diagnostics.add
        (.unresolvedBuffer (env.tree.text n) (env.tree.location n)) } }

theorem ends_enterWidgetName_buffer (hs : Sound w)
    (keyword : env.tree.hasKeyword n .buffer = true) :
    Ends (enterWidgetName env n) w Never fun plan w' =>
      plan = .done ∧ w' = w.namedWidget env n := by
  have there : ∀ {b}, w.claimant? (env.tree.text n) = some b → b.val < w.index.symbols.size := by
    intro b hb
    rcases Option.or_eq_some_iff.1 hb with h | ⟨-, h⟩
    · exact (hs.coherent.resolve? h).2.1.lt_size
    · exact (hs.coherent.attached_of_findIn? h).lt_size
  unfold enterWidgetName widgetSymbol?
  dsimp only
  rw [ends_bind, ends_bind, ends_theIndex, ends_bind, ends_currentScope hs, if_pos keyword,
    namedWidget]
  cases hb : w.claimant? (env.tree.text n) with
  | some b =>
    have found := hb
    rw [claimant?] at found
    rw [found]
    dsimp only
    rw [ends_pure, ends_bind, ends_noteReference (there hb), ends_bind, ends_annotate, ends_pure]
    exact ⟨rfl, rfl⟩
  | none =>
    rw [claimant?] at hb
    rw [hb]
    exact ⟨rfl, rfl⟩

/-- A claimed name is annotated and its use is counted; another is reported. -/
theorem visit_bufferWidget (hs : Sound w) (kind : env.tree.kind n = .widgetName)
    (keyword : env.tree.hasKeyword n .buffer = true) :
    visit env n w = .ok () (w.namedWidget env n) := by
  have henter : enter env n = enterWidgetName env n := by simp only [enter, kind]
  obtain ⟨plan, w', hok, rfl, rfl⟩ := (ends_enterWidgetName_buffer hs keyword).exists_ok
  rw [visit, henter]
  exact bind_ok.2 ⟨_, _, hok, rfl⟩

/-- If a record of the same name would lead to a buffer that is there already, the widget stands for
that buffer, too, provided that the name is claimed. If the record would find a catalog table that
has been loaded, the widget stands for nothing and is reported. -/
theorem visit_bufferWidget_of_record (reached : Reached env notes w)
    (kind : env.tree.kind n = .widgetName) (keyword : env.tree.hasKeyword n .buffer = true)
    (found : findBuffer? env (env.tree.text n) (.ofQualifier .ref) w = .ok (some b) w')
    (old : b.val < w.index.symbols.size) :
    w' = w ∧ ∃ v, visit env n w = .ok () v ∧
      (¬ w.Unclaimed (env.tree.text n) →
        (v.notes.get n).symbol = some b ∧ v.index.diagnostics = w.index.diagnostics) ∧
      (w.Unclaimed (env.tree.text n) →
        (∃ e t, env.catalog.table? (env.tree.text n) = some e ∧
          w.index.schemaTable? e = some t ∧ w.index.unnamedBuffer? t = some b) ∧
        v.notes = w.notes ∧ v.index.diagnostics =
          w.index.diagnostics.add (.unresolvedBuffer (env.tree.text n) (env.tree.location n))) := by
  have hs := reached.sound
  have ok := Strides.schemaTables reached (sound_start env notes) (schemaTables_start env notes)
  obtain ⟨same, claimed | ⟨free, loaded⟩⟩ := findBuffer?_old hs ok found old
  · refine ⟨same, _, visit_bufferWidget hs kind keyword, fun _ => ?_, fun unclaimed => ?_⟩
    · rw [namedWidget, claimed]
      exact ⟨congrArg Annotation.symbol (Annotations.get_update_self _ _ _), rfl⟩
    · rw [claimant?_eq_none.2 unclaimed] at claimed
      cases claimed
  · refine ⟨same, _, visit_bufferWidget hs kind keyword, fun claimed => ?_, fun _ => ?_⟩
    · exact absurd (claimant?_eq_none.1 free) claimed
    · rw [namedWidget, free]
      exact ⟨loaded, rfl, rfl⟩

/-- A temp-table and a catalog table, the latter abbreviated and found by a record, and then both of
them named beside BUFFER. -/
def bufferWidgetSample : Env where
  tree := .ofRows [
    (0, .defineTempTable, ""), (1, .identifier, "tt"), (0, .findStatement, ""),
    (3, .recordPhrase, ""), (4, .record, "cust"), (0, .statement, ""),
    (6, .widgetName, "tt"), (7, .keyword .buffer, "BUFFER"), (0, .statement, ""),
    (9, .widgetName, "cust"), (10, .keyword .buffer, "BUFFER")]
  catalog := Catalog.Sample.sports

/-- A node of the sample that is entered where a record of its text would lead to a buffer that is
there already. -/
theorem bufferWidgetSample_entry (n : NodeId) (b : SymbolId) (free : Bool)
    (h : (unitEntries bufferWidgetSample (.blank 12)).any (fun e => e.1 = n &&
        match findBuffer? bufferWidgetSample (bufferWidgetSample.tree.text n)
            (.ofQualifier .ref) e.2 with
        | .ok found _ => found = some b && b.val < e.2.index.symbols.size &&
            decide (e.2.Unclaimed (bufferWidgetSample.tree.text n)) = free
        | .error _ _ => false) = true) :
    ∃ w w', Reached bufferWidgetSample (.blank 12) w ∧
      findBuffer? bufferWidgetSample (bufferWidgetSample.tree.text n) (.ofQualifier .ref) w =
        .ok (some b) w' ∧ b.val < w.index.symbols.size ∧
      decide (w.Unclaimed (bufferWidgetSample.tree.text n)) = free := by
  obtain ⟨⟨m, w⟩, he, hw⟩ := List.any_eq_true.1 h
  obtain ⟨-, hw⟩ := (Bool.and_eq_true _ _).mp hw
  cases hfound : findBuffer? bufferWidgetSample (bufferWidgetSample.tree.text n)
      (.ofQualifier .ref) w with
  | error f w' => simp [hfound] at hw
  | ok found w' =>
    simp only [hfound, Bool.and_eq_true, decide_eq_true_eq] at hw
    obtain ⟨⟨rfl, old⟩, unclaimed⟩ := hw
    exact ⟨w, w', reached_of_mem_unitEntries he, hfound, old, unclaimed⟩

/-- In the sample, the buffer of the temp-table is found, but that of the catalog table is not. -/
theorem visit_bufferWidget_of_record_sample :
    (∃ w v, Reached bufferWidgetSample (.blank 12) w ∧
      findBuffer? bufferWidgetSample "tt" (.ofQualifier .ref) w = .ok (some ⟨1⟩) w ∧
      visit bufferWidgetSample ⟨7⟩ w = .ok () v ∧ (v.notes.get ⟨7⟩).symbol = some ⟨1⟩) ∧
    ∃ w v, Reached bufferWidgetSample (.blank 12) w ∧
      findBuffer? bufferWidgetSample "cust" (.ofQualifier .ref) w = .ok (some ⟨2⟩) w ∧
      visit bufferWidgetSample ⟨10⟩ w = .ok () v ∧ v.notes = w.notes ∧
      v.index.diagnostics = w.index.diagnostics.add
        (.unresolvedBuffer "cust" (bufferWidgetSample.tree.location ⟨10⟩)) := by
  have texts : bufferWidgetSample.tree.text ⟨7⟩ = "tt" ∧
      bufferWidgetSample.tree.text ⟨10⟩ = "cust" := by decide
  constructor
  · obtain ⟨w, w', reached, found, old, claimed⟩ :=
      bufferWidgetSample_entry ⟨7⟩ ⟨1⟩ false (by decide +kernel)
    obtain ⟨rfl, v, hvisit, named, -⟩ :=
      visit_bufferWidget_of_record reached (by decide) (by decide) found old
    rw [texts.1] at found
    exact ⟨w', v, reached, found, hvisit, (named (of_decide_eq_false claimed)).1⟩
  · obtain ⟨w, w', reached, found, old, free⟩ :=
      bufferWidgetSample_entry ⟨10⟩ ⟨2⟩ true (by decide +kernel)
    obtain ⟨rfl, v, hvisit, -, missed⟩ :=
      visit_bufferWidget_of_record reached (by decide) (by decide) found old
    obtain ⟨-, notes, diagnostics⟩ := missed (of_decide_eq_true free)
    rw [texts.2] at found diagnostics
    exact ⟨w', v, reached, found, hvisit, notes, diagnostics⟩

end Walk

end AblResolve
