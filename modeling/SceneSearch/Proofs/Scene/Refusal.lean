import SceneSearch.Command.Execution
import SceneSearch.Proofs.Scene.Export

/-!
# Failures that are not reported as such

What is wrong with an export is reported as the fault of its format. Five things are not: a file
that is no text, an integer with too many digits in a file, an integer that no double can hold where
a coordinate is asked for, children that are a number or a truth value, and an integer with too many
digits that was to be written, in a text or in the message about another fault.
`Document.failures_escape_iff` says exactly when one of these is met first, and so when a file is
neither loaded nor reported.

An export fails by its first bad entry in the order of its levels. All its entries go through the
same check, pages as well, and `Import.EntryEscapes` follows it: the texts of an entry, its
coordinates, its paints, its id and what it lists.
-/

namespace SceneSearch

/-! ## Faults -/

/-- The fault is let through instead of being reported. -/
def LoadFault.Escapes (fault : LoadFault) : Prop := Command.isFormatFault fault = false

/-- The fault of an export is let through instead of being reported. -/
def ImportFault.Escapes (fault : ImportFault) : Prop := LoadFault.Escapes (.refused fault)

theorem ImportFault.escapes_iff {fault : ImportFault} : fault.Escapes ↔
    fault = .numberTooLarge ∨ (∃ type, fault = .notIterable type) ∨ fault = .unwritable := by
  cases fault <;> simp [Escapes, LoadFault.Escapes, Command.isFormatFault]

/-- A truth value or a number. -/
def Json.IsPlain : Json → Prop
  | bool _ | int _ | float _ => True
  | _ => False

namespace Import

variable {seen : List String} {v : Json} {fault : ImportFault}

/-! ## Entries that let a fault through -/

/-- The keys of the texts, in the order in which they are read. -/
def textKeys : List String := ["id", "name"]

/-- The keys of the coordinates, in the order in which they are read. -/
def coordinateKeys : List String := ["x", "y", "width", "height"]

/-- What is read before the coordinates is good. -/
structure HasTexts (v : Json) : Prop where
  /-- The entry has an id. -/
  id : (v.get? "id").isSome
  /-- Its texts can be written. -/
  texts : ∀ key ∈ textKeys, ∀ w ∈ v.get? key, w.IsWritable

/-- The paints of an entry cannot be shown, or the type of one of them cannot be written. -/
def HasUnwritablePaints (v : Json) : Prop :=
  ∃ w ∈ v.get? "fills", w.isTruthy ∧
    (¬w.IsObjectsOrNothing ∧ ¬w.IsWritable ∨
      w.IsObjectsOrNothing ∧ ∃ paint ∈ v.paints, ∃ type ∈ paint.get? "type", ¬type.IsWritable)

/-- The children of an entry are a number or a truth value that counts as something. -/
def Uniterable (v : Json) : Prop :=
  ∃ w ∈ v.get? "children", w.isTruthy = true ∧ w.IsPlain

/-- What lets a fault through where the layer of an entry is read. -/
inductive LayerEscapes (v : Json) : Prop
  /-- It is no entry, and cannot be shown. -/
  | shown (id : v.get? "id" = none) (unwritable : ¬v.IsWritable)
  /-- Its id or its name cannot be written. -/
  | text {key : String} {w : Json} (id : (v.get? "id").isSome) (mem : key ∈ textKeys)
    (found : v.get? key = some w) (unwritable : ¬w.IsWritable)
  /-- Its first bad coordinate is an integer, which no double can hold, or cannot be shown. -/
  | coordinate {before after : List String} {key : String} {w : Json} (texts : HasTexts v)
    (keys : coordinateKeys = before ++ key :: after)
    (good : ∀ k ∈ before, ∀ w ∈ v.get? k, w.IsMeasure) (found : v.get? key = some w)
    (bad : ¬w.IsMeasure) (escapes : (∃ n, w = .int n) ∨ ¬w.IsWritable)
  /-- Its coordinates are good, but not what it says about its paints. -/
  | paints (texts : HasTexts v) (good : ∀ k ∈ coordinateKeys, ∀ w ∈ v.get? k, w.IsMeasure)
    (escapes : HasUnwritablePaints v)

/-- What makes the check of an entry let a fault through, behind entries with some ids. -/
def EntryEscapes (seen : List String) (v : Json) : Prop :=
  LayerEscapes v ∨ HasLayer v ∧ idText v ∉ seen ∧ Uniterable v

theorem textAt_eq_error_iff {key absent : String} :
    textAt v key absent = .error fault ↔
      fault = .unwritable ∧ ∃ w, v.get? key = some w ∧ ¬w.IsWritable := by
  rw [textAt]
  cases v.get? key with
  | none => simp
  | some w =>
    simp only [text, Option.some.injEq, exists_eq_left', ← Json.asText?_isSome_iff]
    cases w.asText? <;> simp [eq_comm]

theorem faultAt_escapes_iff {found : Json} {report : String → String → ImportFault}
    (hid : ∀ w ∈ v.get? "id", w.IsWritable) (hreport : ∀ id shown, ¬(report id shown).Escapes) :
    (faultAt v found report).Escapes ↔ ¬found.IsWritable := by
  have hshown : (v.shownKey? "id").isSome := by
    rw [Json.shownKey?, Json.shown?_isSome_iff]
    cases hvalue : v.get? "id" with
    | none => nofun
    | some w => exact hid w hvalue
  obtain ⟨id, hid⟩ := Option.isSome_iff_exists.mp hshown
  rw [faultAt, hid, Option.bind_some, ← Json.shown?_isSome_iff]
  cases found.shown? with
  | none => simp [ImportFault.escapes_iff]
  | some shown => simpa using hreport id shown

theorem coordinate_escapes_iff {key : String} (hid : ∀ w ∈ v.get? "id", w.IsWritable) :
    (∃ fault, coordinate v key = .error fault ∧ fault.Escapes) ↔
      ∃ w, v.get? key = some w ∧ ¬w.IsMeasure ∧ ((∃ n, w = .int n) ∨ ¬w.IsWritable) := by
  have hreport (id shown : String) : ¬(ImportFault.notANumber id key shown).Escapes := by
    simp [ImportFault.escapes_iff]
  rw [coordinate]
  cases v.get? key with
  | none => simp
  | some w =>
    cases w with
    | int n =>
      have hfits := floatOfInt?_isSome_iff n
      cases hfloat : floatOfInt? n with
      | none => simp_all [ImportFault.escapes_iff, Json.IsMeasure]
      | some x => simp_all [Json.IsMeasure]
    | null | float _ => simp [Json.IsMeasure]
    | _ => simp [Json.IsMeasure, faultAt_escapes_iff hid hreport]

section Texts

variable {α : Type} {value : α → Json} {key : α → String} {absent : String} {items : List α}

theorem mapM_textAt_isOk_iff :
    (∃ texts, (items.mapM fun a ↦ textAt (value a) (key a) absent) = .ok texts) ↔
      ∀ a ∈ items, ∀ w ∈ (value a).get? (key a), w.IsWritable := by
  simp only [mapM_eq_ok_iff, exists_forall₂_iff, textAt_eq_ok_iff, ← Option.isSome_iff_exists,
    Json.textAt?_isSome_iff]

theorem mapM_textAt_escapes_iff :
    (∃ fault, (items.mapM fun a ↦ textAt (value a) (key a) absent) = .error fault ∧
        fault.Escapes) ↔
      ∃ a ∈ items, ∃ w ∈ (value a).get? (key a), ¬w.IsWritable := by
  constructor
  · rintro ⟨fault, h, -⟩
    obtain ⟨before, a, after, rfl, -, ha⟩ := mapM_eq_error_iff.mp h
    obtain ⟨-, w, hw, hwritable⟩ := textAt_eq_error_iff.mp ha
    exact ⟨a, List.mem_append_right _ List.mem_cons_self, w, hw, hwritable⟩
  · rintro ⟨a, ha, w, hw, hwritable⟩
    cases htexts : items.mapM fun a ↦ textAt (value a) (key a) absent with
    | error fault =>
      obtain ⟨-, b, -, -, -, hb⟩ := mapM_eq_error_iff.mp htexts
      exact ⟨fault, rfl, ImportFault.escapes_iff.mpr (.inr (.inr (textAt_eq_error_iff.mp hb).1))⟩
    | ok texts => exact absurd (mapM_textAt_isOk_iff.mp ⟨texts, htexts⟩ a ha w hw) hwritable

end Texts

theorem fills_escapes_iff (hid : ∀ w ∈ v.get? "id", w.IsWritable) :
    (∃ fault, fills v = .error fault ∧ fault.Escapes) ↔ HasUnwritablePaints v := by
  have hreport (id shown : String) : ¬(ImportFault.badFills id shown).Escapes := by
    simp [ImportFault.escapes_iff]
  rw [fills, truthy?, HasUnwritablePaints]
  cases hfills : v.get? "fills" with
  | none => simp
  | some w =>
    rw [Option.filter_some]
    by_cases hw : w.isTruthy
    · rw [if_pos hw]
      simp only [Option.mem_def, Option.some.injEq, exists_eq_left', hw, true_and,
        isObjectsOrNothing_iff hw]
      cases hitems : objects? w with
      | none => simp [faultAt_escapes_iff hid hreport]
      | some items =>
        obtain ⟨rfl, -⟩ := objects?_eq_some_iff.mp hitems
        have hpaints : v.paints = items := by rw [Json.paints, hfills]
        simpa [hpaints] using mapM_textAt_escapes_iff
    · simp [hw]

theorem layer_eq_error_iff (hid : (v.get? "id").isSome) :
    layer none v = .error fault ↔
      (textKeys.mapM fun key ↦ textAt v key "") = .error fault ∨
        ∃ texts, (textKeys.mapM fun key ↦ textAt v key "") = .ok texts ∧
          (coordinateKeys.mapM (coordinate v) = .error fault ∨
            ∃ xs, coordinateKeys.mapM (coordinate v) = .ok xs ∧ fills v = .error fault) := by
  obtain ⟨id, hid⟩ := Option.isSome_iff_exists.mp hid
  have htext : textAt v "id" "" = text id := by rw [textAt, hid]
  simp only [layer, hid, textKeys, coordinateKeys, List.mapM_cons, List.mapM_nil, htext]
  rcases text id with cause | id
  · simp [bind, Except.bind]
  rcases textAt v "name" "" with cause | name
  · simp [bind, Except.bind]
  rcases coordinate v "x" with cause | x
  · simp [bind, Except.bind, pure, Except.pure]
  rcases coordinate v "y" with cause | y
  · simp [bind, Except.bind, pure, Except.pure]
  rcases coordinate v "width" with cause | width
  · simp [bind, Except.bind, pure, Except.pure]
  rcases coordinate v "height" with cause | height
  · simp [bind, Except.bind, pure, Except.pure]
  rcases fills v with cause | types
  · simp [bind, Except.bind, pure, Except.pure]
  · simp [bind, Except.bind, pure, Except.pure]

private theorem layer_escapes_iff_of_get?_id (hid : v.get? "id" = none) :
    (∃ fault, layer none v = .error fault ∧ fault.Escapes) ↔ ¬v.IsWritable := by
  rw [layer, hid, ← Json.shown?_isSome_iff]
  cases v.shown? <;> simp [ImportFault.escapes_iff]

theorem layer_escapes_iff :
    (∃ fault, layer none v = .error fault ∧ fault.Escapes) ↔ LayerEscapes v := by
  cases hid : v.get? "id" with
  | none =>
    rw [layer_escapes_iff_of_get?_id hid]
    refine ⟨.shown hid, fun h ↦ ?_⟩
    cases h with
    | shown _ h => exact h
    | text h => rw [hid] at h; cases h
    | coordinate h | paints h => have hsome := h.id; rw [hid] at hsome; cases hsome
  | some id =>
    have hsome : (v.get? "id").isSome := by rw [hid]; rfl
    constructor
    · rintro ⟨fault, hlayer, hescapes⟩
      rcases (layer_eq_error_iff hsome).mp hlayer with h | ⟨texts, htexts, h⟩
      · obtain ⟨key, hkey, w, hw, hwritable⟩ := mapM_textAt_escapes_iff.mp ⟨fault, h, hescapes⟩
        exact .text hsome hkey hw hwritable
      · have hwritten : HasTexts v := ⟨hsome, mapM_textAt_isOk_iff.mp ⟨texts, htexts⟩⟩
        have hid := hwritten.texts "id" List.mem_cons_self
        rcases h with h | ⟨xs, hxs, h⟩
        · obtain ⟨before, key, after, hkeys, hbefore, hkey⟩ := mapM_eq_error_iff.mp h
          obtain ⟨w, hw, hbad, h⟩ := (coordinate_escapes_iff hid).mp ⟨fault, hkey, hescapes⟩
          exact .coordinate hwritten hkeys
            (fun k hk ↦ (coordinate_isOk_iff v k).mp (hbefore k hk)) hw hbad h
        · have hgood := exists_forall₂_iff.mp ⟨xs, mapM_eq_ok_iff.mp hxs⟩
          exact .paints hwritten (fun k hk ↦ (coordinate_isOk_iff v k).mp (hgood k hk))
            ((fills_escapes_iff hid).mp ⟨fault, h, hescapes⟩)
    · intro h
      simp only [layer_eq_error_iff hsome]
      cases h with
      | shown hnone => rw [hid] at hnone; cases hnone
      | text _ hkey hw hwritable =>
        obtain ⟨fault, h, hescapes⟩ : ∃ fault,
            (textKeys.mapM fun key ↦ textAt v key "") = .error fault ∧ fault.Escapes :=
          mapM_textAt_escapes_iff.mpr ⟨_, hkey, _, hw, hwritable⟩
        exact ⟨fault, Or.inl h, hescapes⟩
      | coordinate hwritten hkeys hbefore hw hbad h =>
        obtain ⟨texts, htexts⟩ := mapM_textAt_isOk_iff.mpr hwritten.texts
        have hid := hwritten.texts "id" List.mem_cons_self
        obtain ⟨fault, hkey, hescapes⟩ := (coordinate_escapes_iff hid).mpr ⟨_, hw, hbad, h⟩
        refine ⟨fault, Or.inr ⟨texts, htexts, Or.inl (mapM_eq_error_iff.mpr ?_)⟩, hescapes⟩
        exact ⟨_, _, _, hkeys, fun k hk ↦ (coordinate_isOk_iff v k).mpr (hbefore k hk), hkey⟩
      | paints hwritten hgood h =>
        obtain ⟨texts, htexts⟩ := mapM_textAt_isOk_iff.mpr hwritten.texts
        have hid := hwritten.texts "id" List.mem_cons_self
        obtain ⟨fault, hfills, hescapes⟩ := (fills_escapes_iff hid).mpr h
        obtain ⟨xs, hxs⟩ := exists_forall₂_iff.mpr fun k hk ↦
          (coordinate_isOk_iff v k).mpr (hgood k hk)
        exact ⟨fault, Or.inr ⟨texts, htexts, Or.inr ⟨xs, mapM_eq_ok_iff.mpr hxs, hfills⟩⟩, hescapes⟩

/-- What is listed cannot be gone through exactly if it is a number or a truth value. -/
theorem children_eq_error_iff :
    (∃ fault, children v = .error fault) ↔ Uniterable v := by
  rw [children, truthy?, Uniterable]
  cases v.get? "children" with
  | none => simp
  | some w =>
    rw [Option.filter_some]
    by_cases hw : w.isTruthy = true
    · rw [if_pos hw]
      cases w with
      | null => cases hw
      | _ => simp [hw, iterate, Json.IsPlain]
    · simp [hw]

private theorem escapes_of_children (h : children v = .error fault) : fault.Escapes := by
  rw [children] at h
  split at h
  · cases h
  · rename_i w _
    cases w <;> cases h <;> exact ImportFault.escapes_iff.mpr (.inr (.inl ⟨_, rfl⟩))

theorem checkEntry_eq_error_iff :
    checkEntry seen v = .error fault ↔ layer none v = .error fault ∨
      HasLayer v ∧ if idText v ∈ seen then fault = .duplicateId (idText v)
        else children v = .error fault := by
  rw [checkEntry]
  cases hlayer : layer none v with
  | error cause => simp [HasLayer, hlayer, bind, Except.bind]
  | ok l =>
    have hid := id_of_layer hlayer
    by_cases hseen : idText v ∈ seen
    · simp [HasLayer, hlayer, bind, Except.bind, hid, hseen, throw, throwThe, MonadExceptOf.throw,
        eq_comm]
    · cases children v <;>
        simp [HasLayer, hlayer, bind, Except.bind, hid, hseen, pure, Except.pure]

theorem checkEntry_escapes_iff :
    (∃ fault, checkEntry seen v = .error fault ∧ fault.Escapes) ↔ EntryEscapes seen v := by
  rw [EntryEscapes, ← layer_escapes_iff, ← children_eq_error_iff]
  constructor
  · rintro ⟨fault, h, hescapes⟩
    rcases checkEntry_eq_error_iff.mp h with h | ⟨hlayer, h⟩
    · exact Or.inl ⟨fault, h, hescapes⟩
    · by_cases hseen : idText v ∈ seen
      · rw [if_pos hseen] at h
        simp [h, ImportFault.escapes_iff] at hescapes
      · rw [if_neg hseen] at h
        exact Or.inr ⟨hlayer, hseen, fault, h⟩
  · rintro (⟨fault, h, hescapes⟩ | ⟨hlayer, hseen, fault, h⟩)
    · exact ⟨fault, checkEntry_eq_error_iff.mpr (Or.inl h), hescapes⟩
    · refine ⟨fault, checkEntry_eq_error_iff.mpr (Or.inr ⟨hlayer, ?_⟩), escapes_of_children h⟩
      rwa [if_neg hseen]

/-! ## Entries in order -/

theorem checkEntries_eq_error_iff {entries : List Json} :
    checkEntries seen entries = .error fault ↔ ∃ before e after passed,
      entries = before ++ e :: after ∧ checkEntries seen before = .ok passed ∧
        checkEntry passed e = .error fault := by
  induction entries generalizing seen with
  | nil => simp [checkEntries]
  | cons v rest ih =>
    rw [checkEntries]
    cases hv : checkEntry seen v with
    | error cause =>
      constructor
      · intro h
        exact ⟨[], v, rest, seen, rfl, rfl, hv.trans (congrArg Except.error (Except.error.inj h))⟩
      · rintro ⟨before, e, after, passed, heq, hbefore, he⟩
        rcases before with _ | ⟨c, before⟩
        · obtain ⟨rfl, -⟩ := List.cons.inj heq
          obtain rfl := Except.ok.inj hbefore
          exact congrArg Except.error (Except.error.inj (hv.symm.trans he))
        · obtain ⟨rfl, -⟩ := List.cons.inj heq
          rw [checkEntries, hv] at hbefore
          cases hbefore
    | ok id =>
      refine Iff.trans ih ?_
      constructor
      · rintro ⟨before, e, after, passed, rfl, hbefore, he⟩
        refine ⟨v :: before, e, after, passed, rfl, ?_, he⟩
        rw [checkEntries, hv]
        exact hbefore
      · rintro ⟨before, e, after, passed, heq, hbefore, he⟩
        rcases before with _ | ⟨c, before⟩
        · obtain ⟨rfl, -⟩ := List.cons.inj heq
          obtain rfl := Except.ok.inj hbefore
          rw [hv] at he
          cases he
        · obtain ⟨rfl, rfl⟩ := List.cons.inj heq
          rw [checkEntries, hv] at hbefore
          exact ⟨before, e, after, passed, rfl, hbefore, he⟩

end Import

namespace Document

open Import

/-! ## Exports -/

/-- An export lets a fault through: the id or the name of its root cannot be written, or its first
bad entry lets one through, in the order of its levels, where all entries before it are good, and
their ids are different from each other and from that of the root. -/
def ExportEscapes (v : Json) : Prop :=
  ∃ pages, v.get? "pages" = some (.array pages) ∧
    ((∃ key ∈ textKeys, ∃ w ∈ v.get? key, ¬w.IsWritable) ∨
      ∃ before e after, (levelsOfItems pages).flatten = before ++ e :: after ∧
        (∀ b ∈ before, Accepts b) ∧ (rootId v :: before.map idText).Nodup ∧
          EntryEscapes (rootId v :: before.map idText) e)

theorem checkEntries_escapes_iff {root : String} {entries : List Json} :
    (∃ fault, checkEntries [root] entries = .error fault ∧ fault.Escapes) ↔
      ∃ before e after, entries = before ++ e :: after ∧ (∀ b ∈ before, Accepts b) ∧
        (root :: before.map idText).Nodup ∧ EntryEscapes (root :: before.map idText) e := by
  have hroot : [root].Nodup := List.nodup_singleton _
  have hids : ∀ before : List Json, (before.map idText).reverse ++ [root] =
      (root :: before.map idText).reverse := fun before ↦ by simp
  constructor
  · rintro ⟨fault, h, hescapes⟩
    obtain ⟨before, e, after, passed, heq, hbefore, he⟩ := checkEntries_eq_error_iff.mp h
    obtain ⟨haccepts, rfl, hnodup⟩ := (checkEntries_eq_ok_iff hroot).mp hbefore
    rw [hids] at he hnodup
    have hentry := checkEntry_escapes_iff.mp ⟨fault, he, hescapes⟩
    rw [EntryEscapes, List.mem_reverse] at hentry
    exact ⟨before, e, after, heq, haccepts, List.nodup_reverse.mp hnodup, hentry⟩
  · rintro ⟨before, e, after, heq, haccepts, hnodup, hentry⟩
    have hbefore := (checkEntries_eq_ok_iff hroot).mpr
      ⟨haccepts, rfl, by rw [hids]; exact List.nodup_reverse.mpr hnodup⟩
    rw [EntryEscapes, ← List.mem_reverse, ← hids] at hentry
    obtain ⟨fault, he, hescapes⟩ := checkEntry_escapes_iff.mpr hentry
    exact ⟨fault, checkEntries_eq_error_iff.mpr ⟨before, e, after, _, heq, hbefore, he⟩, hescapes⟩

theorem ofExport_escapes_iff (v : Json) :
    (∃ fault, ofExport v = .error fault ∧ fault.Escapes) ↔ ExportEscapes v := by
  by_cases hpages : ∃ pages, v.get? "pages" = some (.array pages)
  · obtain ⟨pages, hpages⟩ := hpages
    simp only [ofExport_eq_checked hpages, ExportEscapes, hpages, Option.some.injEq,
      Json.array.injEq, exists_eq_left', ← checkEntries_escapes_iff]
    have hescapes : ImportFault.unwritable.Escapes := ImportFault.escapes_iff.mpr (by simp)
    rw [checked]
    cases hid : textAt v "id" "0:0" with
    | error fault =>
      obtain ⟨rfl, h⟩ := textAt_eq_error_iff.mp hid
      exact iff_of_true ⟨_, rfl, hescapes⟩ (Or.inl ⟨"id", by decide, h⟩)
    | ok id =>
      cases hname : textAt v "name" "" with
      | error fault =>
        obtain ⟨rfl, h⟩ := textAt_eq_error_iff.mp hname
        exact iff_of_true ⟨_, rfl, hescapes⟩ (Or.inl ⟨"name", by decide, h⟩)
      | ok name =>
        have hidText := textAt_eq_ok_iff.mp hid
        have hnameText := textAt_eq_ok_iff.mp hname
        have hroot : rootId v = id := by rw [rootId, Json.textAt, hidText, Option.getD_some]
        have hwritable : ¬∃ key ∈ textKeys, ∃ w ∈ v.get? key, ¬w.IsWritable := by
          rintro ⟨key, hkey, w, hw, hwritable⟩
          simp only [textKeys, List.mem_cons, List.not_mem_nil, or_false] at hkey
          rcases hkey with rfl | rfl
          · exact hwritable (Json.textAt?_isSome_iff.mp (Option.isSome_of_eq_some hidText) w hw)
          · exact hwritable (Json.textAt?_isSome_iff.mp (Option.isSome_of_eq_some hnameText) w hw)
        rw [hroot, or_iff_right hwritable]
        dsimp only [bind, Except.bind]
        cases checkEntries [id] (levelsOfItems pages).flatten <;> simp [pure, Except.pure]
  · rw [ofExport_eq_notAnExport fun pages h ↦ hpages ⟨pages, h⟩]
    constructor
    · rintro ⟨fault, h, hescapes⟩
      obtain rfl := Except.error.inj h
      simp [ImportFault.escapes_iff] at hescapes
    · rintro ⟨pages, h, -⟩
      exact absurd ⟨pages, h⟩ hpages

/-! ## Files -/

/-- **What is neither loaded nor reported**: an export whose root has an id or a name that cannot be
written, or whose first bad entry has an integer for a coordinate that no double can hold, children
that are a number or a truth value, or an integer with too many digits in a text or in a value that
is to be shown; and a file that is no text, has an integer with too many digits before anything else
that is wrong with its form, or writes such an export down. -/
theorem failures_escape_iff (v : Json) (bytes : ByteArray) :
    ((∃ fault, ofExport v = .error fault ∧ fault.Escapes) ↔ ExportEscapes v) ∧
      ((∃ fault, ofBytes bytes = .error fault ∧ fault.Escapes) ↔
        String.fromUTF8? bytes = none ∨ ∃ text, String.fromUTF8? bytes = some text ∧
          ((∃ cause, Json.parse text = .error (.integerTooLong cause)) ∨
            ∃ w, Json.parse text = .ok w ∧ ExportEscapes w)) := by
  refine ⟨ofExport_escapes_iff v, ?_⟩
  rw [ofBytes]
  cases String.fromUTF8? bytes with
  | none => simp [LoadFault.Escapes, Command.isFormatFault]
  | some text =>
    simp only [Option.some.injEq, exists_eq_left', reduceCtorEq, false_or]
    rw [ofText]
    cases Json.parse text with
    | error fault => cases fault <;> simp [LoadFault.Escapes, Command.isFormatFault]
    | ok w =>
      have h := ofExport_escapes_iff w
      cases hexport : ofExport w with
      | error fault => simpa [hexport, Except.mapError, ImportFault.Escapes] using h
      | ok d => simpa [hexport, Except.mapError] using h

/-- A page whose children are a number, and a file that is no text. -/
theorem failures_escape :
    (∃ fault, ofExport (.object [("pages", .array [.object [("id", .string "1:1"),
        ("children", .int 5)]])]) = .error fault ∧ fault.Escapes) ∧
      ∃ fault, ofBytes ⟨#[0xff]⟩ = .error fault ∧ fault.Escapes :=
  ⟨⟨.notIterable "int", (ofExport_eq_checked rfl).trans rfl, rfl⟩, .invalidText, rfl, rfl⟩

end Document

end SceneSearch
