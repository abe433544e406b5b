import FileIndexer.Foundation.ReadCommitted
import FileIndexer.Service.Indexer.Results

namespace FileIndexer

open ReadCommitted

inductive ResultTable where
  | stat
  | exif
  deriving DecidableEq, Repr

inductive StoredResult where
  | stat (r : StatResult)
  | exif (r : ExifResult)
  deriving DecidableEq, Repr

def StoredResult.table : StoredResult → ResultTable
  | .stat _ => .stat
  | .exif _ => .exif

inductive CascadeTable where
  | indexQueue (t : ResultTable)
  | result (t : ResultTable)
  deriving DecidableEq, Repr

inductive TakenAtTx where
  | idle
  | completeIndexQueue (fileID : FileID) (result : StoredResult)
  | store (fileID : FileID) (result : StoredResult)
  | checkForeignKey (fileID : FileID)
  | trigger (fileID : FileID)
  | updateFile (fileID : FileID) (effectiveTakenAt : Time)
  | deleteFile (fileID : FileID)
  | cascade (fileID : FileID) (tables : List CascadeTable)
  | commit (fileID : FileID)
  deriving DecidableEq, Repr

-- of a files row only effective_taken_at is kept, of a queue row only that it exists
structure TakenAtDb (ι : Type) where
  queue : Table (ResultTable × FileID) Unit ι
  files : Table FileID Time ι
  keyShare : FileID → List ι
  stat : Table FileID StatRow ι
  exif : Table FileID ExifRow ι
  tx : ι → TakenAtTx

inductive TakenAtAction (ι : Type) where
  | complete (i : ι) (fileID : FileID) (result : StoredResult)
  | delete (i : ι) (fileID : FileID)
  | run (i : ι) (now : Time)
  | rollback (i : ι)

def cascadeTables : List CascadeTable :=
  [.indexQueue .stat, .indexQueue .exif, .result .stat, .result .exif]

def effectiveTakenAt (exif : Option ExifRow) (stat : Option StatRow) : Time :=
  ((exif.bind ExifRow.takenAt).or (stat.map StatRow.lastModified)).getD 0

namespace TakenAtDb

variable {ι : Type} [DecidableEq ι]

section Statements

variable (s : TakenAtDb ι) (i : ι)

def goto (next : TakenAtTx) : TakenAtDb ι := { s with tx := Function.update s.tx i next }

def rollback : TakenAtDb ι where
  queue := s.queue.rollback i
  files := s.files.rollback i
  keyShare fileID := (s.keyShare fileID).filter (· ≠ i)
  stat := s.stat.rollback i
  exif := s.exif.rollback i
  tx := Function.update s.tx i .idle

def commit : TakenAtDb ι where
  queue := s.queue.commit i
  files := s.files.commit i
  keyShare fileID := (s.keyShare fileID).filter (· ≠ i)
  stat := s.stat.commit i
  exif := s.exif.commit i
  tx := Function.update s.tx i .idle

def completeIndexQueue (fileID : FileID) (t : ResultTable) (next : TakenAtTx) :
    Option (TakenAtDb ι) :=
  if (s.queue.view i (t, fileID)).isSome && (s.files.view i fileID).isSome then
    (s.queue.tryWrite i (t, fileID) (some ())).map fun queue => { s with queue }.goto i next
  else some (s.goto i next)

-- only an insert checks the reference to files
def afterUpsert {ρ : Type} (t : Table FileID ρ ι) (fileID : FileID) : TakenAtTx :=
  if (t.view i fileID).isNone then .checkForeignKey fileID else .trigger fileID

def storeStatResult (fileID : FileID) (row : StatRow) : Option (TakenAtDb ι) :=
  (s.stat.tryWrite i fileID (some row)).map fun stat =>
    { s with stat }.goto i (afterUpsert i s.stat fileID)

def storeExifResult (fileID : FileID) (row : ExifRow) : Option (TakenAtDb ι) :=
  (s.exif.tryWrite i fileID (some row)).map fun exif =>
    { s with exif }.goto i (afterUpsert i s.exif fileID)

def deletedByOther (fileID : FileID) : Bool :=
  (s.files.pending fileID).any fun p => p.1 ≠ i && p.2.isNone

def checkForeignKey (fileID : FileID) : Option (TakenAtDb ι) :=
  if s.deletedByOther i fileID then none
  else match s.files.view i fileID with
    | none => some (s.rollback i)
    | some _ =>
      some ({ s with keyShare := Function.update s.keyShare fileID (i :: s.keyShare fileID) }.goto i
        (.trigger fileID))

-- the sub-selects of the trigger's UPDATE read the snapshot taken when it starts
def updateFileEffectiveTakenAt (fileID : FileID) : TakenAtTx :=
  match s.files.view i fileID with
  | none => .commit fileID
  | some _ =>
    .updateFile fileID (effectiveTakenAt (s.exif.view i fileID) (s.stat.view i fileID))

def updateFile (fileID : FileID) (effectiveTakenAt : Time) : Option (TakenAtDb ι) :=
  if !s.files.writable i fileID then none
  else match s.files.view i fileID with
    | none => some (s.goto i (.commit fileID))
    | some _ => (s.files.tryWrite i fileID (some effectiveTakenAt)).map fun files =>
        { s with files }.goto i (.commit fileID)

def deleteFile (fileID : FileID) : Option (TakenAtDb ι) :=
  match s.files.view i fileID with
  | none => some (s.rollback i)
  | some _ =>
    if (s.keyShare fileID).any (· ≠ i) then none
    else (s.files.tryWrite i fileID none).map fun files =>
      { s with files }.goto i (.cascade fileID cascadeTables)

-- the trigger of a cascaded delete finds the files row gone
def cascade (fileID : FileID) (next : TakenAtTx) : CascadeTable → Option (TakenAtDb ι)
  | .indexQueue t =>
    match s.queue.view i (t, fileID) with
    | none => some (s.goto i next)
    | some _ => (s.queue.tryWrite i (t, fileID) none).map fun queue => { s with queue }.goto i next
  | .result .stat =>
    match s.stat.view i fileID with
    | none => some (s.goto i next)
    | some _ => (s.stat.tryWrite i fileID none).map fun stat => { s with stat }.goto i next
  | .result .exif =>
    match s.exif.view i fileID with
    | none => some (s.goto i next)
    | some _ => (s.exif.tryWrite i fileID none).map fun exif => { s with exif }.goto i next

def run (now : Time) : TakenAtTx → Option (TakenAtDb ι)
  | .idle => none
  | .completeIndexQueue fileID result =>
    s.completeIndexQueue i fileID result.table (.store fileID result)
  | .store fileID (.stat r) =>
    match statIndex.row now r with
    | none => some (s.goto i (.commit fileID))
    | some row => if statIndex.check row then s.storeStatResult i fileID row else some (s.rollback i)
  | .store fileID (.exif r) =>
    match exifIndex.row now r with
    | none => some (s.goto i (.commit fileID))
    | some row => if exifIndex.check row then s.storeExifResult i fileID row else some (s.rollback i)
  | .checkForeignKey fileID => s.checkForeignKey i fileID
  | .trigger fileID => some (s.goto i (s.updateFileEffectiveTakenAt i fileID))
  | .updateFile fileID effectiveTakenAt => s.updateFile i fileID effectiveTakenAt
  | .deleteFile fileID => s.deleteFile i fileID
  | .cascade fileID [] => some (s.goto i (.commit fileID))
  | .cascade fileID (t :: tables) => s.cascade i fileID (.cascade fileID tables) t
  | .commit _ => some (s.commit i)

end Statements

def step (s : TakenAtDb ι) : TakenAtAction ι → Option (TakenAtDb ι)
  | .complete i fileID result =>
    match s.tx i with
    | .idle => some (s.goto i (.completeIndexQueue fileID result))
    | _ => none
  | .delete i fileID =>
    match s.tx i with
    | .idle => some (s.goto i (.deleteFile fileID))
    | _ => none
  | .run i now => s.run i now (s.tx i)
  | .rollback i => some (s.rollback i)

def Quiescent (s : TakenAtDb ι) : Prop := ∀ i, s.tx i = .idle

def Synced (s : TakenAtDb ι) : Prop :=
  ∀ fileID e, s.files.committed fileID = some e →
    e = effectiveTakenAt (s.exif.committed fileID) (s.stat.committed fileID)

structure Initial (s : TakenAtDb ι) : Prop where
  tx : s.Quiescent
  files : ∀ fileID, s.files.pending fileID = none
  stat : ∀ fileID, s.stat.pending fileID = none
  exif : ∀ fileID, s.exif.pending fileID = none

def OthersSettled {ρ : Type} (s : TakenAtDb ι) (i : ι) (t : Table FileID ρ ι) (fileID : FileID) :
    Prop :=
  ∀ p ∈ t.pending fileID, p.1 = i ∨ s.files.pending fileID = some (p.1, none)

def TriggersAlone (s : TakenAtDb ι) : TakenAtAction ι → Prop
  | .run i _ =>
    match s.tx i with
    | .trigger fileID => s.OthersSettled i s.stat fileID ∧ s.OthersSettled i s.exif fileID
    | _ => True
  | _ => True

section Invariant

variable {s t : TakenAtDb ι} {i j : ι}

def Touches (s : TakenAtDb ι) (i : ι) (fileID : FileID) : Prop :=
  (∃ w, s.stat.pending fileID = some (i, w)) ∨ ∃ w, s.exif.pending fileID = some (i, w)

def Deletes (s : TakenAtDb ι) (i : ι) (fileID : FileID) : Prop :=
  s.files.pending fileID = some (i, none)

def viewed (s : TakenAtDb ι) (i : ι) (fileID : FileID) : Time :=
  effectiveTakenAt (s.exif.view i fileID) (s.stat.view i fileID)

def storing (s : TakenAtDb ι) (i : ι) (fileID : FileID) : Prop :=
  s.tx i = .checkForeignKey fileID ∨ s.tx i = .trigger fileID ∨ ∃ v, s.tx i = .updateFile fileID v

def finishing (s : TakenAtDb ι) (i : ι) (fileID : FileID) : Prop :=
  s.tx i = .commit fileID ∨ ∃ tables, s.tx i = .cascade fileID tables

def computed (s : TakenAtDb ι) (i : ι) (fileID : FileID) : Prop :=
  s.tx i = .commit fileID ∨ ∃ v, s.tx i = .updateFile fileID v

structure Held (s : TakenAtDb ι) (i : ι) : Prop where
  results : ∀ id, s.Touches i id → s.storing i id ∨ s.finishing i id
  stored : ∀ id, s.storing i id → s.Touches i id
  rows : ∀ id e, s.files.pending id = some (i, some e) → s.tx i = .commit id ∧ s.Touches i id
  deletes : ∀ id, s.Deletes i id → s.finishing i id
  cascade : ∀ id tables, s.tx i = .cascade id tables → s.Deletes i id
  present : ∀ id w, s.files.pending id = some (i, w) → s.files.committed id ≠ none

structure Right (s : TakenAtDb ι) (i : ι) : Prop where
  written : ∀ id e, s.tx i = .commit id → s.files.view i id = some e → e = s.viewed i id
  computed : ∀ id v, s.tx i = .updateFile id v → s.files.view i id ≠ none → v = s.viewed i id

def Apart (s : TakenAtDb ι) (i j : ι) : Prop :=
  ∀ id, s.computed i id → s.computed j id → s.Touches i id → s.Touches j id →
    s.Deletes i id ∨ s.Deletes j id

structure Inv (s : TakenAtDb ι) : Prop where
  synced : s.Synced
  held : ∀ i, s.Held i
  right : ∀ i, s.Right i
  apart : ∀ i j, i ≠ j → s.Apart i j

structure SameFor (s t : TakenAtDb ι) (j : ι) : Prop where
  tx : t.tx j = s.tx j
  stat : ∀ id w, t.stat.pending id = some (j, w) ↔ s.stat.pending id = some (j, w)
  exif : ∀ id w, t.exif.pending id = some (j, w) ↔ s.exif.pending id = some (j, w)
  files : ∀ id w, t.files.pending id = some (j, w) ↔ s.files.pending id = some (j, w)

structure SameView (s t : TakenAtDb ι) (j : ι) : Prop where
  stat : ∀ id, t.stat.view j id = s.stat.view j id
  exif : ∀ id, t.exif.view j id = s.exif.view j id
  files : ∀ id, t.files.view j id = s.files.view j id

structure WroteOnly (s t : TakenAtDb ι) (i : ι) : Prop where
  tx : ∀ j, j ≠ i → t.tx j = s.tx j
  stat : Table.WrittenBy i (fun _ => True) s.stat t.stat
  exif : Table.WrittenBy i (fun _ => True) s.exif t.exif
  files : Table.WrittenBy i (fun _ => True) s.files t.files

omit [DecidableEq ι] in
theorem SameFor.touches (h : SameFor s t j) (id : FileID) : t.Touches j id ↔ s.Touches j id := by
  simp only [Touches, h.stat, h.exif]

omit [DecidableEq ι] in
theorem SameFor.computed (h : SameFor s t j) (id : FileID) : t.computed j id ↔ s.computed j id := by
  simp only [TakenAtDb.computed, h.tx]

omit [DecidableEq ι] in
theorem SameFor.held (h : SameFor s t j) (hs : s.Held j)
    (hpresent : ∀ id w, s.files.pending id = some (j, w) → t.files.committed id ≠ none) :
    t.Held j where
  results id ht := by
    simpa only [storing, finishing, h.tx] using hs.results id ((h.touches id).mp ht)
  stored id ht := by
    refine (h.touches id).mpr (hs.stored id ?_)
    simpa only [storing, h.tx] using ht
  rows id e ht := by
    obtain ⟨htx, htouch⟩ := hs.rows id e ((h.files id _).mp ht)
    exact ⟨h.tx.trans htx, (h.touches id).mpr htouch⟩
  deletes id ht := by
    simpa only [finishing, h.tx] using hs.deletes id ((h.files id _).mp ht)
  cascade id tables ht := (h.files id _).mpr (hs.cascade id tables (h.tx.symm.trans ht))
  present id w ht := hpresent id w ((h.files id w).mp ht)

theorem SameView.right (h : SameView s t j) (htx : t.tx j = s.tx j) (hs : s.Right j) : t.Right j := by
  have hviewed (id : FileID) : t.viewed j id = s.viewed j id := by
    rw [viewed, viewed, h.stat, h.exif]
  constructor
  · intro id e hid he
    rw [hviewed]
    exact hs.written id e (htx.symm.trans hid) (h.files id ▸ he)
  · intro id v hid hv
    rw [hviewed]
    exact hs.computed id v (htx.symm.trans hid) (h.files id ▸ hv)

omit [DecidableEq ι] in
theorem WroteOnly.sameFor (h : WroteOnly s t i) (hj : j ≠ i) : SameFor s t j :=
  ⟨h.tx j hj, fun id w => h.stat.others id j w hj, fun id w => h.exif.others id j w hj,
    fun id w => h.files.others id j w hj⟩

theorem WroteOnly.sameView (h : WroteOnly s t i) (hj : j ≠ i) : SameView s t j :=
  ⟨h.stat.view hj, h.exif.view hj, h.files.view hj⟩

theorem wroteOnly_of_tx {next : TakenAtTx} (htx : t.tx = Function.update s.tx i next)
    (hstat : t.stat = s.stat) (hexif : t.exif = s.exif) (hfiles : t.files = s.files) :
    WroteOnly s t i := by
  refine ⟨fun j hj => by rw [htx, Function.update_of_ne hj], ?_, ?_, ?_⟩
  · exact hstat ▸ .refl i _ _
  · exact hexif ▸ .refl i _ _
  · exact hfiles ▸ .refl i _ _

theorem wroteOnly_goto (s : TakenAtDb ι) (i : ι) (next : TakenAtTx) :
    WroteOnly s (s.goto i next) i :=
  wroteOnly_of_tx rfl rfl rfl rfl

theorem Inv.wrote (h : s.Inv) (hw : WroteOnly s t i) (hheld : t.Held i) (hright : t.Right i)
    (hapart : ∀ j, j ≠ i → ∀ id, t.computed i id → s.computed j id → t.Touches i id →
      s.Touches j id → t.Deletes i id ∨ s.Deletes j id) : t.Inv := by
  have hdel (j : ι) (hj : j ≠ i) (id : FileID) : t.Deletes j id ↔ s.Deletes j id :=
    (hw.sameFor hj).files id none
  have hleft (j : ι) (hj : j ≠ i) : t.Apart i j := by
    intro id hi hcj hti htj
    rw [hdel j hj]
    exact hapart j hj id hi (((hw.sameFor hj).computed id).mp hcj) hti
      (((hw.sameFor hj).touches id).mp htj)
  refine ⟨fun id e he => ?_, fun j => ?_, fun j => ?_, fun j k hjk => ?_⟩
  · rw [hw.files.committed] at he
    rw [hw.exif.committed, hw.stat.committed]
    exact h.synced id e he
  · cases decEq j i with
    | isTrue hj => exact hj ▸ hheld
    | isFalse hj =>
      refine (hw.sameFor hj).held (h.held j) fun id w hp => ?_
      rw [hw.files.committed]
      exact (h.held j).present id w hp
  · cases decEq j i with
    | isTrue hj => exact hj ▸ hright
    | isFalse hj => exact (hw.sameView hj).right (hw.tx j hj) (h.right j)
  · cases decEq j i with
    | isTrue hj =>
      subst hj
      exact hleft k (Ne.symm hjk)
    | isFalse hj =>
      cases decEq k i with
      | isTrue hk =>
        subst hk
        exact fun id hcj hci htj hti => (hleft j hj id hci hcj hti htj).symm
      | isFalse hk =>
        intro id hcj hck htj htk
        rw [hdel j hj, hdel k hk]
        exact h.apart j k hjk id (((hw.sameFor hj).computed id).mp hcj)
          (((hw.sameFor hk).computed id).mp hck) (((hw.sameFor hj).touches id).mp htj)
          (((hw.sameFor hk).touches id).mp htk)

omit [DecidableEq ι] in
theorem held_of_unwritten (htouch : ∀ id, ¬t.Touches i id)
    (hfiles : ∀ id w, t.files.pending id ≠ some (i, w)) (hstoring : ∀ id, ¬t.storing i id)
    (hcascade : ∀ id tables, t.tx i ≠ .cascade id tables) : t.Held i where
  results id ht := absurd ht (htouch id)
  stored id ht := absurd ht (hstoring id)
  rows id _ ht := absurd ht (hfiles id _)
  deletes id ht := absurd ht (hfiles id _)
  cascade id tables ht := absurd ht (hcascade id tables)
  present id w ht := absurd ht (hfiles id w)

theorem right_of_not_computed (h : ∀ id, ¬t.computed i id) : t.Right i :=
  ⟨fun id _ hid _ => absurd (Or.inl hid) (h id), fun id v hid _ => absurd (Or.inr ⟨v, hid⟩) (h id)⟩

omit [DecidableEq ι] in
theorem Held.unwritten (h : s.Held i) {id : FileID} (hs : ¬s.storing i id)
    (hf : ¬s.finishing i id) :
    ¬s.Touches i id ∧ ∀ w, s.files.pending id ≠ some (i, w) := by
  refine ⟨fun ht => (h.results id ht).elim hs hf, fun w hw => ?_⟩
  cases w with
  | none => exact hf (h.deletes id hw)
  | some e => exact hf (Or.inl (h.rows id e hw).1)

theorem Synced.viewed (h : s.Synced) {id : FileID} {e : Time} (ht : ¬s.Touches i id)
    (hf : ∀ w, s.files.pending id ≠ some (i, w)) (he : s.files.view i id = some e) :
    e = s.viewed i id := by
  obtain ⟨hstat, hexif⟩ := not_or.mp ht
  rw [Table.view_of_not_pending hf] at he
  rw [TakenAtDb.viewed, Table.view_of_not_pending (not_exists.mp hstat),
    Table.view_of_not_pending (not_exists.mp hexif)]
  exact h id e he

theorem Inv.finished (h : s.Inv) (hidle : t.tx i = .idle) (hsame : ∀ j, j ≠ i → SameFor s t j)
    (hclear : ∀ id, ¬t.Touches i id ∧ ∀ w, t.files.pending id ≠ some (i, w)) (hsynced : t.Synced)
    (hpresent : ∀ j, j ≠ i → ∀ id w, s.files.pending id = some (j, w) →
      t.files.committed id ≠ none)
    (hright : ∀ j, j ≠ i → t.Right j) : t.Inv := by
  have huncomputed (id : FileID) : ¬t.computed i id := by simp [computed, hidle]
  refine ⟨hsynced, fun j => ?_, fun j => ?_, fun j k hjk id hcj hck htj htk => ?_⟩
  · cases decEq j i with
    | isTrue hj =>
      subst hj
      refine held_of_unwritten (fun id => (hclear id).1) (fun id => (hclear id).2) (fun id => ?_)
        fun id tables => ?_
      · simp [storing, hidle]
      · simp [hidle]
    | isFalse hj => exact (hsame j hj).held (h.held j) (hpresent j hj)
  · cases decEq j i with
    | isTrue hj =>
      subst hj
      exact right_of_not_computed huncomputed
    | isFalse hj => exact hright j hj
  · have hj : j ≠ i := by
      rintro rfl
      exact huncomputed id hcj
    have hk : k ≠ i := by
      rintro rfl
      exact huncomputed id hck
    have hdel := h.apart j k hjk id (((hsame j hj).computed id).mp hcj)
      (((hsame k hk).computed id).mp hck) (((hsame j hj).touches id).mp htj)
      (((hsame k hk).touches id).mp htk)
    exact hdel.imp ((hsame j hj).files id none).mpr ((hsame k hk).files id none).mpr

theorem Inv.rollback (h : s.Inv) (i : ι) : (s.rollback i).Inv := by
  have hsame (j : ι) (hj : j ≠ i) : SameFor s (s.rollback i) j :=
    ⟨by simp [TakenAtDb.rollback, hj],
      fun id w => Table.pending_rollback_iff.trans (and_iff_left hj),
      fun id w => Table.pending_rollback_iff.trans (and_iff_left hj),
      fun id w => Table.pending_rollback_iff.trans (and_iff_left hj)⟩
  refine h.finished (by simp [TakenAtDb.rollback]) hsame (fun id => ⟨?_, fun w hw => ?_⟩) h.synced
    (fun j _ => (h.held j).present) fun j hj => ?_
  · rintro (⟨w, hw⟩ | ⟨w, hw⟩) <;> exact (Table.pending_rollback_iff.mp hw).2 rfl
  · exact (Table.pending_rollback_iff.mp hw).2 rfl
  · refine SameView.right ⟨?_, ?_, ?_⟩ (hsame j hj).tx (h.right j) <;>
      exact fun id => Table.view_rollback hj

omit [DecidableEq ι] in
theorem Held.elsewhere (h : s.Held i) {id₀ id : FileID} (hx : s.tx i = .commit id₀) (hid : id ≠ id₀) :
    ¬s.Touches i id ∧ ∀ w, s.files.pending id ≠ some (i, w) :=
  h.unwritten (by simp [storing, hx]) (by simp [finishing, hx, Ne.symm hid])

theorem Inv.viewed_of_commit (h : s.Inv) {id₀ : FileID} (hx : s.tx i = .commit id₀) {id : FileID}
    {e : Time} (he : s.files.view i id = some e) : e = s.viewed i id := by
  cases decEq id id₀ with
  | isTrue hid => exact (h.right i).written id e (hid ▸ hx) he
  | isFalse hid =>
    obtain ⟨htouch, hfiles⟩ := (h.held i).elsewhere hx hid
    exact h.synced.viewed htouch hfiles he

theorem viewed_commit_of_unwritten (hj : j ≠ i) {id : FileID} (ht : ¬s.Touches i id) :
    (s.commit i).viewed j id = s.viewed j id := by
  obtain ⟨hstat, hexif⟩ := not_or.mp ht
  have hs : (s.commit i).stat.view j id = s.stat.view j id :=
    Table.view_commit_of_unwritten hj (not_exists.mp hstat)
  have he : (s.commit i).exif.view j id = s.exif.view j id :=
    Table.view_commit_of_unwritten hj (not_exists.mp hexif)
  rw [viewed, viewed, hs, he]

theorem viewed_commit_of_untouched {id : FileID} (ht : ¬s.Touches j id) :
    (s.commit i).viewed j id = s.viewed i id := by
  obtain ⟨hstat, hexif⟩ := not_or.mp ht
  have hs : (s.commit i).stat.view j id = s.stat.view i id :=
    Table.view_commit_of_not_pending (not_exists.mp hstat)
  have he : (s.commit i).exif.view j id = s.exif.view i id :=
    Table.view_commit_of_not_pending (not_exists.mp hexif)
  rw [viewed, viewed, hs, he]

theorem files_view_of_deletes (hj : j ≠ i) {id : FileID} (h : s.Deletes i id ∨ s.Deletes j id) :
    (s.commit i).files.view j id = none := by
  rcases h with hi | hj'
  · have hnot (w : Option Time) : s.files.pending id ≠ some (j, w) := by
      rw [show s.files.pending id = some (i, none) from hi]
      simp [Ne.symm hj]
    exact (Table.view_commit_of_not_pending hnot).trans (Table.view_of_pending hi)
  · exact Table.view_commit_of_pending hj hj'

theorem Inv.commit_cases (h : s.Inv) {id₀ : FileID} (hx : s.tx i = .commit id₀) (hj : j ≠ i)
    {id : FileID} (hc : s.computed j id) : (s.commit i).files.view j id = none ∨
      ((s.commit i).files.view j id = s.files.view j id ∧
        (s.commit i).viewed j id = s.viewed j id) ∨
      (s.tx j = .commit id ∧ (s.commit i).files.view j id = s.files.view i id ∧
        (s.commit i).viewed j id = s.viewed i id) := by
  cases Classical.em (s.Touches i id) with
  | inl hti =>
    have hid : id = id₀ := by
      by_contra hne
      exact ((h.held i).elsewhere hx hne).1 hti
    subst hid
    cases Classical.em (s.Touches j id) with
    | inl htj =>
      have hdel := h.apart i j (Ne.symm hj) id (Or.inl hx) hc hti htj
      exact Or.inl (files_view_of_deletes hj hdel)
    | inr htj =>
      have hcommit : s.tx j = .commit id := by
        rcases hc with hc | ⟨v, hc⟩
        · exact hc
        · exact absurd ((h.held j).stored id (Or.inr (Or.inr ⟨v, hc⟩))) htj
      cases Classical.em (s.Deletes j id) with
      | inl hdel => exact Or.inl (files_view_of_deletes hj (Or.inr hdel))
      | inr hdel =>
        have hnot (w : Option Time) : s.files.pending id ≠ some (j, w) := by
          intro hw
          cases w with
          | none => exact hdel hw
          | some e => exact htj ((h.held j).rows id e hw).2
        exact Or.inr (Or.inr ⟨hcommit, Table.view_commit_of_not_pending hnot,
          viewed_commit_of_untouched htj⟩)
  | inr hti =>
    cases Classical.em (s.Deletes i id) with
    | inl hdel => exact Or.inl (files_view_of_deletes hj (Or.inl hdel))
    | inr hdel =>
      have hnot (w : Option Time) : s.files.pending id ≠ some (i, w) := by
        intro hw
        cases w with
        | none => exact hdel hw
        | some e => exact hti ((h.held i).rows id e hw).2
      exact Or.inr (Or.inl ⟨Table.view_commit_of_unwritten hj hnot,
        viewed_commit_of_unwritten hj hti⟩)

theorem Inv.commit (h : s.Inv) {id₀ : FileID} (hx : s.tx i = .commit id₀) : (s.commit i).Inv := by
  have hsame (j : ι) (hj : j ≠ i) : SameFor s (s.commit i) j :=
    ⟨by simp [TakenAtDb.commit, hj],
      fun id w => Table.pending_commit_iff.trans (and_iff_left hj),
      fun id w => Table.pending_commit_iff.trans (and_iff_left hj),
      fun id w => Table.pending_commit_iff.trans (and_iff_left hj)⟩
  refine h.finished (by simp [TakenAtDb.commit]) hsame (fun id => ⟨?_, fun w hw => ?_⟩)
    (fun id e he => h.viewed_of_commit hx he) (fun j hj id w hw => ?_) fun j hj => ?_
  · rintro (⟨w, hw⟩ | ⟨w, hw⟩) <;> exact (Table.pending_commit_iff.mp hw).2 rfl
  · exact (Table.pending_commit_iff.mp hw).2 rfl
  · have hnot (v : Option Time) : s.files.pending id ≠ some (i, v) := by
      rw [hw]
      simp [hj]
    have hview : (s.commit i).files.committed id = s.files.committed id :=
      Table.view_of_not_pending hnot
    rw [hview]
    exact (h.held j).present id w hw
  · have htx := (hsame j hj).tx
    constructor
    · intro id e hid he
      rw [htx] at hid
      rcases h.commit_cases hx hj (Or.inl hid) with hnone | ⟨hf, hv⟩ | ⟨-, hf, hv⟩
      · rw [hnone] at he
        cases he
      · rw [hv]
        exact (h.right j).written id e hid (hf ▸ he)
      · rw [hv]
        exact h.viewed_of_commit hx (hf ▸ he)
    · intro id v hid he
      rw [htx] at hid
      rcases h.commit_cases hx hj (Or.inr ⟨v, hid⟩) with hnone | ⟨hf, hv⟩ | ⟨hcommit, -, -⟩
      · exact absurd hnone he
      · rw [hv]
        exact (h.right j).computed id v hid (hf ▸ he)
      · rw [hid] at hcommit
        cases hcommit

theorem Inv.unwritten (h : s.Inv) (hstoring : ∀ id, ¬s.storing i id)
    (hfinishing : ∀ id, ¬s.finishing i id) (hw : WroteOnly s t i) (hstat : t.stat = s.stat)
    (hexif : t.exif = s.exif) (hfiles : t.files = s.files) (hnext : ∀ id, ¬t.storing i id)
    (hcascade : ∀ id tables, t.tx i ≠ .cascade id tables) : t.Inv := by
  have htouch (id : FileID) : ¬t.Touches i id := by
    rw [Touches, hstat, hexif]
    exact ((h.held i).unwritten (hstoring id) (hfinishing id)).1
  have hpending (id : FileID) (w : Option Time) : t.files.pending id ≠ some (i, w) := by
    rw [hfiles]
    exact ((h.held i).unwritten (hstoring id) (hfinishing id)).2 w
  have hsynced : t.Synced := by
    rw [Synced, hstat, hexif, hfiles]
    exact h.synced
  refine h.wrote hw (held_of_unwritten htouch hpending hnext hcascade) ⟨?_, ?_⟩ ?_
  · exact fun id e _ he => hsynced.viewed (htouch id) (hpending id) he
  · exact fun id v hid _ => absurd (Or.inr (Or.inr ⟨v, hid⟩)) (hnext id)
  · exact fun j _ id _ _ ht _ => absurd ht (htouch id)

theorem Inv.upserted (h : s.Inv) {id₀ : FileID} (hstoring : ∀ id, ¬s.storing i id)
    (hfinishing : ∀ id, ¬s.finishing i id) (hw : WroteOnly s t i) (hfiles : t.files = s.files)
    (htouch : ∀ id, t.Touches i id ↔ id = id₀)
    (htx : t.tx i = .checkForeignKey id₀ ∨ t.tx i = .trigger id₀) : t.Inv := by
  have hpending (id : FileID) (w : Option Time) : t.files.pending id ≠ some (i, w) := by
    rw [hfiles]
    exact ((h.held i).unwritten (hstoring id) (hfinishing id)).2 w
  have huncomputed (id : FileID) : ¬t.computed i id := by
    rcases htx with htx | htx <;> simp [computed, htx]
  refine h.wrote hw ⟨?_, ?_, ?_, ?_, ?_, ?_⟩ (right_of_not_computed huncomputed) ?_
  · intro id ht
    obtain rfl := (htouch id).mp ht
    exact Or.inl (htx.imp_right Or.inl)
  · intro id hid
    rw [htouch]
    rcases htx with htx | htx <;> simpa [storing, htx, eq_comm] using hid
  · exact fun id e hp => absurd hp (hpending id _)
  · exact fun id hp => absurd hp (hpending id _)
  · intro id tables hid
    rcases htx with htx | htx <;> rw [htx] at hid <;> cases hid
  · exact fun id w hp => absurd hp (hpending id w)
  · exact fun j _ id hc _ _ _ => absurd hc (huncomputed id)

theorem Inv.advance (h : s.Inv) {id₀ : FileID} (hstoring : ∀ id, s.storing i id ↔ id = id₀)
    (hfinishing : ∀ id, ¬s.finishing i id) (hw : WroteOnly s t i) (hstat : t.stat = s.stat)
    (hexif : t.exif = s.exif) (hfiles : t.files = s.files)
    (hnext : ∀ id, t.storing i id ∨ t.finishing i id ↔ id = id₀)
    (hcascade : ∀ id tables, t.tx i ≠ .cascade id tables) (hright : t.Right i)
    (hapart : ∀ j, j ≠ i → ∀ id, t.computed i id → s.computed j id → t.Touches i id →
      s.Touches j id → t.Deletes i id ∨ s.Deletes j id) : t.Inv := by
  have htouch (id : FileID) : t.Touches i id ↔ s.Touches i id := by rw [Touches, hstat, hexif, Touches]
  have hpending (id : FileID) (w : Option Time) : t.files.pending id ≠ some (i, w) := by
    rw [hfiles]
    intro hp
    cases w with
    | none => exact hfinishing id ((h.held i).deletes id hp)
    | some e => exact hfinishing id (Or.inl ((h.held i).rows id e hp).1)
  refine h.wrote hw ⟨?_, ?_, ?_, ?_, ?_, ?_⟩ hright hapart
  · intro id ht
    have hs := ((h.held i).results id ((htouch id).mp ht)).resolve_right (hfinishing id)
    exact (hnext id).mpr ((hstoring id).mp hs)
  · intro id hid
    have hs := (hstoring id).mpr ((hnext id).mp (Or.inl hid))
    exact (htouch id).mpr ((h.held i).stored id hs)
  · exact fun id e hp => absurd hp (hpending id _)
  · exact fun id hp => absurd hp (hpending id _)
  · exact fun id tables hid => absurd hid (hcascade id tables)
  · exact fun id w hp => absurd hp (hpending id w)

theorem touched_of_tryWrite {ρ : Type} {u u' : Table FileID ρ ι} {id₀ id : FileID} {row : Option ρ}
    (hw : u.tryWrite i id₀ row = some u') (ht : ∃ w, u'.pending id = some (i, w)) :
    id = id₀ ∨ ∃ w, u.pending id = some (i, w) := by
  obtain ⟨w, hp⟩ := ht
  rcases Table.pending_tryWrite_cases hw hp with ⟨hid, -, -⟩ | ⟨-, hold⟩
  · exact Or.inl hid
  · exact Or.inr ⟨w, hold⟩

theorem touches_of_stat {stat : Table FileID StatRow ι} {id₀ id : FileID} {row : Option StatRow}
    (hw : s.stat.tryWrite i id₀ row = some stat) (ht : Touches { s with stat } i id) :
    id = id₀ ∨ s.Touches i id := by
  rcases ht with hstat | hexif
  · exact (touched_of_tryWrite hw hstat).imp_right Or.inl
  · exact Or.inr (Or.inr hexif)

theorem touches_of_exif {exif : Table FileID ExifRow ι} {id₀ id : FileID} {row : Option ExifRow}
    (hw : s.exif.tryWrite i id₀ row = some exif) (ht : Touches { s with exif } i id) :
    id = id₀ ∨ s.Touches i id := by
  rcases ht with hstat | hexif
  · exact Or.inr (Or.inl hstat)
  · exact (touched_of_tryWrite hw hexif).imp_right Or.inr

theorem Inv.cascaded (h : s.Inv) {id₀ : FileID} {tables : List CascadeTable}
    (hx : s.tx i = .cascade id₀ tables) (hw : WroteOnly s t i) (hfiles : t.files = s.files)
    (htouch : ∀ id, t.Touches i id → id = id₀ ∨ s.Touches i id)
    (htx : t.tx i = .commit id₀ ∨ ∃ tables, t.tx i = .cascade id₀ tables) : t.Inv := by
  have hdeletes : t.Deletes i id₀ := by
    rw [Deletes, hfiles]
    exact (h.held i).cascade id₀ tables hx
  have hfinish (id : FileID) (hf : s.finishing i id) : id = id₀ := by
    simpa [finishing, hx, eq_comm] using hf
  have hstoring (id : FileID) : ¬s.storing i id := by simp [storing, hx]
  have hcomputed (id : FileID) (hc : t.computed i id) : id = id₀ := by
    rcases htx with htx | ⟨l, htx⟩
    · simpa [computed, htx, eq_comm] using hc
    · simp [computed, htx] at hc
  refine h.wrote hw ⟨?_, ?_, ?_, ?_, ?_, ?_⟩ ⟨?_, ?_⟩ ?_
  · intro id ht
    have hid : id = id₀ := (htouch id ht).elim (fun hid => hid) fun hold =>
      hfinish id (((h.held i).results id hold).resolve_left (hstoring id))
    exact Or.inr (hid ▸ htx)
  · intro id hid
    rcases htx with htx | ⟨l, htx⟩ <;> simp [storing, htx] at hid
  · intro id e hp
    rw [hfiles] at hp
    have hcommit := ((h.held i).rows id e hp).1
    rw [hx] at hcommit
    cases hcommit
  · intro id hp
    rw [Deletes, hfiles] at hp
    exact hfinish id ((h.held i).deletes id hp) ▸ htx
  · intro id l hid
    have : id = id₀ := by
      rcases htx with htx | ⟨l', htx⟩
      · rw [htx] at hid
        cases hid
      · rw [htx] at hid
        cases hid
        rfl
    exact this ▸ hdeletes
  · intro id w hp
    rw [hfiles] at hp ⊢
    exact (h.held i).present id w hp
  · intro id e hid he
    obtain rfl := hcomputed id (Or.inl hid)
    rw [Table.view_of_pending hdeletes] at he
    cases he
  · intro id v hid
    rcases htx with htx | ⟨l, htx⟩ <;> rw [htx] at hid <;> cases hid
  · exact fun j _ id hc _ _ _ => Or.inl (hcomputed id hc ▸ hdeletes)

theorem wroteOnly_files {files : Table FileID Time ι} {id₀ : FileID} {row : Option Time}
    (hw : s.files.tryWrite i id₀ row = some files) (next : TakenAtTx) :
    WroteOnly s ({ s with files }.goto i next) i :=
  ⟨(wroteOnly_goto s i next).tx, .refl i _ _, .refl i _ _,
    Table.writtenBy_tryWrite hw fun _ _ => trivial⟩

theorem wroteOnly_stat {stat : Table FileID StatRow ι} {id₀ : FileID} {row : Option StatRow}
    (hw : s.stat.tryWrite i id₀ row = some stat) (next : TakenAtTx) :
    WroteOnly s ({ s with stat }.goto i next) i :=
  ⟨(wroteOnly_goto s i next).tx, Table.writtenBy_tryWrite hw fun _ _ => trivial, .refl i _ _,
    .refl i _ _⟩

theorem wroteOnly_exif {exif : Table FileID ExifRow ι} {id₀ : FileID} {row : Option ExifRow}
    (hw : s.exif.tryWrite i id₀ row = some exif) (next : TakenAtTx) :
    WroteOnly s ({ s with exif }.goto i next) i :=
  ⟨(wroteOnly_goto s i next).tx, .refl i _ _, Table.writtenBy_tryWrite hw fun _ _ => trivial,
    .refl i _ _⟩

theorem committed_of_view {id : FileID} {e : Time} (hp : ∀ w, s.files.pending id ≠ some (i, w))
    (he : s.files.view i id = some e) : s.files.committed id ≠ none := by
  rw [← Table.view_of_not_pending hp, he]
  simp

theorem Inv.updated (h : s.Inv) {id₀ : FileID} {v e₀ : Time} {files : Table FileID Time ι}
    (hx : s.tx i = .updateFile id₀ v) (hview : s.files.view i id₀ = some e₀)
    (hwrite : s.files.tryWrite i id₀ (some v) = some files) :
    ({ s with files }.goto i (.commit id₀)).Inv := by
  have hfinishing (id : FileID) : ¬s.finishing i id := by simp [finishing, hx]
  have hpending (id : FileID) (w : Option Time) : s.files.pending id ≠ some (i, w) := by
    intro hp
    cases w with
    | none => exact hfinishing id ((h.held i).deletes id hp)
    | some e => exact hfinishing id (Or.inl ((h.held i).rows id e hp).1)
  have htx : ({ s with files }.goto i (.commit id₀)).tx i = .commit id₀ := by simp [goto]
  have hwritten (id : FileID) (w : Option Time) (hp : files.pending id = some (i, w)) :
      id = id₀ ∧ w = some v := by
    rcases Table.pending_tryWrite_cases hwrite hp with ⟨hid, -, hw⟩ | ⟨-, hold⟩
    · exact ⟨hid, hw⟩
    · exact absurd hold (hpending id w)
  refine h.wrote (wroteOnly_files hwrite _) ⟨?_, ?_, ?_, ?_, ?_, ?_⟩ ⟨?_, ?_⟩ ?_
  · intro id ht
    have hs := ((h.held i).results id ht).resolve_right (hfinishing id)
    have hid : id₀ = id := by simpa [storing, hx] using hs
    exact Or.inr (Or.inl (hid ▸ htx))
  · intro id hid
    simp [storing, htx] at hid
  · intro id e hp
    obtain ⟨rfl, -⟩ := hwritten id _ hp
    exact ⟨htx, (h.held i).stored id (Or.inr (Or.inr ⟨v, hx⟩))⟩
  · intro id hp
    exact absurd (hwritten id none hp).2 (by simp)
  · intro id tables hid
    rw [htx] at hid
    cases hid
  · intro id w hp
    obtain ⟨rfl, -⟩ := hwritten id w hp
    have hcommitted : files.committed = s.files.committed := (Table.tryWrite_some hwrite).2.1
    exact congrFun hcommitted id ▸ committed_of_view (hpending id) hview
  · intro id e hid he
    rw [htx] at hid
    cases hid
    have hnew : files.view i id₀ = some v := Table.view_tryWrite hwrite
    obtain rfl : v = e := Option.some.inj (hnew.symm.trans he)
    exact (h.right i).computed id₀ v hx (by simp [hview])
  · intro id v' hid
    rw [htx] at hid
    cases hid
  · intro j hj id hc hcj hti htj
    have hid : id₀ = id := by simpa [computed, htx] using hc
    subst hid
    refine (h.apart i j (Ne.symm hj) id₀ (Or.inr ⟨v, hx⟩) hcj hti htj).imp_left fun hdel => ?_
    exact absurd hdel (hpending id₀ none)

theorem Inv.deleted (h : s.Inv) {id₀ : FileID} {e₀ : Time} {files : Table FileID Time ι}
    (hx : s.tx i = .deleteFile id₀) (hview : s.files.view i id₀ = some e₀)
    (hwrite : s.files.tryWrite i id₀ none = some files) :
    ({ s with files }.goto i (.cascade id₀ cascadeTables)).Inv := by
  have hclear (id : FileID) : ¬s.Touches i id ∧ ∀ w, s.files.pending id ≠ some (i, w) :=
    (h.held i).unwritten (by simp [storing, hx]) (by simp [finishing, hx])
  have htx : ({ s with files }.goto i (.cascade id₀ cascadeTables)).tx i =
      .cascade id₀ cascadeTables := by simp [goto]
  have hwritten (id : FileID) (w : Option Time) (hp : files.pending id = some (i, w)) :
      id = id₀ ∧ w = none := by
    rcases Table.pending_tryWrite_cases hwrite hp with ⟨hid, -, hw⟩ | ⟨-, hold⟩
    · exact ⟨hid, hw⟩
    · exact absurd hold ((hclear id).2 w)
  have huncomputed (id : FileID) :
      ¬({ s with files }.goto i (.cascade id₀ cascadeTables)).computed i id := by
    simp [computed, htx]
  refine h.wrote (wroteOnly_files hwrite _) ⟨?_, ?_, ?_, ?_, ?_, ?_⟩
    (right_of_not_computed huncomputed) fun j _ id hc _ _ _ => absurd hc (huncomputed id)
  · exact fun id ht => absurd ht (hclear id).1
  · intro id hid
    simp [storing, htx] at hid
  · intro id e hp
    exact absurd (hwritten id _ hp).2 (by simp)
  · intro id hp
    obtain ⟨rfl, -⟩ := hwritten id none hp
    exact Or.inr ⟨_, htx⟩
  · intro id tables hid
    rw [htx] at hid
    cases hid
    obtain ⟨-, -, hp⟩ := Table.tryWrite_some hwrite
    exact (congrFun hp id₀).trans (Function.update_self _ _ _)
  · intro id w hp
    obtain ⟨rfl, -⟩ := hwritten id w hp
    have hcommitted : files.committed = s.files.committed := (Table.tryWrite_some hwrite).2.1
    exact congrFun hcommitted id ▸ committed_of_view (hclear id).2 hview

theorem Inv.triggered (h : s.Inv) {id₀ : FileID} (hx : s.tx i = .trigger id₀)
    (hstat : s.OthersSettled i s.stat id₀) (hexif : s.OthersSettled i s.exif id₀) :
    (s.goto i (s.updateFileEffectiveTakenAt i id₀)).Inv := by
  have hothers (j : ι) (hj : j ≠ i) (ht : s.Touches j id₀) : s.Deletes j id₀ := by
    rcases ht with ⟨w, hp⟩ | ⟨w, hp⟩
    · exact (hstat _ hp).resolve_left hj
    · exact (hexif _ hp).resolve_left hj
  have hstoring (id : FileID) : s.storing i id ↔ id = id₀ := by simp [storing, hx, eq_comm]
  cases hv : s.files.view i id₀ with
  | none =>
    have hnext : s.updateFileEffectiveTakenAt i id₀ = .commit id₀ := by
      simp [updateFileEffectiveTakenAt, hv]
    have htx : (s.goto i (.commit id₀)).tx i = .commit id₀ := by simp [goto]
    rw [hnext]
    refine h.advance hstoring (by simp [finishing, hx]) (wroteOnly_goto s i _) rfl rfl rfl
      (by simp [storing, finishing, htx, eq_comm]) (by simp [htx])
      ⟨fun id e hid he => ?_, fun id v hid => ?_⟩ fun j hj id hc _ _ ht => ?_
    · rw [htx] at hid
      cases hid
      exact absurd (hv.symm.trans he) (by simp)
    · rw [htx] at hid
      cases hid
    · have hid : id₀ = id := by simpa [computed, htx] using hc
      subst hid
      exact Or.inr (hothers j hj ht)
  | some e₀ =>
    have hnext : s.updateFileEffectiveTakenAt i id₀ = .updateFile id₀ (s.viewed i id₀) := by
      simp [updateFileEffectiveTakenAt, hv, viewed]
    have htx : (s.goto i (.updateFile id₀ (s.viewed i id₀))).tx i =
        .updateFile id₀ (s.viewed i id₀) := by simp [goto]
    rw [hnext]
    refine h.advance hstoring (by simp [finishing, hx]) (wroteOnly_goto s i _) rfl rfl rfl
      (by simp [storing, finishing, htx, eq_comm]) (by simp [htx])
      ⟨fun id e hid => ?_, fun id v hid _ => ?_⟩ fun j hj id hc _ _ ht => ?_
    · rw [htx] at hid
      cases hid
    · rw [htx] at hid
      cases hid
      rfl
    · have hid : id₀ = id := by simpa [computed, htx] using hc
      subst hid
      exact Or.inr (hothers j hj ht)

theorem Inv.completeIndexQueue (h : s.Inv) {id₀ : FileID} {result : StoredResult}
    (hx : s.tx i = .completeIndexQueue id₀ result)
    (ht : s.completeIndexQueue i id₀ result.table (.store id₀ result) = some t) : t.Inv := by
  have hstoring (id : FileID) : ¬s.storing i id := by simp [storing, hx]
  have hfinishing (id : FileID) : ¬s.finishing i id := by simp [finishing, hx]
  unfold TakenAtDb.completeIndexQueue at ht
  split at ht
  · obtain ⟨queue, -, rfl⟩ := Option.map_eq_some_iff.mp ht
    exact h.unwritten hstoring hfinishing (wroteOnly_of_tx rfl rfl rfl rfl) rfl rfl rfl
      (by simp [storing, goto]) (by simp [goto])
  · obtain rfl := Option.some.inj ht
    exact h.unwritten hstoring hfinishing (wroteOnly_goto s i _) rfl rfl rfl
      (by simp [storing, goto]) (by simp [goto])

theorem afterUpsert_cases {ρ : Type} (u : Table FileID ρ ι) (id₀ : FileID) :
    afterUpsert i u id₀ = .checkForeignKey id₀ ∨ afterUpsert i u id₀ = .trigger id₀ := by
  unfold afterUpsert
  split
  · exact Or.inl rfl
  · exact Or.inr rfl

theorem touched_of_written {ρ : Type} {u u' : Table FileID ρ ι} {id₀ : FileID} {row : Option ρ}
    (hw : u.tryWrite i id₀ row = some u') : ∃ w, u'.pending id₀ = some (i, w) := by
  obtain ⟨-, -, hp⟩ := Table.tryWrite_some hw
  exact ⟨row, (congrFun hp id₀).trans (Function.update_self _ _ _)⟩

theorem Inv.stored (h : s.Inv) {id₀ : FileID} {result : StoredResult}
    (hx : s.tx i = .store id₀ result) (hw : WroteOnly s t i) (hfiles : t.files = s.files)
    (hold : ∀ id, t.Touches i id → id = id₀ ∨ s.Touches i id) (hnew : t.Touches i id₀)
    (htx : t.tx i = .checkForeignKey id₀ ∨ t.tx i = .trigger id₀) : t.Inv := by
  have hstoring (id : FileID) : ¬s.storing i id := by simp [storing, hx]
  have hfinishing (id : FileID) : ¬s.finishing i id := by simp [finishing, hx]
  refine h.upserted hstoring hfinishing hw hfiles (fun id => ?_) htx
  constructor
  · intro ht
    exact (hold id ht).resolve_right ((h.held i).unwritten (hstoring id) (hfinishing id)).1
  · rintro rfl
    exact hnew

theorem Inv.storeStatResult (h : s.Inv) {id₀ : FileID} {result : StoredResult} {row : StatRow}
    (hx : s.tx i = .store id₀ result) (ht : s.storeStatResult i id₀ row = some t) : t.Inv := by
  obtain ⟨stat, hwrite, rfl⟩ := Option.map_eq_some_iff.mp ht
  refine h.stored hx (wroteOnly_stat hwrite _) rfl (fun id ht => touches_of_stat hwrite ht)
    (Or.inl (touched_of_written hwrite)) ?_
  simpa [goto] using afterUpsert_cases s.stat id₀

theorem Inv.storeExifResult (h : s.Inv) {id₀ : FileID} {result : StoredResult} {row : ExifRow}
    (hx : s.tx i = .store id₀ result) (ht : s.storeExifResult i id₀ row = some t) : t.Inv := by
  obtain ⟨exif, hwrite, rfl⟩ := Option.map_eq_some_iff.mp ht
  refine h.stored hx (wroteOnly_exif hwrite _) rfl (fun id ht => touches_of_exif hwrite ht)
    (Or.inr (touched_of_written hwrite)) ?_
  simpa [goto] using afterUpsert_cases s.exif id₀

theorem Inv.skipped (h : s.Inv) {id₀ : FileID} {result : StoredResult}
    (hx : s.tx i = .store id₀ result) : (s.goto i (.commit id₀)).Inv :=
  h.unwritten (by simp [storing, hx]) (by simp [finishing, hx]) (wroteOnly_goto s i _) rfl rfl rfl
    (by simp [storing, goto]) (by simp [goto])

theorem Inv.checkForeignKey (h : s.Inv) {id₀ : FileID} (hx : s.tx i = .checkForeignKey id₀)
    (ht : s.checkForeignKey i id₀ = some t) : t.Inv := by
  unfold TakenAtDb.checkForeignKey at ht
  split at ht
  · cases ht
  · split at ht
    · exact Option.some.inj ht ▸ h.rollback i
    · obtain rfl := Option.some.inj ht
      have hnext (s' : TakenAtDb ι) (id : FileID) : ¬(s'.goto i (.trigger id₀)).computed i id := by
        simp [computed, goto]
      have hstoring (id : FileID) : s.storing i id ↔ id = id₀ := by simp [storing, hx, eq_comm]
      exact h.advance hstoring (by simp [finishing, hx]) (wroteOnly_of_tx rfl rfl rfl rfl) rfl rfl rfl
        (by simp [storing, finishing, goto, eq_comm]) (by simp [goto]) (right_of_not_computed (hnext _))
        fun j _ id hc _ _ _ => absurd hc (hnext _ id)

theorem Inv.updateFile (h : s.Inv) {id₀ : FileID} {v : Time} (hx : s.tx i = .updateFile id₀ v)
    (ht : s.updateFile i id₀ v = some t) : t.Inv := by
  unfold TakenAtDb.updateFile at ht
  split at ht
  · cases ht
  · split at ht
    · rename_i hv
      obtain rfl := Option.some.inj ht
      have htx : (s.goto i (.commit id₀)).tx i = .commit id₀ := by simp [goto]
      have hstoring (id : FileID) : s.storing i id ↔ id = id₀ := by simp [storing, hx, eq_comm]
      refine h.advance hstoring (by simp [finishing, hx]) (wroteOnly_goto s i _) rfl rfl rfl
        (by simp [storing, finishing, htx, eq_comm]) (by simp [htx])
        ⟨fun id e hid he => ?_, fun id v hid => ?_⟩ fun j hj id hc hcj hti htj => ?_
      · rw [htx] at hid
        cases hid
        exact absurd (hv.symm.trans he) (by simp)
      · rw [htx] at hid
        cases hid
      · have hid : id₀ = id := by simpa [computed, htx] using hc
        subst hid
        exact h.apart i j (Ne.symm hj) id₀ (Or.inr ⟨v, hx⟩) hcj hti htj
    · rename_i e₀ hv
      obtain ⟨files, hwrite, rfl⟩ := Option.map_eq_some_iff.mp ht
      exact h.updated hx hv hwrite

theorem Inv.deleteFile (h : s.Inv) {id₀ : FileID} (hx : s.tx i = .deleteFile id₀)
    (ht : s.deleteFile i id₀ = some t) : t.Inv := by
  unfold TakenAtDb.deleteFile at ht
  split at ht
  · exact Option.some.inj ht ▸ h.rollback i
  · rename_i e₀ hv
    split at ht
    · cases ht
    · obtain ⟨files, hwrite, rfl⟩ := Option.map_eq_some_iff.mp ht
      exact h.deleted hx hv hwrite

theorem Inv.cascade (h : s.Inv) {id₀ : FileID} {table : CascadeTable} {tables : List CascadeTable}
    (hx : s.tx i = .cascade id₀ (table :: tables))
    (ht : s.cascade i id₀ (.cascade id₀ tables) table = some t) : t.Inv := by
  have hgoto (s' : TakenAtDb ι) : (s'.goto i (.cascade id₀ tables)).tx i = .cascade id₀ tables := by
    simp [goto]
  have hkept : (s.goto i (.cascade id₀ tables)).Inv :=
    h.cascaded hx (wroteOnly_goto s i _) rfl (fun id ht => Or.inr ht) (Or.inr ⟨tables, hgoto s⟩)
  cases table with
  | indexQueue q =>
    simp only [TakenAtDb.cascade] at ht
    split at ht
    · exact Option.some.inj ht ▸ hkept
    · obtain ⟨queue, -, rfl⟩ := Option.map_eq_some_iff.mp ht
      exact h.cascaded hx (wroteOnly_of_tx rfl rfl rfl rfl) rfl (fun id ht => Or.inr ht)
        (Or.inr ⟨tables, hgoto _⟩)
  | result r =>
    cases r with
    | stat =>
      simp only [TakenAtDb.cascade] at ht
      split at ht
      · exact Option.some.inj ht ▸ hkept
      · obtain ⟨stat, hwrite, rfl⟩ := Option.map_eq_some_iff.mp ht
        exact h.cascaded hx (wroteOnly_stat hwrite _) rfl (fun id ht => touches_of_stat hwrite ht)
          (Or.inr ⟨tables, hgoto _⟩)
    | exif =>
      simp only [TakenAtDb.cascade] at ht
      split at ht
      · exact Option.some.inj ht ▸ hkept
      · obtain ⟨exif, hwrite, rfl⟩ := Option.map_eq_some_iff.mp ht
        exact h.cascaded hx (wroteOnly_exif hwrite _) rfl (fun id ht => touches_of_exif hwrite ht)
          (Or.inr ⟨tables, hgoto _⟩)

theorem Inv.run (h : s.Inv) {now : Time} (hok : s.TriggersAlone (.run i now))
    (ht : s.run i now (s.tx i) = some t) : t.Inv := by
  cases hx : s.tx i with
  | idle =>
    rw [hx] at ht
    cases ht
  | completeIndexQueue id result =>
    rw [hx] at ht
    exact h.completeIndexQueue hx ht
  | store id result =>
    rw [hx] at ht
    cases result with
    | stat r =>
      simp only [TakenAtDb.run] at ht
      split at ht
      · exact Option.some.inj ht ▸ h.skipped hx
      · split at ht
        · exact h.storeStatResult hx ht
        · exact Option.some.inj ht ▸ h.rollback i
    | exif r =>
      simp only [TakenAtDb.run] at ht
      split at ht
      · exact Option.some.inj ht ▸ h.skipped hx
      · split at ht
        · exact h.storeExifResult hx ht
        · exact Option.some.inj ht ▸ h.rollback i
  | checkForeignKey id =>
    rw [hx] at ht
    exact h.checkForeignKey hx ht
  | trigger id =>
    rw [hx] at ht
    simp only [TriggersAlone, hx] at hok
    exact Option.some.inj ht ▸ h.triggered hx hok.1 hok.2
  | updateFile id v =>
    rw [hx] at ht
    exact h.updateFile hx ht
  | deleteFile id =>
    rw [hx] at ht
    exact h.deleteFile hx ht
  | cascade id tables =>
    rw [hx] at ht
    cases tables with
    | nil =>
      obtain rfl := Option.some.inj ht
      exact h.cascaded hx (wroteOnly_goto s i _) rfl (fun id ht => Or.inr ht)
        (Or.inl (by simp [goto]))
    | cons table tables => exact h.cascade hx ht
  | commit id =>
    rw [hx] at ht
    exact Option.some.inj ht ▸ h.commit hx

theorem inv_preserved : Transition.Preserves step TriggersAlone (Inv (ι := ι)) := by
  intro s a t hs hok ht
  cases a with
  | complete i id result =>
    simp only [step] at ht
    split at ht
    · rename_i hx
      obtain rfl := Option.some.inj ht
      exact hs.unwritten (by simp [storing, hx]) (by simp [finishing, hx]) (wroteOnly_goto s i _) rfl
        rfl rfl (by simp [storing, goto]) (by simp [goto])
    · cases ht
  | delete i id =>
    simp only [step] at ht
    split at ht
    · rename_i hx
      obtain rfl := Option.some.inj ht
      exact hs.unwritten (by simp [storing, hx]) (by simp [finishing, hx]) (wroteOnly_goto s i _) rfl
        rfl rfl (by simp [storing, goto]) (by simp [goto])
    · cases ht
  | run i now => exact hs.run hok ht
  | rollback i => exact Option.some.inj ht ▸ hs.rollback i

theorem Initial.inv (h : s.Initial) (hsynced : s.Synced) : s.Inv := by
  have huncomputed (i : ι) (id : FileID) : ¬s.computed i id := by simp [computed, h.tx i]
  refine ⟨hsynced, fun i => ?_, fun i => right_of_not_computed (huncomputed i), fun i j _ id hc => ?_⟩
  · exact held_of_unwritten (fun id => by simp [Touches, h.stat, h.exif])
      (fun id w => by simp [h.files]) (fun id => by simp [storing, h.tx i])
      (fun id tables => by simp [h.tx i])
  · exact absurd hc (huncomputed i id)

theorem effective_taken_at_synced (s : TakenAtDb ι) (hs : s.Initial) (hsynced : s.Synced)
    (as : List (TakenAtAction ι)) (hok : Transition.EveryStep step TriggersAlone s as) :
    Transition.EveryState step (fun s => s.Quiescent → s.Synced) s as :=
  (Transition.everyState_of_preserves inv_preserved as (hs.inv hsynced) hok).mono
    fun _ ht _ => ht.synced

end Invariant

section Runs

instance syncedDecidable (s : TakenAtDb Bool) : Decidable s.Synced :=
  decidable_of_iff (∀ id ∈ s.files.domain, ∀ e ∈ s.files.committed id,
      e = effectiveTakenAt (s.exif.committed id) (s.stat.committed id)) <| by
    refine ⟨fun h id e he => h id ?_ e he, fun h id _ e he => h id e he⟩
    by_contra hid
    rw [(s.files.closed id hid).1] at he
    cases he

instance quiescentDecidable (s : TakenAtDb Bool) : Decidable s.Quiescent :=
  inferInstanceAs (Decidable (∀ i, s.tx i = .idle))

instance othersSettledDecidable {ρ : Type} (s : TakenAtDb Bool) (i : Bool)
    (t : Table FileID ρ Bool) (fileID : FileID) : Decidable (s.OthersSettled i t fileID) :=
  match h : t.pending fileID with
  | none => isTrue (by simp [OthersSettled, h])
  | some p => decidable_of_iff (p.1 = i ∨ s.files.pending fileID = some (p.1, none))
      (by simp [OthersSettled, h])

instance triggersAloneDecidable (s : TakenAtDb Bool) :
    (a : TakenAtAction Bool) → Decidable (s.TriggersAlone a)
  | .run i _ =>
    match h : s.tx i with
    | .trigger fileID => decidable_of_iff
        (s.OthersSettled i s.stat fileID ∧ s.OthersSettled i s.exif fileID)
        (by simp only [TriggersAlone, h])
    | .idle | .completeIndexQueue _ _ | .store _ _ | .checkForeignKey _ | .updateFile _ _
    | .deleteFile _ | .cascade _ _ | .commit _ => isTrue (by simp only [TriggersAlone, h])
  | .complete _ _ _ | .delete _ _ | .rollback _ => isTrue trivial

def oneNewFile : TakenAtDb Bool where
  queue := Table.ofRows [((.stat, 1), ()), ((.exif, 1), ())]
  files := Table.ofRows [(1, 0)]
  keyShare _ := []
  stat := Table.ofRows []
  exif := Table.ofRows []
  tx _ := .idle

def photoStat : StatResult := ⟨ascii "image/jpeg", 2048, 9⟩

def photoExif : ExifResult where
  skipped := false
  imageType := ascii "image/jpeg"
  cameraMake := []
  cameraModel := []
  cameraSerial := []
  lensMake := []
  lensModel := []
  takenAt := some 5
  iso := none
  fNumber := none
  exposureTime := none
  focalLength := none
  focalLength35mm := none
  exposureProgram := none
  meteringMode := none
  flash := none
  orientation := none
  imageWidth := none
  imageHeight := none
  gpsLatitude := none
  gpsLongitude := none
  gpsAltitude := none
  gpsAt := none
  software := []
  artist := []
  copyright := []
  imageDescription := []
  xmpTitle := []
  xmpDescription := []
  xmpCreator := []
  xmpLabel := []
  xmpRating := none
  xmpKeywords := none
  xmpCreateDate := none
  hasExif := true
  hasXmp := false

def runs (i : Bool) (n : Nat) : List (TakenAtAction Bool) := List.replicate n (.run i 20)

theorem stat_overwrites_taken_at : oneNewFile.Initial ∧ oneNewFile.Synced ∧
    ¬Transition.EveryState step (fun s => s.Quiescent → s.Synced) oneNewFile
      (TakenAtAction.complete true 1 (.exif photoExif) :: runs true 5 ++
        TakenAtAction.complete false 1 (.stat photoStat) :: runs false 4 ++
        runs true 1 ++ runs false 2) :=
  ⟨⟨fun _ => rfl, fun _ => rfl, fun _ => rfl, fun _ => rfl⟩, by decide, by decide⟩

theorem effective_taken_at_synced_in_turn :
    Transition.EveryState step (fun s => s.Quiescent → s.Synced) oneNewFile
      (TakenAtAction.complete true 1 (.exif photoExif) :: runs true 6 ++
        TakenAtAction.complete false 1 (.stat photoStat) :: runs false 6 ++
        TakenAtAction.delete false 1 :: runs false 7) :=
  effective_taken_at_synced _ ⟨fun _ => rfl, fun _ => rfl, fun _ => rfl, fun _ => rfl⟩ (by decide) _
    (by decide)

end Runs

end TakenAtDb

end FileIndexer
