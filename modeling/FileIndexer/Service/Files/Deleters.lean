import FileIndexer.Foundation.Runs
import FileIndexer.Service.Files.DeleteFile

namespace FileIndexer

structure Deleting (β : Type) where
  world : World β Unit
  mover : MoveState
  deleter : Deleter

inductive DeletingAction where
  | move
  | delete (pick : Nat)
  | tick (d : Nat)

inductive DeleteRequest where
  | file (id : FileID)
  | directory (path : Key)

def Deleter.start (indexPrefix : Key) : DeleteRequest → Deleter
  | .file id => .file id .getFile
  | .directory path => .directory path (.start indexPrefix path)

def MoveState.finished : MoveState → Bool
  | .done _ => true
  | _ => false

def MoveState.deletesOld : MoveState → Bool
  | .deleteOld _ _ _ => true
  | _ => false

def MoveState.settlesNew : MoveState → Bool
  | .moveFileWithDirectories _ _ | .rollbackDelete _ _ => true
  | _ => false

section System

variable {β : Type} (indexPrefix : Key) (req : MoveFileRequest)

def Deleting.step (s : Deleting β) : DeletingAction → Option (Deleting β)
  | .move => (moveFileStep indexPrefix req () .none s.world s.mover).map fun (w, m) =>
      { s with world := w, mover := m }
  | .delete pick => (s.deleter.step .none pick s.world).map fun (w, d) =>
      { s with world := w, deleter := d }
  | .tick d => some { s with world := { s.world with now := s.world.now + d } }

structure Deleting.Initial (oldKey : Key) (bytes : β) (s : Deleting β) : Prop where
  mover : s.mover = .getFile
  deleter : ∃ r, s.deleter = .start indexPrefix r
  row : (s.world.cell oldKey).owner = some req.id
  object : s.world.bucket.bytesAt oldKey = some bytes
  fresh : req.destinationKey ≠ oldKey → s.world.bucket.bytesAt req.destinationKey ≠ some bytes
  previews : ∀ id, s.world.previewKeys id ≠ some oldKey ∧
    s.world.previewKeys id ≠ some req.destinationKey

def Deleting.Finished (s : Deleting β) : Prop :=
  s.mover.finished = true ∧ s.deleter.finished = true

def Settled (oldKey : Key) (bytes : β) (w : World β Unit) : Prop :=
  match w.db.files.getFile req.id with
  | some f => w.bucket.bytesAt f.key = some bytes
  | none => w.bucket.bytesAt oldKey ≠ some bytes ∧ w.bucket.bytesAt req.destinationKey ≠ some bytes

def RowNotHeld (s : Deleting β) : DeletingAction → Prop
  | .move => s.mover.updatesRow = true → ∀ p ∈ s.deleter.held, p.1 ≠ req.id
  | _ => True

end System

section Invariant

variable {β : Type} {indexPrefix : Key} {req : MoveFileRequest} {oldKey : Key} {bytes : β}

def MoverAt (req : MoveFileRequest) (oldKey : Key) (bytes : β) (w : World β Unit) : MoveState → Prop
  | .getFile => oldKey ≠ req.destinationKey → (w.cell req.destinationKey).owner ≠ some req.id
  | .getFileByKey _ | .acquireMoveLocks _ _ | .getFileLocked _ =>
    oldKey ≠ req.destinationKey ∧ (w.cell req.destinationKey).owner ≠ some req.id
  | .getFileByKeyLocked _ cur => oldKey ≠ req.destinationKey ∧ cur = oldKey
  | .copy _ cur => oldKey ≠ req.destinationKey ∧ cur = oldKey ∧
      (w.cell req.destinationKey).owner = none
  | .moveFileWithDirectories _ cur => oldKey ≠ req.destinationKey ∧ cur = oldKey ∧
      (w.cell req.destinationKey).owner = none ∧
      ((w.cell oldKey).owner = some req.id → w.bucket.bytesAt req.destinationKey = some bytes)
  | .rollbackDelete _ _ => (w.cell req.destinationKey).owner = none
  | .deleteOld _ cur _ => oldKey ≠ req.destinationKey ∧ cur = oldKey ∧
      (w.cell oldKey).owner ≠ some req.id
  | _ => True

structure Tracked (req : MoveFileRequest) (oldKey : Key) (bytes : β) (w : World β Unit)
    (rows : List (FileID × Key)) (keys : List Key) (m : MoveState) : Prop where
  held : ∀ p ∈ rows, (w.cell p.2).owner = some p.1
  waiting : ∀ k ∈ keys, (∃ p ∈ rows, p.2 = k) ∨ (k ≠ oldKey ∧ k ≠ req.destinationKey)
  kept : ∀ k, (w.cell k).owner = some req.id → w.bucket.bytesAt k = some bytes ∨
    (w.bucket.bytesAt k = none ∧ ∃ p ∈ rows, p.1 = req.id)
  erased : ∀ p ∈ rows, p.1 = req.id → p.2 ∉ keys → w.bucket.bytesAt p.2 = none
  old : (w.cell oldKey).owner ≠ some req.id → w.bucket.bytesAt oldKey ≠ none → m.deletesOld = true
  new : (w.cell req.destinationKey).owner ≠ some req.id →
    w.bucket.bytesAt req.destinationKey = some bytes → m.settlesNew = true
  place : ∀ k, (w.cell k).owner = some req.id → k = oldKey ∨ k = req.destinationKey
  mover : MoverAt req oldKey bytes w m
  previews : ∀ id, w.previewKeys id ≠ some oldKey ∧ w.previewKeys id ≠ some req.destinationKey

variable {w w' : World β Unit} {rows rows' : List (FileID × Key)} {keys keys' : List Key}
  {m m' : MoveState} {old cur : Key} {e : DbError} {f : File}

theorem Tracked.advance (h : Tracked req oldKey bytes w rows keys m)
    (hcell : ∀ k, w'.cell k = w.cell k) (hprev : w'.previewKeys = w.previewKeys)
    (hold : m.deletesOld = true → m'.deletesOld = true)
    (hnew : m.settlesNew = true → m'.settlesNew = true)
    (hm : MoverAt req oldKey bytes w' m') : Tracked req oldKey bytes w' rows keys m' := by
  have hbytes (k : Key) : w'.bucket.bytesAt k = w.bucket.bytesAt k :=
    congrArg Cell.bytes (hcell k)
  refine ⟨?_, h.waiting, ?_, ?_, ?_, ?_, ?_, hm, hprev ▸ h.previews⟩
  · simpa only [hcell] using h.held
  · simpa only [hcell, hbytes] using h.kept
  · simpa only [hbytes] using h.erased
  · intro ho hb
    rw [hcell] at ho
    rw [hbytes] at hb
    exact hold (h.old ho hb)
  · intro ho hb
    rw [hcell] at ho
    rw [hbytes] at hb
    exact hnew (h.new ho hb)
  · simpa only [hcell] using h.place

theorem Tracked.copied (h : Tracked req oldKey bytes w rows keys (.copy old cur)) {o : Object β}
    (ho : w.bucket.lookup cur = some o) :
    Tracked req oldKey bytes { w with bucket := w.bucket.put w.now req.destinationKey o.bytes }
      rows keys (.moveFileWithDirectories old cur) := by
  obtain ⟨hne, rfl, hvac⟩ := h.mover
  have hbytes (k : Key) (hk : k ≠ req.destinationKey) :
      (w.bucket.put w.now req.destinationKey o.bytes).bytesAt k = w.bucket.bytesAt k := by
    rw [Bucket.bytesAt_put, if_neg hk]
  refine ⟨h.held, h.waiting, ?_, ?_, ?_, fun _ _ => rfl, h.place, ⟨hne, rfl, hvac, ?_⟩, h.previews⟩
  · intro k hk
    rw [hbytes k (World.ne_of_vacant hk hvac)]
    exact h.kept k hk
  · intro p hp hid hnot
    rw [hbytes _ (World.ne_of_vacant (h.held p hp) hvac)]
    exact h.erased p hp hid hnot
  · intro hown hb
    rw [hbytes _ hne] at hb
    exact absurd (h.old hown hb) (by simp [MoveState.deletesOld])
  · intro hown
    have hcur : w.bucket.bytesAt cur = some o.bytes := by simp [Bucket.bytesAt, ho]
    rcases h.kept cur hown with hb | ⟨hb, -⟩
    · rw [Bucket.bytesAt_put, if_pos rfl, ← hcur, hb]
    · exact absurd (hcur.symm.trans hb) (by simp)

theorem Tracked.moved (h : Tracked req oldKey bytes w rows keys (.moveFileWithDirectories old cur))
    {f : File} {db : Db} (hdb : w.db.moveFileWithDirectories req.id req.destinationKey = .ok (f, db))
    (hfree : ∀ p ∈ rows, p.1 ≠ req.id) :
    Tracked req oldKey bytes { w with db } rows keys (.deleteOld old cur f) := by
  obtain ⟨hne, rfl, hvac, hcopy⟩ := h.mover
  have hcur : (w.cell cur).owner = some req.id := by
    obtain ⟨g, hg, -⟩ := Db.moveFileWithDirectories_ok hdb
    have hown := World.owner_of_row hg
    rcases h.place g.key hown with hk | hk
    · exact hk ▸ hown
    · exact absurd hk (World.ne_of_vacant hown hvac)
  have hcell := World.cell_move hdb hcur
  refine ⟨?_, h.waiting, ?_, ?_, fun _ _ => rfl, ?_, ?_, ⟨hne, rfl, ?_⟩, h.previews⟩
  · intro p hp
    have hown := h.held p hp
    have hpc : p.2 ≠ cur := by
      intro he
      rw [he, hcur] at hown
      exact hfree p hp (Option.some.inj hown).symm
    rw [hcell]
    simp [World.ne_of_vacant hown hvac, hpc, hown]
  · intro k hk
    rw [hcell] at hk
    simp only at hk
    split_ifs at hk with hk1 hk2
    · exact Or.inl (hk1 ▸ hcopy hcur)
    · exact absurd (h.place k hk) (by simp [hk1, hk2])
  · intro p hp hid
    exact absurd hid (hfree p hp)
  · intro hown
    rw [hcell] at hown
    simp at hown
  · intro k hk
    rw [hcell] at hk
    simp only at hk
    split_ifs at hk with hk1 hk2
    · exact Or.inr hk1
    · exact h.place k hk
  · rw [hcell]
    simp [hne]

theorem Tracked.rolledBack (h : Tracked req oldKey bytes w rows keys (.rollbackDelete old e))
    (hm : MoverAt req oldKey bytes { w with bucket := w.bucket.delete req.destinationKey } m') :
    Tracked req oldKey bytes { w with bucket := w.bucket.delete req.destinationKey } rows keys m' := by
  have hvac : (w.cell req.destinationKey).owner = none := h.mover
  refine ⟨h.held, h.waiting, ?_, ?_, ?_, ?_, h.place, hm, h.previews⟩
  · intro k hk
    rw [Bucket.bytesAt_delete, if_neg (World.ne_of_vacant hk hvac)]
    exact h.kept k hk
  · intro p hp hid hnot
    rw [Bucket.bytesAt_delete, if_neg (World.ne_of_vacant (h.held p hp) hvac)]
    exact h.erased p hp hid hnot
  · intro hown hb
    rw [Bucket.bytesAt_delete] at hb
    split_ifs at hb
    · exact absurd rfl hb
    · exact absurd (h.old hown hb) (by simp [MoveState.deletesOld])
  · intro _ hb
    simp at hb

theorem Tracked.cleaned (h : Tracked req oldKey bytes w rows keys (.deleteOld old cur f))
    (hm : MoverAt req oldKey bytes { w with bucket := w.bucket.delete cur } m') :
    Tracked req oldKey bytes { w with bucket := w.bucket.delete cur } rows keys m' := by
  obtain ⟨hne, rfl, hgone⟩ := h.mover
  have hother (k : Key) (hk : (w.cell k).owner = some req.id) : k ≠ cur := by
    rintro rfl
    exact hgone hk
  refine ⟨h.held, h.waiting, ?_, ?_, ?_, ?_, h.place, hm, h.previews⟩
  · intro k hk
    rw [Bucket.bytesAt_delete, if_neg (hother k hk)]
    exact h.kept k hk
  · intro p hp hid hnot
    have hown := h.held p hp
    rw [hid] at hown
    rw [Bucket.bytesAt_delete, if_neg (hother _ hown)]
    exact h.erased p hp hid hnot
  · intro _ hb
    simp at hb
  · intro hown hb
    rw [Bucket.bytesAt_delete, if_neg (Ne.symm hne)] at hb
    exact absurd (h.new hown hb) (by simp [MoveState.settlesNew])

theorem Tracked.move (hstep : MoveStep indexPrefix req () .none w m w' m')
    (h : Tracked req oldKey bytes w rows keys m)
    (hfree : m.updatesRow = true → ∀ p ∈ rows, p.1 ≠ req.id) :
    Tracked req oldKey bytes w' rows keys m' := by
  cases hstep with
  | refused e hm =>
    rcases hm with rfl | ⟨old, rfl⟩ <;> exact h.advance (fun _ => rfl) rfl nofun nofun trivial
  | read hf hv =>
    rename_i f
    refine h.advance (fun _ => rfl) rfl nofun nofun ?_
    have hown := World.owner_of_getFile hf
    have hne : f.file.key ≠ req.destinationKey := by
      intro he
      simp only [validateDestination, he] at hv
      split_ifs at hv
    have hkey : f.file.key = oldKey := (h.place _ hown).resolve_right hne
    have hne' : oldKey ≠ req.destinationKey := hkey ▸ hne
    exact ⟨hne', h.mover hne'⟩
  | vacant hv => exact h.advance (fun _ => rfl) rfl nofun nofun h.mover
  | lockFailed e => exact h.advance (fun _ => rfl) rfl nofun nofun trivial
  | lockedAll => exact h.advance (fun _ => rfl) rfl nofun nofun h.mover
  | locked hfree => exact h.advance (fun _ => rfl) rfl nofun nofun h.mover
  | reread hf =>
    obtain ⟨hne, hnew⟩ := h.mover
    have hown := World.owner_of_getFile hf
    refine h.advance (fun _ => rfl) rfl nofun nofun ⟨hne, (h.place _ hown).resolve_right ?_⟩
    intro he
    exact hnew (he ▸ hown)
  | recheck hv =>
    exact h.advance (fun _ => rfl) rfl nofun nofun
      ⟨h.mover.1, h.mover.2, World.getFileByKey_eq_none_iff.mp hv⟩
  | abandoned e hm =>
    rcases hm with rfl | ⟨cur, rfl⟩ <;> exact h.advance (fun _ => rfl) rfl nofun nofun trivial
  | copyFailed e _ => exact h.advance (fun _ => rfl) rfl nofun nofun trivial
  | copied ho _ => exact h.copied ho
  | copyLost e _ hfault => cases hfault
  | moved hdb _ => exact h.moved hdb (hfree rfl)
  | movedLost _ hfault => cases hfault
  | conflict e he =>
    obtain ⟨-, -, hvac, -⟩ := h.mover
    obtain ⟨-, x, hx, hk⟩ := (Db.moveFileWithDirectories_error he).resolve_left fun hn => by simp at hn
    exact absurd hk (Files.ownerAt_eq_none_iff.mp hvac x hx)
  | moveFailed e he =>
    obtain ⟨-, -, hvac, -⟩ := h.mover
    exact h.advance (fun _ => rfl) rfl nofun (fun _ => rfl) hvac
  | rolledBack e => exact h.rolledBack trivial
  | cleaned => exact h.cleaned trivial
  | released hm =>
    rcases hm with ⟨f, rfl⟩ | ⟨e, rfl⟩ <;> exact h.advance (fun _ => rfl) rfl nofun nofun trivial
  | answered => exact h.advance (fun _ => rfl) rfl nofun nofun trivial

theorem MoverAt.fewer (h : MoverAt req oldKey bytes w m)
    (hown : ∀ k id, (w'.cell k).owner = some id → (w.cell k).owner = some id)
    (hb : w'.bucket.bytesAt req.destinationKey = w.bucket.bytesAt req.destinationKey ∨
      (w.cell req.destinationKey).owner ≠ none) : MoverAt req oldKey bytes w' m := by
  have hnone (hk : (w.cell req.destinationKey).owner = none) :
      (w'.cell req.destinationKey).owner = none := by
    cases ho : (w'.cell req.destinationKey).owner with
    | none => rfl
    | some id => exact absurd (hk.symm.trans (hown _ id ho)) (by simp)
  have hne (k : Key) (hk : (w.cell k).owner ≠ some req.id) : (w'.cell k).owner ≠ some req.id :=
    fun he => hk (hown k _ he)
  cases m with
  | getFile => exact fun h' => hne _ (h h')
  | getFileByKey old => exact ⟨h.1, hne _ h.2⟩
  | acquireMoveLocks old ks => exact ⟨h.1, hne _ h.2⟩
  | getFileLocked old => exact ⟨h.1, hne _ h.2⟩
  | getFileByKeyLocked old cur => exact h
  | copy old cur => exact ⟨h.1, h.2.1, hnone h.2.2⟩
  | moveFileWithDirectories old cur =>
    obtain ⟨hab, hcur, hvac, hcopy⟩ := h
    refine ⟨hab, hcur, hnone hvac, fun ho => ?_⟩
    rw [hb.resolve_right fun hs => hs hvac]
    exact hcopy (hown _ _ ho)
  | rollbackDelete old e => exact hnone h
  | deleteOld old cur f => exact ⟨h.1, h.2.1, hne _ h.2.2⟩
  | _ => trivial

theorem Tracked.read (h : Tracked req oldKey bytes w [] [] m)
    (hrows : ∀ p ∈ rows, (w.cell p.2).owner = some p.1 ∧ p.2 ∈ keys)
    (hkeys : ∀ k ∈ keys, (∃ p ∈ rows, p.2 = k) ∨ ∃ id, w.previewKeys id = some k) :
    Tracked req oldKey bytes w rows keys m := by
  refine ⟨fun p hp => (hrows p hp).1, ?_, ?_, ?_, h.old, h.new, h.place, h.mover, h.previews⟩
  · intro k hk
    refine (hkeys k hk).imp_right fun ⟨id, hid⟩ => ⟨?_, ?_⟩
    · rintro rfl
      exact (h.previews id).1 hid
    · rintro rfl
      exact (h.previews id).2 hid
  · intro k hk
    refine Or.inl ((h.kept k hk).resolve_right ?_)
    rintro ⟨-, p, hp, -⟩
    cases hp
  · intro p hp _ hnot
    exact absurd (hrows p hp).2 hnot

theorem Tracked.erase (h : Tracked req oldKey bytes w rows keys m) {key : Key} (hkey : key ∈ keys)
    (hsub : keys' ⊆ keys) (hsup : ∀ x ∈ keys, x = key ∨ x ∈ keys') :
    Tracked req oldKey bytes { w with bucket := w.bucket.delete key } rows keys' m := by
  refine ⟨h.held, fun k hk => h.waiting k (hsub hk), ?_, ?_, ?_, ?_, h.place, ?_, h.previews⟩
  · intro k hk
    rw [Bucket.bytesAt_delete]
    split_ifs with he
    · refine Or.inr ⟨rfl, ?_⟩
      subst he
      rcases h.waiting k hkey with ⟨p, hp, rfl⟩ | ⟨hold, hnew⟩
      · exact ⟨p, hp, Option.some.inj ((h.held p hp).symm.trans hk)⟩
      · exact absurd (h.place k hk) (by simp [hold, hnew])
    · exact h.kept k hk
  · intro p hp hid hnot
    rw [Bucket.bytesAt_delete]
    split_ifs with he
    · rfl
    · exact h.erased p hp hid fun hm => (hsup _ hm).elim he hnot
  · intro hown hb
    refine h.old hown fun hn => hb ?_
    rw [Bucket.bytesAt_delete, hn, ite_self]
  · intro hown hb
    refine h.new hown ?_
    rw [Bucket.bytesAt_delete] at hb
    split_ifs at hb
    exact hb
  · refine h.mover.fewer (fun _ _ ho => ho) ?_
    rcases h.waiting key hkey with ⟨p, hp, rfl⟩ | ⟨-, hnew⟩
    · by_cases he : p.2 = req.destinationKey
      · refine Or.inr ?_
        rw [← he, h.held p hp]
        simp
      · exact Or.inl (by rw [Bucket.bytesAt_delete, if_neg (Ne.symm he)])
    · exact Or.inl (by rw [Bucket.bytesAt_delete, if_neg (Ne.symm hnew)])

theorem Tracked.remove (h : Tracked req oldKey bytes w rows [] m) {db : Db}
    (hdb : db.files = w.db.files.deleteWhere (fun f => f.id ∈ rows.map Prod.fst)) :
    Tracked req oldKey bytes { w with db } [] [] m := by
  have howner (k : Key) : (World.cell { w with db } k).owner =
      ((w.cell k).owner).filter (· ∉ rows.map Prod.fst) := by
    simp only [World.cell, hdb, Files.ownerAt_deleteWhere]
  have hown (k : Key) (id : FileID) (hk : (World.cell { w with db } k).owner = some id) :
      (w.cell k).owner = some id ∧ id ∉ rows.map Prod.fst := by
    rw [howner, Option.filter_eq_some_iff] at hk
    exact ⟨hk.1, by simpa using hk.2⟩
  have hgone (k : Key) (hk : (World.cell { w with db } k).owner ≠ some req.id)
      (hk' : (w.cell k).owner = some req.id) : w.bucket.bytesAt k = none := by
    have hmem : req.id ∈ rows.map Prod.fst := by
      by_contra hnot
      refine hk ?_
      rw [howner, hk', Option.filter_eq_some_iff]
      exact ⟨rfl, by simpa using hnot⟩
    obtain ⟨p, hp, hid⟩ := List.mem_map.mp hmem
    have hpk : p.2 = k := World.owner_inj (hid ▸ h.held p hp) hk'
    exact hpk ▸ h.erased p hp hid (by simp)
  refine ⟨by simp, by simp, ?_, by simp, ?_, ?_, fun k hk => h.place k (hown k _ hk).1,
    h.mover.fewer (fun k id hk => (hown k id hk).1) (Or.inl rfl), h.previews⟩
  · intro k hk
    obtain ⟨hk, hnot⟩ := hown k _ hk
    refine Or.inl ((h.kept k hk).resolve_right ?_)
    rintro ⟨-, p, hp, hid⟩
    exact hnot (List.mem_map.mpr ⟨p, hp, hid⟩)
  · intro hold hb
    exact h.old (fun hk => hb (hgone _ hold hk)) hb
  · intro hnew hb
    refine h.new (fun hk => ?_) hb
    exact absurd (hb.symm.trans (hgone _ hnew hk)) (by simp)

theorem Tracked.missing {id : FileID} {k : Key} (h : Tracked req oldKey bytes w [(id, k)] [] m)
    (hrow : w.db.files.getFile id = none) : Tracked req oldKey bytes w [] [] m := by
  have hown := h.held (id, k) (List.mem_singleton_self _)
  obtain ⟨f, hf, -⟩ := World.getFile_of_owner hown
  exact absurd (hrow.symm.trans hf) (by simp)

theorem Tracked.delete (hstep : DeleteStep w rows keys w' rows' keys')
    (h : Tracked req oldKey bytes w rows keys m) : Tracked req oldKey bytes w' rows' keys' m := by
  cases hstep with
  | idle => exact h
  | missing hrow => exact h.missing hrow
  | read hrows hkeys => exact h.read hrows hkeys
  | erase hkey hsub hsup => exact h.erase hkey hsub hsup
  | ready => exact h
  | remove hdb => exact h.remove hdb

def Deleting.Consistent (req : MoveFileRequest) (oldKey : Key) (bytes : β) (s : Deleting β) : Prop :=
  Tracked req oldKey bytes s.world s.deleter.held s.deleter.waiting s.mover ∧
    s.deleter.unfailed = true

theorem held_start (indexPrefix : Key) (r : DeleteRequest) : (Deleter.start indexPrefix r).held = [] ∧
    (Deleter.start indexPrefix r).waiting = [] ∧ (Deleter.start indexPrefix r).unfailed = true := by
  cases r with
  | file id => exact ⟨rfl, rfl, rfl⟩
  | directory path =>
    simp only [Deleter.start, DeleteDirectoryState.start]
    split <;> exact ⟨rfl, rfl, rfl⟩

theorem Deleting.Initial.consistent {s : Deleting β} (h : s.Initial indexPrefix req oldKey bytes) :
    s.Consistent req oldKey bytes := by
  obtain ⟨r, hr⟩ := h.deleter
  obtain ⟨hheld, hwaiting, hunfailed⟩ := held_start indexPrefix r
  have hplace (k : Key) (hk : (s.world.cell k).owner = some req.id) : k = oldKey :=
    World.owner_inj hk h.row
  rw [Consistent, hr, hheld, hwaiting, h.mover]
  refine ⟨⟨by simp, by simp, ?_, by simp, ?_, ?_, fun k hk => Or.inl (hplace k hk), ?_,
    h.previews⟩, hunfailed⟩
  · intro k hk
    exact Or.inl (hplace k hk ▸ h.object)
  · intro ho
    exact absurd h.row ho
  · intro ho hb
    refine absurd hb (h.fresh ?_)
    rintro he
    exact ho (he ▸ h.row)
  · intro hne ho
    exact hne (hplace _ ho).symm

theorem Deleting.consistent_preserved : Transition.Preserves (Deleting.step indexPrefix req)
    (RowNotHeld req) (Deleting.Consistent req oldKey bytes) := by
  intro s a t hs hok ht
  cases a with
  | move =>
    obtain ⟨⟨w, m⟩, hwm, rfl⟩ := Option.map_eq_some_iff.mp ht
    exact ⟨hs.1.move (moveStep_of_step hwm) hok, hs.2⟩
  | delete pick =>
    obtain ⟨⟨w, d⟩, hwd, rfl⟩ := Option.map_eq_some_iff.mp ht
    obtain ⟨hstep, hd⟩ := deleteStep_of_step hwd hs.2
    exact ⟨hs.1.delete hstep, hd⟩
  | tick d =>
    obtain rfl := Option.some.inj ht
    exact ⟨hs.1.advance (fun _ => rfl) rfl id id (hs.1.mover.fewer (fun _ _ h => h) (.inl rfl)), hs.2⟩

theorem held_of_finished {d : Deleter} (h : d.finished = true) : d.held = [] := by
  cases d with
  | file id d => cases d <;> first | rfl | cases h
  | directory path d => cases d <;> first | rfl | cases h

theorem Deleting.Consistent.settled {s : Deleting β} (h : s.Consistent req oldKey bytes)
    (hf : s.Finished) : Settled req oldKey bytes s.world := by
  obtain ⟨hm, hd⟩ := hf
  obtain ⟨htrack, -⟩ := h
  rw [held_of_finished hd] at htrack
  have hstill : s.mover.deletesOld = false ∧ s.mover.settlesNew = false := by
    cases hs : s.mover <;> simp_all [MoveState.finished, MoveState.deletesOld, MoveState.settlesNew]
  unfold Settled
  split
  · rename_i f hrow
    refine (htrack.kept f.key (World.owner_of_row hrow)).resolve_right ?_
    rintro ⟨-, p, hp, -⟩
    cases hp
  · rename_i hrow
    have hgone (k : Key) : (s.world.cell k).owner ≠ some req.id := by
      intro hk
      obtain ⟨f, hf, -⟩ := World.getFile_of_owner hk
      exact absurd (hrow.symm.trans hf) (by simp)
    constructor
    · intro hb
      exact absurd (htrack.old (hgone _) (by simp [hb])) (by simp [hstill])
    · intro hb
      exact absurd (htrack.new (hgone _) hb) (by simp [hstill])

theorem delete_and_move_settle (s : Deleting β) (hs : s.Initial indexPrefix req oldKey bytes)
    (as : List DeletingAction)
    (hok : Transition.EveryStep (Deleting.step indexPrefix req) (RowNotHeld req) s as) :
    Transition.EveryState (Deleting.step indexPrefix req)
      (fun t => t.Finished → Settled req oldKey bytes t.world) s as :=
  (Transition.everyState_of_preserves Deleting.consistent_preserved as hs.consistent hok).mono
    fun _ ht => ht.settled

end Invariant

section Runs

instance finishedDecidable (s : Deleting String) : Decidable s.Finished :=
  inferInstanceAs (Decidable (_ = true ∧ _ = true))

instance settledDecidable (req : MoveFileRequest) (oldKey : Key) (bytes : String)
    (w : World String Unit) :
    Decidable (Settled req oldKey bytes w) :=
  match h : w.db.files.getFile req.id with
  | some f => decidable_of_iff (w.bucket.bytesAt f.key = some bytes) (by simp [Settled, h])
  | none => decidable_of_iff (w.bucket.bytesAt oldKey ≠ some bytes ∧
      w.bucket.bytesAt req.destinationKey ≠ some bytes) (by simp [Settled, h])

instance rowNotHeldDecidable (req : MoveFileRequest) (s : Deleting String) :
    (a : DeletingAction) → Decidable (RowNotHeld req s a)
  | .move => inferInstanceAs (Decidable (_ = true → ∀ p ∈ s.deleter.held, p.1 ≠ req.id))
  | .delete _ | .tick _ => isTrue trivial

def deletingPhoto (r : DeleteRequest) : Deleting String where
  world :=
    { db := ⟨⟨[⟨1, ascii "a/x", 0, 0, 0⟩], 2, by decide, by decide, by decide⟩, {ascii "a/"}⟩
      previewKeys id := if id = 1 then some (ascii ".index/previews/1.webp") else none
      bucket := (∅ : Bucket String).put 0 (ascii "a/x") "photo"
      locks _ := none
      now := 0 }
  mover := .getFile
  deleter := .start (ascii ".index/") r

def moveThrough (n : Nat) : List DeletingAction := List.replicate n .move

def deleteThrough (n : Nat) : List DeletingAction := List.replicate n (.delete 0)

theorem previews_apart (r : DeleteRequest) (id : FileID) :
    (deletingPhoto r).world.previewKeys id ≠ some (ascii "a/x") ∧
      (deletingPhoto r).world.previewKeys id ≠ some (ascii "b/x") := by
  by_cases hid : id = 1 <;> simp only [deletingPhoto, hid, if_true, if_false] <;> decide

theorem moved_file_left_behind :
    (deletingPhoto (.file 1)).Initial (ascii ".index/") ⟨1, ascii "b/x"⟩ (ascii "a/x") "photo" ∧
    ¬Transition.EveryState (Deleting.step (ascii ".index/") ⟨1, ascii "b/x"⟩)
      (fun t => t.Finished → Settled ⟨1, ascii "b/x"⟩ (ascii "a/x") "photo" t.world)
      (deletingPhoto (.file 1)) (deleteThrough 1 ++ moveThrough 12 ++ deleteThrough 3) :=
  ⟨⟨rfl, ⟨.file 1, rfl⟩, by decide, by decide, by decide, previews_apart _⟩, by decide⟩

theorem delete_and_move_settle_directory :
    Transition.EveryState (Deleting.step (ascii ".index/") ⟨1, ascii "b/x"⟩)
      (fun t => t.Finished → Settled ⟨1, ascii "b/x"⟩ (ascii "a/x") "photo" t.world)
      (deletingPhoto (.directory (ascii "a/")))
      (moveThrough 8 ++ deleteThrough 5 ++ moveThrough 3) :=
  delete_and_move_settle _
    ⟨rfl, ⟨.directory (ascii "a/"), rfl⟩, by decide, by decide, by decide, previews_apart _⟩ _
    (by decide)

end Runs

end FileIndexer
