import FileIndexer.Database.Transactions

namespace FileIndexer

open ReadCommitted

namespace TxState

def todo : TxState → Finset Key
  | .prune _ added | .pruning _ _ added => (Directories.impliedPaths added).toFinset
  | .upserting paths => paths.toFinset
  | _ => ∅

def fresh : TxState → Bool
  | .idle | .begun _ | .keyRead _ _ _ => true
  | _ => false

theorem todo_of_fresh {x : TxState} (h : x.fresh = true) : x.todo = ∅ := by
  cases x <;> first | rfl | cases h

end TxState

namespace Postgres

variable {ι : Type}

structure Initial (s : Postgres ι) : Prop where
  tx : ∀ i, s.tx i = .idle
  files : ∀ id, s.files.pending id = none
  directories : ∀ path, s.directories.pending path = none

def AncestorsPresent (s : Postgres ι) : Prop :=
  ∀ id f, s.files.committed id = some f → ∀ path, Holds path f.key →
    s.directories.committed path ≠ none

variable [DecidableEq ι]

def PrunesUnused (s : Postgres ι) : TxAction ι → Prop
  | .run i n =>
    match s.tx i with
    | .pruning seen candidates _ => ∀ c ∈ candidates[n]?, Directories.occupied seen c.1 = false →
        s.directories.view i c.1 = some c.2 →
          (∀ f ∈ s.files.rows i, Holds c.1 f.key → f ∈ seen) ∧
          ∀ id ∈ s.files.domain, ∀ p ∈ s.files.pending id, p.1 ≠ i → ∀ f ∈ p.2, Holds c.1 f.key →
            c.1 ∈ (s.tx p.1).todo
    | _ => True
  | _ => True

structure Inv (s : Postgres ι) : Prop where
  present : s.AncestorsPresent
  covered : ∀ id i f, s.files.pending id = some (i, some f) → ∀ path, Holds path f.key →
    path ∈ (s.tx i).todo ∨ (s.directories.view i path ≠ none ∧ s.directories.writable i path = true)
  unused : ∀ path i, s.directories.pending path = some (i, none) → ∀ id f,
    s.files.view i id = some f → ¬Holds path f.key
  unwritten : ∀ i, (s.tx i).fresh = true → (∀ id w, s.files.pending id ≠ some (i, w)) ∧
    ∀ path w, s.directories.pending path ≠ some (i, w)

theorem Inv.goto {s : Postgres ι} (h : s.Inv) {i : ι} {next : TxState}
    (htodo : (s.tx i).todo ⊆ next.todo) (hfresh : next.fresh = true → (s.tx i).fresh = true) :
    (s.goto i next).Inv := by
  refine ⟨h.present, fun id j f hf path hp => ?_, h.unused, fun j hj => ?_⟩
  · by_cases hij : j = i
    · subst hij
      refine (h.covered id j f hf path hp).imp_left fun hmem => ?_
      simpa [Postgres.goto] using htodo hmem
    · simpa [Postgres.goto, hij] using h.covered id j f hf path hp
  · by_cases hij : j = i
    · subst hij
      exact h.unwritten j (hfresh (by simpa [Postgres.goto] using hj))
    · exact h.unwritten j (by simpa [Postgres.goto, hij] using hj)

theorem Inv.rollback {s : Postgres ι} (h : s.Inv) (i : ι) : (s.rollback i).Inv := by
  refine ⟨h.present, fun id j f hf path hp => ?_, fun path j hpend id f hf => ?_, fun j hj => ?_⟩
  · obtain ⟨hpend, hij⟩ := Table.pending_rollback_iff.mp hf
    rcases h.covered id j f hpend path hp with hmem | ⟨hview, hw⟩
    · exact Or.inl (by simpa [Postgres.rollback, hij] using hmem)
    · exact Or.inr ⟨(Table.view_rollback hij).symm ▸ hview, Table.writable_rollback hw⟩
  · obtain ⟨hpend', hij⟩ := Table.pending_rollback_iff.mp hpend
    exact h.unused path j hpend' id f ((Table.view_rollback hij).symm.trans hf)
  · by_cases hij : j = i
    · exact ⟨fun id w hw => (Table.pending_rollback_iff.mp hw).2 hij,
        fun path w hw => (Table.pending_rollback_iff.mp hw).2 hij⟩
    · obtain ⟨hfiles, hdirs⟩ := h.unwritten j (by simpa [Postgres.rollback, hij] using hj)
      exact ⟨fun id w hw => hfiles id w (Table.pending_rollback_iff.mp hw).1,
        fun path w hw => hdirs path w (Table.pending_rollback_iff.mp hw).1⟩

theorem Inv.commit {s : Postgres ι} (h : s.Inv) {i : ι} (htodo : (s.tx i).todo = ∅) :
    (s.commit i).Inv := by
  have hown (id : FileID) (f : File) (hf : s.files.pending id = some (i, some f)) (path : Key)
      (hp : Holds path f.key) : s.directories.view i path ≠ none ∧
        s.directories.writable i path = true :=
    (h.covered id i f hf path hp).resolve_left (by simp [htodo])
  refine ⟨fun id f hf path hp => ?_, fun id j f hf path hp => ?_, fun path j hpend id f hf hp => ?_,
    fun j hj => ?_⟩
  · change s.files.view i id = some f at hf
    change s.directories.view i path ≠ none
    rcases Table.view_cases s.files i id with hcom | hpend
    · rcases Table.view_cases s.directories i path with hdir | hdir
      · rw [hdir]
        exact h.present id f (hcom.symm.trans hf) path hp
      · intro hnone
        rw [hnone] at hdir
        exact h.unused path i hdir id f hf hp
    · exact (hown id f (hf ▸ hpend) path hp).1
  · obtain ⟨hpend, hij⟩ := Table.pending_commit_iff.mp hf
    rcases h.covered id j f hpend path hp with hmem | ⟨hview, hw⟩
    · exact Or.inl (by simpa [Postgres.commit, hij] using hmem)
    · exact Or.inr ⟨(Table.view_commit_of_writable hij hw).symm ▸ hview, Table.writable_commit hw⟩
  · obtain ⟨hpend', hij⟩ := Table.pending_commit_iff.mp hpend
    rcases Table.view_commit_cases (t := s.files) (k := id) hij with hview | hmine
    · exact h.unused path j hpend' id f (hview.symm.trans hf) hp
    · rw [show (s.files.commit i).view j id = some f from hf] at hmine
      exact hij (Table.writable_iff.mp (hown id f hmine path hp).2 j none hpend')
  · by_cases hij : j = i
    · exact ⟨fun id w hw => (Table.pending_commit_iff.mp hw).2 hij,
        fun path w hw => (Table.pending_commit_iff.mp hw).2 hij⟩
    · obtain ⟨hfiles, hdirs⟩ := h.unwritten j (by simpa [Postgres.commit, hij] using hj)
      exact ⟨fun id w hw => hfiles id w (Table.pending_commit_iff.mp hw).1,
        fun path w hw => hdirs path w (Table.pending_commit_iff.mp hw).1⟩

theorem Inv.wrote {s : Postgres ι} (h : s.Inv) {i : ι} {files : Table FileID File ι}
    {nextId : FileID} {next : TxState} (hfresh : (s.tx i).fresh = true) (hnext : next.fresh = false)
    (hw : Table.WrittenBy i (fun f => ∀ path, Holds path f.key → path ∈ next.todo) s.files files) :
    (s.wrote i files nextId next).Inv := by
  obtain ⟨hnofile, hnodir⟩ := h.unwritten i hfresh
  refine ⟨fun id f hf => h.present id f (hw.committed ▸ hf), fun id j f hf path hp => ?_,
    fun path j hpend id f hf => ?_, fun j hj => ?_⟩
  · by_cases hij : j = i
    · subst hij
      rcases hw.own id f hf with hold | hnew
      · exact absurd hold (hnofile id _)
      · exact Or.inl (by simpa [Postgres.wrote, Postgres.goto] using hnew path hp)
    · have hold := (hw.others id j _ hij).mp hf
      simpa [Postgres.wrote, Postgres.goto, hij] using h.covered id j f hold path hp
  · by_cases hij : j = i
    · subst hij
      exact absurd hpend (hnodir path _)
    · exact h.unused path j hpend id f ((hw.view hij id).symm.trans hf)
  · by_cases hij : j = i
    · subst hij
      rw [show (s.wrote j files nextId next).tx j = next by simp [Postgres.wrote, Postgres.goto],
        hnext] at hj
      cases hj
    · obtain ⟨hfiles, hdirs⟩ := h.unwritten j (by simpa [Postgres.wrote, Postgres.goto, hij] using hj)
      exact ⟨fun id w hp => hfiles id w ((hw.others id j w hij).mp hp), hdirs⟩

theorem not_holds_of_seen {seen : List File} {path : Key}
    (hseen : Directories.occupied seen path = false) {f : File} (hf : f ∈ seen) :
    ¬Holds path f.key := by
  intro hp
  have hocc := (Directories.occupied_iff hp.2.1).mpr ⟨f, hf, hp⟩
  rw [hseen] at hocc
  cases hocc

theorem Inv.pruneRow {s t : Postgres ι} (h : s.Inv) {i : ι} {seen : List File} {path : Key}
    {row : Nat} {next : TxState} (ht : s.pruneRow i seen path row next = some t)
    (htodo : next.todo = (s.tx i).todo) (hnext : next.fresh = false)
    (hunused : Directories.occupied seen path = false → s.directories.view i path = some row →
      (∀ f ∈ s.files.rows i, Holds path f.key → f ∈ seen) ∧
      ∀ id ∈ s.files.domain, ∀ p ∈ s.files.pending id, p.1 ≠ i → ∀ f ∈ p.2, Holds path f.key →
        path ∈ (s.tx p.1).todo) : t.Inv := by
  have hgoto : (s.goto i next).Inv := h.goto (by rw [htodo]) (by simp [hnext])
  unfold Postgres.pruneRow at ht
  split_ifs at ht with hocc _ hview
  · exact Option.some.inj ht ▸ hgoto
  · obtain ⟨directories, hdel, rfl⟩ := Option.map_eq_some_iff.mp ht
    rw [Bool.not_eq_true] at hocc
    obtain ⟨hseen, hothers⟩ := hunused hocc hview
    have hmine (id : FileID) (f : File) (hf : s.files.view i id = some f) : ¬Holds path f.key :=
      fun hp => not_holds_of_seen hocc (hseen f (Table.mem_rows hf) hp) hp
    obtain ⟨-, hcommitted, -⟩ := Table.tryWrite_some hdel
    refine ⟨fun id f hf p hp => ?_, fun id j f hf p hp => ?_, fun p j hpend id f hf => ?_,
      fun j hj => ?_⟩
    · exact (congrFun hcommitted p).symm ▸ h.present id f hf p hp
    · by_cases hpath : p = path
      · subst hpath
        by_cases hij : j = i
        · subst hij
          exact absurd hp (hmine id f (Table.view_of_pending hf))
        · have hpend : s.files.pending id = some (j, some f) := hf
          have hdom : id ∈ s.files.domain := by
            by_contra hid
            rw [(s.files.closed id hid).2] at hpend
            cases hpend
          refine Or.inl ?_
          simpa [Postgres.goto, hij] using hothers id hdom _ hpend hij f rfl hp
      · refine (hgoto.covered id j f hf p hp).imp_right (And.imp (fun hv => ?_) fun hw => ?_)
        · exact (Table.view_tryWrite_of_ne hdel hpath).symm ▸ hv
        · exact (Table.writable_tryWrite_of_ne hdel hpath).trans hw
    · rcases Table.pending_tryWrite_cases hdel hpend with ⟨rfl, rfl, -⟩ | ⟨-, hold⟩
      · exact hmine id f hf
      · exact h.unused p j hold id f hf
    · obtain ⟨hfiles, hdirs⟩ := hgoto.unwritten j hj
      refine ⟨hfiles, fun p w hp => ?_⟩
      rcases Table.pending_tryWrite_cases hdel hp with ⟨-, rfl, -⟩ | ⟨-, hold⟩
      · simp [Postgres.goto, hnext] at hj
      · exact hdirs p w hold
  · exact Option.some.inj ht ▸ hgoto

theorem Inv.upsertRow {s t : Postgres ι} (h : s.Inv) {i : ι} {path : Key} {next : TxState}
    (ht : s.upsertRow i path next = some t)
    (htodo : ∀ p ∈ (s.tx i).todo, p = path ∨ p ∈ next.todo) (hnext : next.fresh = false) : t.Inv := by
  have hself : (s.goto i next).tx i = next := by simp [Postgres.goto]
  have hother (j : ι) (hij : j ≠ i) : (s.goto i next).tx j = s.tx j := by simp [Postgres.goto, hij]
  have hunwritten (j : ι) (hj : ((s.goto i next).tx j).fresh = true) : j ≠ i ∧
      (s.tx j).fresh = true := by
    by_cases hij : j = i
    · rw [hij, hself, hnext] at hj
      cases hj
    · exact ⟨hij, hother j hij ▸ hj⟩
  unfold Postgres.upsertRow at ht
  split_ifs at ht with hheld hview
  · obtain ⟨directories, hins, rfl⟩ := Option.map_eq_some_iff.mp ht
    obtain ⟨hw, hcommitted, -⟩ := Table.tryWrite_some hins
    refine ⟨fun id f hf p hp => ?_, fun id j f hf p hp => ?_, fun p j hpend id f hf => ?_,
      fun j hj => ?_⟩
    · exact (congrFun hcommitted p).symm ▸ h.present id f hf p hp
    · have hold := h.covered id j f hf p hp
      by_cases hpath : p = path
      · subst hpath
        by_cases hij : j = i
        · subst hij
          exact Or.inr ⟨by simp [Postgres.goto, Table.view_tryWrite hins],
            Table.writable_tryWrite hins⟩
        · rcases hold with hmem | ⟨hv, hwj⟩
          · exact Or.inl ((hother j hij).symm ▸ hmem)
          · exact absurd ((Table.view_eq_of_writable hw hwj hij).trans hview) hv
      · rcases hold with hmem | ⟨hv, hwj⟩
        · by_cases hij : j = i
          · subst hij
            exact Or.inl (hself.symm ▸ (htodo p hmem).resolve_left hpath)
          · exact Or.inl ((hother j hij).symm ▸ hmem)
        · exact Or.inr ⟨(Table.view_tryWrite_of_ne hins hpath).symm ▸ hv,
            (Table.writable_tryWrite_of_ne hins hpath).trans hwj⟩
    · rcases Table.pending_tryWrite_cases hins hpend with ⟨-, -, hnone⟩ | ⟨-, hold⟩
      · cases hnone
      · exact h.unused p j hold id f hf
    · obtain ⟨hij, hj'⟩ := hunwritten j hj
      obtain ⟨hfiles, hdirs⟩ := h.unwritten j hj'
      refine ⟨hfiles, fun p w hp => ?_⟩
      rcases Table.pending_tryWrite_cases hins hp with ⟨-, he, -⟩ | ⟨-, hold⟩
      · exact hij he
      · exact hdirs p w hold
  · obtain rfl := Option.some.inj ht
    refine ⟨h.present, fun id j f hf p hp => ?_, h.unused, fun j hj => ?_⟩
    · have hold := h.covered id j f hf p hp
      by_cases hij : j = i
      · subst hij
        rcases hold with hmem | hdir
        · rcases htodo p hmem with rfl | hnext
          · have hw : s.directories.writable j p = true := by simpa using hheld
            exact Or.inr ⟨hview, hw⟩
          · exact Or.inl (hself.symm ▸ hnext)
        · exact Or.inr hdir
      · exact hold.imp_left fun hmem => (hother j hij).symm ▸ hmem
    · exact h.unwritten j (hunwritten j hj).2

section Statements

variable {i : ι} {t t' : Table FileID File ι} {P : File → Prop}

theorem writtenBy_upsertRow {now : Time} {s s' : Table FileID File ι × FileID} {row : Key × Time}
    (h : upsertRowStatement i now s row = some s') (hP : ∀ f : File, f.key = row.1 → P f) :
    Table.WrittenBy i P s.1 s'.1 := by
  unfold upsertRowStatement at h
  split at h
  · cases h
  · split at h
    · obtain ⟨t, ht, rfl⟩ := Option.map_eq_some_iff.mp h
      refine Table.writtenBy_tryWrite ht fun r hr => hP r ?_
      rw [← Option.some.inj hr]
    · rename_i f hf
      obtain ⟨t, ht, rfl⟩ := Option.map_eq_some_iff.mp h
      refine Table.writtenBy_tryWrite ht fun r hr => hP r ?_
      rw [← Option.some.inj hr, Files.touched_key]
      simpa using List.find?_some hf

theorem writtenBy_upsertFiles {now : Time} {arg : UpsertFilesParams}
    {s s' : Table FileID File ι × FileID} (h : upsertFilesStatement i now arg s = some s')
    (hP : ∀ f : File, f.key ∈ arg.map Prod.fst → P f) : Table.WrittenBy i P s.1 s'.1 := by
  refine Table.writtenBy_foldlM Prod.fst _ (fun row hrow u u' hu => ?_) h
  refine writtenBy_upsertRow hu fun f hf => hP f ?_
  rw [hf, ← Files.mem_groupByKey]
  exact List.mem_map_of_mem hrow

theorem writtenBy_delete {p : File → Bool} (h : deleteStatement i t p = some t') :
    Table.WrittenBy i P t t' :=
  Table.writtenBy_foldlM (fun t => t) _ (fun _ _ _ _ hu => Table.writtenBy_tryWrite hu (by simp)) h

theorem writtenBy_updateFileKey {f : File} {key : Key}
    (h : updateFileKeyStatement i t f key = .ok (some t')) (hP : ∀ g : File, g.key = key → P g) :
    Table.WrittenBy i P t t' := by
  unfold updateFileKeyStatement at h
  split_ifs at h
  · cases h
  · refine Table.writtenBy_tryWrite (Except.ok.inj h) fun r hr => hP r ?_
    rw [← Option.some.inj hr]

end Statements

theorem Inv.runStatement {s t : Postgres ι} (h : s.Inv) {i : ι} {n : Nat}
    (ht : s.runStatement i n (s.tx i) = some t) (hok : s.PrunesUnused (.run i n)) : t.Inv := by
  cases hx : s.tx i with
  | idle => simp [hx, Postgres.runStatement] at ht
  | begun op =>
    rw [hx] at ht
    have hfresh : (s.tx i).fresh = true := by rw [hx]; rfl
    cases op with
    | upsertFiles now arg =>
      obtain ⟨⟨files, nextId⟩, hup, rfl⟩ := Option.map_eq_some_iff.mp ht
      refine h.wrote hfresh rfl (writtenBy_upsertFiles hup fun f hf path hp => ?_)
      exact List.mem_toFinset.mpr (Directories.mem_impliedPaths.mpr ⟨f.key, hf, hp⟩)
    | deleteFile id =>
      simp only [Postgres.runStatement] at ht
      split at ht
      · exact Option.some.inj ht ▸ h.rollback i
      · obtain ⟨files, hdel, rfl⟩ := Option.map_eq_some_iff.mp ht
        exact h.wrote hfresh rfl (Table.writtenBy_tryWrite hdel (by simp))
    | moveFile id newKey =>
      simp only [Postgres.runStatement] at ht
      split at ht
      · exact Option.some.inj ht ▸ h.rollback i
      · obtain rfl := Option.some.inj ht
        exact h.goto (by simp [TxState.todo_of_fresh hfresh]) fun _ => hfresh
    | deleteFilesByIDs ids keys =>
      obtain ⟨files, hdel, rfl⟩ := Option.map_eq_some_iff.mp ht
      exact h.wrote hfresh rfl (writtenBy_delete hdel)
    | deleteUnseenFiles cutoff =>
      obtain ⟨files, hdel, rfl⟩ := Option.map_eq_some_iff.mp ht
      exact h.wrote hfresh rfl (writtenBy_delete hdel)
  | keyRead id newKey oldKey =>
    rw [hx] at ht
    simp only [Postgres.runStatement] at ht
    split at ht
    · exact Option.some.inj ht ▸ h.rollback i
    · split at ht
      · exact Option.some.inj ht ▸ h.rollback i
      · rename_i files hup
        obtain ⟨files, rfl, rfl⟩ := Option.map_eq_some_iff.mp ht
        refine h.wrote (by rw [hx]; rfl) rfl (writtenBy_updateFileKey hup fun f hf path hp => ?_)
        exact List.mem_toFinset.mpr
          (Directories.mem_impliedPaths.mpr ⟨newKey, List.mem_singleton_self _, hf ▸ hp⟩)
  | prune keys added =>
    rw [hx] at ht
    obtain rfl := Option.some.inj ht
    exact h.goto (by rw [hx]; exact Finset.Subset.refl _) (by simp [TxState.fresh])
  | pruning seen candidates added =>
    rw [hx] at ht
    cases candidates with
    | nil =>
      obtain rfl := Option.some.inj ht
      exact h.goto (by rw [hx]; exact Finset.Subset.refl _) (by simp [TxState.fresh])
    | cons c candidates =>
      simp only [Postgres.runStatement] at ht
      split at ht
      · cases ht
      · rename_i path row hc
        simp only [PrunesUnused, hx] at hok
        exact h.pruneRow ht (by rw [hx]; rfl) rfl (hok (path, row) hc)
  | upserting paths =>
    rw [hx] at ht
    cases paths with
    | nil =>
      obtain rfl := Option.some.inj ht
      exact h.commit (by rw [hx]; rfl)
    | cons p paths =>
      simp only [Postgres.runStatement] at ht
      split at ht
      · cases ht
      · rename_i path hpath
        refine h.upsertRow ht (fun q hq => ?_) rfl
        rw [hx, TxState.todo, List.mem_toFinset] at hq
        obtain ⟨m, hm⟩ := List.mem_iff_getElem?.mp hq
        by_cases hmn : m = n
        · subst hmn
          exact Or.inl (Option.some.inj (hm.symm.trans hpath))
        · exact Or.inr (List.mem_toFinset.mpr (List.mem_eraseIdx_iff_getElem?.mpr ⟨m, hmn, hm⟩))

theorem inv_preserved : Transition.Preserves Postgres.step PrunesUnused (Inv (ι := ι)) := by
  intro s a t hs hok ht
  cases a with
  | begin i op =>
    simp only [Postgres.step] at ht
    split at ht
    · rename_i hx
      obtain rfl := Option.some.inj ht
      exact hs.goto (by rw [hx]; exact Finset.empty_subset _) fun _ => by rw [hx]; rfl
    · cases ht
  | run i n => exact hs.runStatement ht hok
  | rollback i => exact Option.some.inj ht ▸ hs.rollback i

theorem ancestors_present (s : Postgres ι) (hs : s.Initial) (hpresent : s.AncestorsPresent)
    (as : List (TxAction ι)) (hok : Transition.EveryStep Postgres.step PrunesUnused s as) :
    Transition.EveryState Postgres.step AncestorsPresent s as := by
  refine (Transition.everyState_of_preserves inv_preserved as ⟨hpresent, ?_, ?_, ?_⟩ hok).mono
    fun t ht => ht.present
  · intro id i f hf
    rw [hs.files id] at hf
    cases hf
  · intro path i hp
    rw [hs.directories path] at hp
    cases hp
  · intro i _
    exact ⟨fun id w => by simp [hs.files id], fun path w => by simp [hs.directories path]⟩

section Runs

instance ancestorsPresentDecidable (s : Postgres Bool) : Decidable s.AncestorsPresent :=
  decidable_of_iff (∀ id ∈ s.files.domain, ∀ f ∈ s.files.committed id,
      ∀ path ∈ Directories.impliedPaths [f.key], s.directories.committed path ≠ none) <| by
    simp only [Directories.mem_impliedPaths, List.mem_singleton, exists_eq_left]
    refine ⟨fun h id f hf path hp => h id ?_ f hf path hp, fun h id _ f hf path hp => h id f hf path hp⟩
    by_contra hid
    rw [(s.files.closed id hid).1] at hf
    cases hf

instance prunesUnusedDecidable (s : Postgres Bool) : (a : TxAction Bool) → Decidable (s.PrunesUnused a)
  | .run i n =>
    match h : s.tx i with
    | .pruning seen candidates _ => decidable_of_iff
        (∀ c ∈ candidates[n]?, Directories.occupied seen c.1 = false →
          s.directories.view i c.1 = some c.2 →
            (∀ f ∈ s.files.rows i, Holds c.1 f.key → f ∈ seen) ∧
            ∀ id ∈ s.files.domain, ∀ p ∈ s.files.pending id, p.1 ≠ i → ∀ f ∈ p.2, Holds c.1 f.key →
              c.1 ∈ (s.tx p.1).todo) (by simp only [PrunesUnused, h])
    | .idle | .begun _ | .keyRead _ _ _ | .prune _ _ | .upserting _ =>
      isTrue (by simp [PrunesUnused, h])
  | .begin _ _ | .rollback _ => isTrue trivial

def oneDirectory : Postgres Bool := ofRows [⟨1, ascii "d/a", 0, 0, 0⟩] 2 [ascii "d/"]

def uploadBegins : List (TxAction Bool) :=
  [.begin true (.upsertFiles 5 [(ascii "d/b", 5)]), .run true 0]

def deletePrunes : List (TxAction Bool) :=
  [.begin false (.deleteFile 1), .run false 0, .run false 0, .run false 0]

def deleteCommits : List (TxAction Bool) := [.run false 0, .run false 0]

theorem prune_passes_upload : oneDirectory.Initial ∧ oneDirectory.AncestorsPresent ∧
    ¬Transition.EveryState Postgres.step AncestorsPresent oneDirectory
      (uploadBegins ++ [TxAction.run true 0] ++ deletePrunes ++ deleteCommits ++
        [TxAction.run true 0]) :=
  ⟨⟨fun _ => rfl, fun _ => rfl, fun _ => rfl⟩, by decide, by decide⟩

theorem ancestors_present_upload_waiting :
    Transition.EveryState Postgres.step AncestorsPresent oneDirectory
      (uploadBegins ++ deletePrunes ++ deleteCommits ++ [TxAction.run true 0, TxAction.run true 0]) :=
  ancestors_present _ ⟨fun _ => rfl, fun _ => rfl, fun _ => rfl⟩ (by decide) _ (by decide)

end Runs

end Postgres

end FileIndexer
