import FileIndexer.Foundation.Paging
import FileIndexer.Service.Files.World

namespace FileIndexer

structure Walk where
  cutoff : Time
  after : Option Key
  page : List ObjectInfo
  isTruncated : Bool
  batch : UpsertFilesParams

inductive Crawl where
  | databaseNow
  | walking (walk : Walk)
  | finished (deleted : Nat)

def defaultBatchSize : Nat := 500

section Step

variable {β ι : Type}

def Walk.fetch (c : Walk) (pageSize : Nat) (b : Bucket β) : Walk :=
  let page := Paging.page ObjectInfo.key c.after pageSize b.objects
  { c with
    after := Paging.next ObjectInfo.key c.after page
    page
    isTruncated := Paging.isTruncated ObjectInfo.key c.after pageSize b.objects }

def Walk.visit (ignorePrefix : Key) (c : Walk) (info : ObjectInfo) (page : List ObjectInfo) : Walk :=
  if underPrefix ignorePrefix info.key then { c with page }
  else { c with page, batch := c.batch ++ [(info.key, info.lastModified)] }

def flush (w : World β ι) (c : Walk) : World β ι × Walk :=
  match w.db.upsertFilesWithDirectories w.now c.batch with
  | .ok (_, db) => ({ w with db }, { c with batch := [] })
  | .error _ => (w, c)

def crawlStep (ignorePrefix : Key) (batchSize pageSize : Nat) (w : World β ι) :
    Crawl → Option (World β ι × Crawl)
  | .databaseNow => some (w, .walking ⟨w.now, none, [], true, []⟩)
  | .walking c =>
    if c.batch ≠ [] ∧ batchSize ≤ c.batch.length then
      some ((flush w c).1, .walking (flush w c).2)
    else match c.page with
      | info :: page => some (w, .walking (c.visit ignorePrefix info page))
      | [] =>
        if c.isTruncated then some (w, .walking (c.fetch pageSize w.bucket))
        else if c.batch ≠ [] then some ((flush w c).1, .walking (flush w c).2)
        else match w.db.deleteUnseenFilesWithDirectories c.cutoff with
          | .ok (n, db) => some ({ w with db }, .finished n)
          | .error _ => none
  | .finished _ => none

end Step

section Inversion

variable {β ι : Type} {ignorePrefix : Key} {batchSize pageSize : Nat}

inductive CrawlStep (ignorePrefix : Key) (pageSize : Nat) (w : World β ι) :
    Crawl → World β ι → Crawl → Prop
  | started : CrawlStep ignorePrefix pageSize w .databaseNow w (.walking ⟨w.now, none, [], true, []⟩)
  | flushed {c n db} : w.db.upsertFilesWithDirectories w.now c.batch = .ok (n, db) →
      CrawlStep ignorePrefix pageSize w (.walking c) { w with db } (.walking { c with batch := [] })
  | visited {c : Walk} {info page} : c.page = info :: page →
      CrawlStep ignorePrefix pageSize w (.walking c) w (.walking (c.visit ignorePrefix info page))
  | fetched {c : Walk} : c.page = [] → c.isTruncated = true →
      CrawlStep ignorePrefix pageSize w (.walking c) w (.walking (c.fetch pageSize w.bucket))
  | swept {c : Walk} {n db} : c.page = [] → c.isTruncated = false → c.batch = [] →
      w.db.deleteUnseenFilesWithDirectories c.cutoff = .ok (n, db) →
      CrawlStep ignorePrefix pageSize w (.walking c) { w with db } (.finished n)

theorem flushed_flush (w : World β ι) (c : Walk) :
    CrawlStep ignorePrefix pageSize w (.walking c) (flush w c).1 (.walking (flush w c).2) := by
  have hflush : flush w c = ({ w with db := ⟨(w.db.files.upsertFiles w.now c.batch).2,
      Directories.upsertDirectoriesForKeys w.db.directories (c.batch.map Prod.fst)⟩ },
      { c with batch := [] }) := rfl
  rw [hflush]
  exact .flushed (n := (w.db.files.upsertFiles w.now c.batch).1) rfl

theorem crawlStep_of_step {w w' : World β ι} {c c' : Crawl}
    (h : crawlStep ignorePrefix batchSize pageSize w c = some (w', c')) :
    CrawlStep ignorePrefix pageSize w c w' c' := by
  cases c with
  | databaseNow => cases h; exact .started
  | walking c =>
    simp only [crawlStep] at h
    split at h
    · cases h; exact flushed_flush w c
    · split at h
      · rename_i info page hpage
        cases h; exact .visited hpage
      · rename_i hpage
        split at h
        · rename_i hmore
          cases h; exact .fetched hpage hmore
        · rename_i hmore
          split at h
          · cases h; exact flushed_flush w c
          · rename_i hbatch
            split at h
            · rename_i n db hdb
              cases h
              exact .swept hpage (by simpa using hmore) (by simpa using hbatch) hdb
            · cases h
  | finished n => cases h

end Inversion

def Walk.pending (c : Walk) (key : Key) : Prop :=
  (∃ info ∈ c.page, info.key = key) ∨ key ∈ c.batch.map Prod.fst ∨
    (c.isTruncated = true ∧ ∀ k ∈ c.after, k < key)

theorem Walk.cutoff_visit (ignorePrefix : Key) (c : Walk) (info : ObjectInfo)
    (page : List ObjectInfo) : (c.visit ignorePrefix info page).cutoff = c.cutoff := by
  unfold Walk.visit
  split <;> rfl

section Pending

variable {β : Type} {c : Walk} {key : Key}

theorem Walk.pending_started (now : Time) : (Walk.mk now none [] true []).pending key :=
  Or.inr (Or.inr ⟨rfl, by simp⟩)

theorem Walk.pending.fetch (h : c.pending key) (hpage : c.page = []) (pageSize : Nat)
    {b : Bucket β} (hb : b.lookup key ≠ none) : (c.fetch pageSize b).pending key := by
  rcases h with ⟨info, hinfo, -⟩ | hbatch | ⟨-, hafter⟩
  · rw [hpage] at hinfo
    cases hinfo
  · exact Or.inr (Or.inl hbatch)
  · obtain ⟨o, ho⟩ := Option.ne_none_iff_exists'.mp hb
    have hobj : ⟨key, o.lastModified⟩ ∈ b.objects := Bucket.mem_objects.mpr ⟨o, ho, rfl⟩
    rcases Paging.mem_page_or_beyond (n := pageSize) (Bucket.nodup_objects b) hobj hafter with
      hmem | hbeyond
    · exact Or.inl ⟨_, hmem, rfl⟩
    · exact Or.inr (Or.inr hbeyond)

theorem Walk.pending.visit (h : c.pending key) {ignorePrefix : Key}
    (hkey : underPrefix ignorePrefix key = false) {info : ObjectInfo} {page : List ObjectInfo}
    (hpage : c.page = info :: page) : (c.visit ignorePrefix info page).pending key := by
  unfold Walk.visit
  split
  · rename_i hskip
    refine h.imp_left ?_
    rintro ⟨x, hx, rfl⟩
    rw [hpage] at hx
    rcases List.mem_cons.mp hx with rfl | hx
    · rw [hskip] at hkey
      cases hkey
    · exact ⟨x, hx, rfl⟩
  · rcases h with ⟨x, hx, rfl⟩ | hbatch | hahead
    · rw [hpage] at hx
      rcases List.mem_cons.mp hx with rfl | hx
      · exact Or.inr (Or.inl (by simp))
      · exact Or.inl ⟨x, hx, rfl⟩
    · exact Or.inr (Or.inl (by simp [hbatch]))
    · exact Or.inr (Or.inr hahead)

theorem Walk.pending.flushed (h : c.pending key) (hkey : key ∉ c.batch.map Prod.fst) :
    { c with batch := [] }.pending key :=
  h.imp_right fun h => Or.inr (h.resolve_left hkey)

theorem Walk.not_pending (hpage : c.page = []) (hlast : c.isTruncated = false) (hbatch : c.batch = []) :
    ¬c.pending key := by
  rintro (⟨x, hx, -⟩ | hk | ⟨hmore, -⟩)
  · rw [hpage] at hx
    cases hx
  · rw [hbatch] at hk
    cases hk
  · rw [hlast] at hmore
    cases hmore

end Pending

end FileIndexer
