import FileIndexer.Web.FileDto

namespace FileIndexer

namespace Web

open Search

section BigInt

def digitsValue (digits : Text) : Option Nat :=
  if digits.all fun b => 48 ≤ b.val && b.val ≤ 57 then
    some (digits.foldl (fun n b => 10 * n + (b.val - 48)) 0)
  else none

-- BigInt of a decimal literal
def bigInt (text : Text) : Option Int :=
  if text.head? = some 45 then
    if text.tail = [] then none else (digitsValue text.tail).map fun n : Nat => -(n : Int)
  else (digitsValue text).map fun n : Nat => (n : Int)

theorem digitsValue_decimal (n : Nat) : digitsValue (decimal n) = some n := by
  have hdigit : ∀ c ∈ Nat.toDigits 10 n, (Fin.ofNat 256 c.toNat).val = c.toNat ∧
      48 ≤ c.toNat ∧ c.toNat ≤ 57 := fun c hc => by
    obtain ⟨hlo, hhi⟩ := digit_range hc
    exact ⟨Nat.mod_eq_of_lt (by omega), hlo, hhi⟩
  have hall : (decimal n).all (fun b => 48 ≤ b.val && b.val ≤ 57) = true := by
    rw [decimal, List.all_map, List.all_eq_true]
    intro c hc
    obtain ⟨hval, hlo, hhi⟩ := hdigit c hc
    simp only [Function.comp_apply, hval, hlo, hhi, decide_true, Bool.and_true]
  rw [digitsValue, if_pos hall, decimal, List.foldl_map]
  refine congrArg some (Eq.trans ?_ (Nat.ofDigitChars_ten_toDigits (n := n)))
  refine List.foldl_ext _ _ 0 fun m c hc => ?_
  rw [(hdigit c hc).1]
  rfl

theorem bigInt_formatInt (n : Int) : bigInt (formatInt n) = some n := by
  rcases lt_or_ge n 0 with hneg | hpos
  · have hformat : formatInt n = 45 :: decimal n.natAbs := by rw [formatInt, if_pos hneg]
    have hvalue : -(n.natAbs : Int) = n := by omega
    simp only [bigInt, hformat, List.head?_cons, if_true, List.tail_cons, decimal_ne_nil, if_false,
      digitsValue_decimal, Option.map_some, hvalue]
  · have hformat : formatInt n = decimal n.natAbs := by rw [formatInt, if_neg (by omega)]
    have hhead : (decimal n.natAbs).head? ≠ some 45 := by
      intro hhead
      have hmem := List.mem_of_mem_head? hhead
      exact absurd (mem_decimal hmem) (by decide)
    have hvalue : (n.natAbs : Int) = n := by omega
    rw [bigInt, hformat, if_neg hhead, digitsValue_decimal, Option.map_some, hvalue]

theorem mapM_bigInt (ids : List FileID) : (ids.map formatInt).mapM bigInt = some ids := by
  induction ids with
  | nil => rfl
  | cons id ids ih =>
    rw [List.map_cons, List.mapM_cons, bigInt_formatInt, ih]
    rfl

end BigInt

structure FilePreviewStatusDto where
  id : Text
  previewStatus : PreviewStatus
  previewUrl : Option Text
  deriving DecidableEq, Repr

def toStatusDto (s : FilePreviewStatus) : FilePreviewStatusDto :=
  ⟨formatInt s.id, s.previewStatus, if s.previewUrl = [] then none else some s.previewUrl⟩

def isPending (file : FileDto) : Bool :=
  file.previewStatus = .pending || file.previewStatus = .processing

def pendingIds (pages : List (List FileDto)) : List Text :=
  (pages.flatten.filter isPending).map FileDto.id

def patchFile (res : List FilePreviewStatusDto) (file : FileDto) : FileDto :=
  match mapGet (res.map fun s => (s.id, s.previewStatus, s.previewUrl)) file.id with
  | none => file
  | some (previewStatus, previewUrl) =>
    { file with previewStatus, previewUrl := previewUrl.or file.previewUrl }

def patchPages (res : List FilePreviewStatusDto) (pages : List (List FileDto)) :
    List (List FileDto) :=
  pages.map fun page => page.map (patchFile res)

-- getFilePreviewStatuses on its way: sent, past the first of its two queries, answered
inductive Poll where
  | asked (ids : List Text)
  | filesRead (ids : List FileID) (files : List FileRow)
  | answered (res : List FilePreviewStatusDto)
  deriving DecidableEq, Repr

-- a fetch of pages starts from those that are cached, or over again, and replaces them at its end
structure Watch (β ι : Type) where
  pool : Pool β PreviewResult PreviewRow ι
  pages : List (List FileDto)
  fetches : List (List (List FileDto))
  polls : List Poll

inductive WatchAction (β ι : Type) where
  | server (a : PoolAction β PreviewResult ι)
  | fetch (again : Bool)
  | loadPage (k : Nat) (tables : JoinedTables) (rows : List FileRow) (queue : IndexQueue)
      (getPreviewURL : List FileID → Option (List PreviewURLSpec))
  | settle (k : Nat)
  | abandon (k : Nat)
  | interval
  | readFiles (k : Nat) (tables : JoinedTables) (files : List FileRow)
  | readStatuses (k : Nat)
  | setQueryData (k : Nat)
  | catchError (k : Nat)

section Step

variable {β ι : Type} [DecidableEq ι] (wkt : Wkt) (getInlineURL : Key → Option Text)
  (cfg : IndexerConfig)

def Watch.step (w : Watch β ι) : WatchAction β ι → Option (Watch β ι)
  | .server a => (w.pool.step previewIndex cfg a).map fun pool => { w with pool }
  | .fetch again => some { w with fetches := w.fetches ++ [if again then [] else w.pages] }
  | .loadPage k tables rows queue getPreviewURL =>
    match w.fetches[k]? with
    | some pages =>
      if rows.all fun r => (w.pool.fileRows tables).contains r then
        let page := withPreviewUrls wkt (rows.map (infoMessage queue)) getPreviewURL
        some { w with fetches := w.fetches.set k (pages ++ [page]) }
      else none
    | none => none
  | .settle k =>
    (w.fetches[k]?).map fun pages => { w with pages, fetches := w.fetches.eraseIdx k }
  | .abandon k => some { w with fetches := w.fetches.eraseIdx k }
  | .interval =>
    let ids := pendingIds w.pages
    some (if ids = [] then w else { w with polls := w.polls ++ [.asked ids] })
  | .readFiles k tables files =>
    match w.polls[k]? with
    | some (.asked ids) =>
      match ids.mapM bigInt with
      | some ids =>
        if FilesServer.GetFilesByIDs (w.pool.fileRows tables) ids files then
          some { w with polls := w.polls.set k (.filesRead ids files) }
        else none
      | none => some { w with polls := w.polls.eraseIdx k }
    | _ => none
  | .readStatuses k =>
    match w.polls[k]? with
    | some (.filesRead ids files) =>
      match FilesServer.getFilePreviewStatuses getInlineURL files w.pool.indexing.db.queue ids with
      | some statuses => some { w with polls := w.polls.set k (.answered (statuses.map toStatusDto)) }
      | none => some { w with polls := w.polls.eraseIdx k }
    | _ => none
  | .setQueryData k =>
    match w.polls[k]? with
    | some (.answered res) =>
      some { w with pages := patchPages res w.pages, polls := w.polls.eraseIdx k }
    | _ => none
  | .catchError k => some { w with polls := w.polls.eraseIdx k }

end Step

section Patch

variable {res : List FilePreviewStatusDto} {file : FileDto}

theorem patchFile_cases (res : List FilePreviewStatusDto) (file : FileDto) :
    (patchFile res file = file ∧ ∀ s ∈ res, s.id ≠ file.id) ∨
    ∃ s ∈ res, s.id = file.id ∧ patchFile res file = { file with
      previewStatus := s.previewStatus, previewUrl := s.previewUrl.or file.previewUrl } := by
  unfold patchFile
  cases hget : mapGet (res.map fun s => (s.id, s.previewStatus, s.previewUrl)) file.id with
  | none =>
    refine Or.inl ⟨rfl, fun s hs hid => ?_⟩
    have hentry : (s.id, s.previewStatus, s.previewUrl) ∈
        res.map fun s => (s.id, s.previewStatus, s.previewUrl) := List.mem_map_of_mem hs
    obtain ⟨v, hv⟩ := exists_mapGet hentry
    rw [hid, hget] at hv
    cases hv
  | some v =>
    obtain ⟨s, hs, heq⟩ := List.mem_map.mp (mapGet_eq_some hget)
    obtain ⟨hid, rfl⟩ := Prod.mk.inj heq
    exact Or.inr ⟨s, hs, hid, rfl⟩

theorem id_patchFile (res : List FilePreviewStatusDto) (file : FileDto) :
    (patchFile res file).id = file.id := by
  rcases patchFile_cases res file with ⟨heq, -⟩ | ⟨s, -, -, heq⟩
  · rw [heq]
  · rw [heq]

end Patch

section Ready

variable {β ι : Type}

structure Shown (db : IndexDb PreviewRow) (d : FileDto) : Prop where
  named : ∃ id, d.id = formatInt id ∧ (d.previewStatus = .ready → PreviewKept db id)

def AllShown (db : IndexDb PreviewRow) (pages : List (List FileDto)) : Prop :=
  ∀ page ∈ pages, ∀ d ∈ page, Shown db d

inductive Poll.Sound (db : IndexDb PreviewRow) : Poll → Prop
  | asked {ids} : Poll.Sound db (.asked ids)
  | filesRead {ids files} : (∀ f ∈ files, f.previewKey.isSome = true → PreviewKept db f.id) →
      Poll.Sound db (.filesRead ids files)
  | answered {res} : (∀ s ∈ res, ∃ id, s.id = formatInt id ∧
      (s.previewStatus = .ready → PreviewKept db id)) → Poll.Sound db (.answered res)

structure Watch.Sound (w : Watch β ι) : Prop where
  pages : AllShown w.pool.indexing.db w.pages
  fetches : ∀ pages ∈ w.fetches, AllShown w.pool.indexing.db pages
  polls : ∀ poll ∈ w.polls, poll.Sound w.pool.indexing.db

variable {db db' : IndexDb PreviewRow}

theorem AllShown.mono (hkept : ∀ id, PreviewKept db id → PreviewKept db' id)
    {pages : List (List FileDto)} (h : AllShown db pages) : AllShown db' pages := by
  intro page hpage d hd
  obtain ⟨id, hid, hready⟩ := (h page hpage d hd).named
  exact ⟨id, hid, fun hr => hkept id (hready hr)⟩

theorem Poll.Sound.mono (hkept : ∀ id, PreviewKept db id → PreviewKept db' id) {poll : Poll}
    (h : poll.Sound db) : poll.Sound db' := by
  cases h with
  | asked => exact .asked
  | filesRead h => exact .filesRead fun f hf hkey => hkept f.id (h f hf hkey)
  | answered h =>
    refine .answered fun s hs => ?_
    obtain ⟨id, hid, hready⟩ := h s hs
    exact ⟨id, hid, fun hr => hkept id (hready hr)⟩

theorem shown_of_showsRow {s : Pool β PreviewResult PreviewRow ι} {tables : JoinedTables} {wkt : Wkt}
    {q : IndexQueue} {r : FileRow} (hr : r ∈ s.fileRows tables) {d : FileDto}
    (h : ShowsRow wkt q r d) : Shown s.indexing.db d := by
  obtain ⟨url, rfl⟩ := h
  exact ⟨r.id, rfl, fun hready => previewKept_of_fileRow hr (FilesServer.previewStatus_eq_ready
    ((FilesServer.previewStatus_eq r _).trans hready))⟩

theorem shown_patchFile {res : List FilePreviewStatusDto} {file : FileDto}
    (hres : Poll.Sound db (.answered res)) (h : Shown db file) : Shown db (patchFile res file) := by
  rcases patchFile_cases res file with ⟨heq, -⟩ | ⟨s, hs, hid, heq⟩
  · rw [heq]
    exact h
  · rw [heq]
    cases hres with
    | answered hres =>
      obtain ⟨id, hsid, hready⟩ := hres s hs
      exact ⟨id, hid.symm.trans hsid, hready⟩

theorem allShown_patchPages {res : List FilePreviewStatusDto} {pages : List (List FileDto)}
    (hres : Poll.Sound db (.answered res)) (h : AllShown db pages) :
    AllShown db (patchPages res pages) := by
  intro page hpage d hd
  obtain ⟨page, hold, rfl⟩ := List.mem_map.mp hpage
  obtain ⟨file, hfile, rfl⟩ := List.mem_map.mp hd
  exact shown_patchFile hres (h page hold file hfile)

theorem sound_filesRead {s : Pool β PreviewResult PreviewRow ι} {tables : JoinedTables}
    {ids : List FileID} {files : List FileRow}
    (h : FilesServer.GetFilesByIDs (s.fileRows tables) ids files) :
    Poll.Sound s.indexing.db (.filesRead ids files) :=
  .filesRead fun _ hf hkey =>
    previewKept_of_fileRow ((FilesServer.mem_getFilesByIDs h).mp hf).1 hkey

theorem sound_answered {getInlineURL : Key → Option Text} {ids : List FileID}
    {files : List FileRow} {queue : IndexQueue} {statuses : List FilePreviewStatus}
    (hread : Poll.Sound db (.filesRead ids files))
    (h : FilesServer.getFilePreviewStatuses getInlineURL files queue ids = some statuses) :
    Poll.Sound db (.answered (statuses.map toStatusDto)) := by
  refine .answered fun s hs => ?_
  obtain ⟨status, hstatus, rfl⟩ := List.mem_map.mp hs
  refine ⟨status.id, rfl, fun hready => ?_⟩
  unfold FilesServer.getFilePreviewStatuses at h
  split at h
  · obtain rfl := Option.some.inj h
    cases hstatus
  · obtain ⟨f, hf, hid, hps, -⟩ := (FilesServer.mem_filePreviewStatuses h).mp hstatus
    cases hread with
    | filesRead hread =>
      rw [← hid]
      exact hread f hf (FilesServer.previewStatus_eq_ready (hps.symm.trans hready))

theorem allShown_concat {pages : List (List FileDto)} {page : List FileDto} (h : AllShown db pages)
    (hpage : ∀ d ∈ page, Shown db d) : AllShown db (pages ++ [page]) := by
  intro page' hmem d hd
  rcases List.mem_append.mp hmem with hmem | hmem
  · exact h page' hmem d hd
  · obtain rfl := List.mem_singleton.mp hmem
    exact hpage d hd

theorem shown_withPreviewUrls {s : Pool β PreviewResult PreviewRow ι} {tables : JoinedTables}
    {rows : List FileRow} (hrows : ∀ r ∈ rows, r ∈ s.fileRows tables) (wkt : Wkt) (q : IndexQueue)
    (getPreviewURL : List FileID → Option (List PreviewURLSpec)) :
    ∀ d ∈ withPreviewUrls wkt (rows.map (infoMessage q)) getPreviewURL, Shown s.indexing.db d := by
  intro d hd
  obtain ⟨r, hr, hshow⟩ := exists_left_of_mem
    (showsRows_withPreviewUrls wkt q rows getPreviewURL) hd
  exact shown_of_showsRow (hrows r hr) hshow

section Update

variable {w : Watch β ι} (h : w.Sound) (k : Nat)

include h

theorem Watch.Sound.addFetch {pages : List (List FileDto)}
    (hpages : AllShown w.pool.indexing.db pages) :
    Watch.Sound { w with fetches := w.fetches ++ [pages] } := by
  refine ⟨h.pages, fun pages' hp => ?_, h.polls⟩
  rcases List.mem_append.mp hp with hp | hp
  · exact h.fetches pages' hp
  · exact List.mem_singleton.mp hp ▸ hpages

theorem Watch.Sound.setFetch {pages : List (List FileDto)}
    (hpages : AllShown w.pool.indexing.db pages) :
    Watch.Sound { w with fetches := w.fetches.set k pages } := by
  refine ⟨h.pages, fun pages' hp => ?_, h.polls⟩
  rcases List.mem_or_eq_of_mem_set hp with hp | rfl
  · exact h.fetches pages' hp
  · exact hpages

theorem Watch.Sound.addPoll {poll : Poll} (hpoll : poll.Sound w.pool.indexing.db) :
    Watch.Sound { w with polls := w.polls ++ [poll] } := by
  refine ⟨h.pages, h.fetches, fun poll' hp => ?_⟩
  rcases List.mem_append.mp hp with hp | hp
  · exact h.polls poll' hp
  · exact List.mem_singleton.mp hp ▸ hpoll

theorem Watch.Sound.setPoll {poll : Poll} (hpoll : poll.Sound w.pool.indexing.db) :
    Watch.Sound { w with polls := w.polls.set k poll } := by
  refine ⟨h.pages, h.fetches, fun poll' hp => ?_⟩
  rcases List.mem_or_eq_of_mem_set hp with hp | rfl
  · exact h.polls poll' hp
  · exact hpoll

theorem Watch.Sound.dropPoll : Watch.Sound { w with polls := w.polls.eraseIdx k } :=
  ⟨h.pages, h.fetches, fun poll hp => h.polls poll (List.mem_of_mem_eraseIdx hp)⟩

end Update

variable [DecidableEq ι] {wkt : Wkt} {getInlineURL : Key → Option Text} {cfg : IndexerConfig}

theorem Watch.sound_preserved : Transition.Preserves (Watch.step wkt getInlineURL cfg)
    (fun _ _ => True) fun w : Watch β ι => w.Sound := by
  intro w a t h _ ht
  cases a with
  | server a =>
    obtain ⟨pool, hpool, rfl⟩ := Option.map_eq_some_iff.mp ht
    have hkept : ∀ id, PreviewKept w.pool.indexing.db id → PreviewKept pool.indexing.db id :=
      fun id hid => previewKept_preserved id w.pool a pool hid trivial hpool
    exact ⟨h.pages.mono hkept, fun pages hp => (h.fetches pages hp).mono hkept,
      fun poll hp => (h.polls poll hp).mono hkept⟩
  | fetch again =>
    obtain rfl := Option.some.inj ht
    apply h.addFetch
    cases again with
    | true => exact fun page hpage => by cases hpage
    | false => exact h.pages
  | loadPage k tables rows queue getPreviewURL =>
    simp only [Watch.step] at ht
    split at ht
    · rename_i pages hk
      split at ht
      · rename_i hrows
        obtain rfl := Option.some.inj ht
        have hmem : ∀ r ∈ rows, r ∈ w.pool.fileRows tables := fun r hr =>
          List.contains_iff_mem.mp (List.all_eq_true.mp hrows r hr)
        have hold := h.fetches pages (List.mem_of_getElem? hk)
        exact h.setFetch k (allShown_concat hold (shown_withPreviewUrls hmem wkt queue getPreviewURL))
      · cases ht
    · cases ht
  | settle k =>
    obtain ⟨pages, hk, rfl⟩ := Option.map_eq_some_iff.mp ht
    exact ⟨h.fetches pages (List.mem_of_getElem? hk),
      fun pages hp => h.fetches pages (List.mem_of_mem_eraseIdx hp), h.polls⟩
  | abandon k =>
    obtain rfl := Option.some.inj ht
    exact ⟨h.pages, fun pages hp => h.fetches pages (List.mem_of_mem_eraseIdx hp), h.polls⟩
  | interval =>
    obtain rfl := Option.some.inj ht
    split
    · exact h
    · exact h.addPoll .asked
  | readFiles k tables files =>
    simp only [Watch.step] at ht
    split at ht
    · split at ht
      · split at ht
        · rename_i hfiles
          obtain rfl := Option.some.inj ht
          exact h.setPoll k (sound_filesRead hfiles)
        · cases ht
      · obtain rfl := Option.some.inj ht
        exact h.dropPoll k
    · cases ht
  | readStatuses k =>
    simp only [Watch.step] at ht
    split at ht
    · rename_i ids files hk
      split at ht
      · rename_i statuses hstatuses
        obtain rfl := Option.some.inj ht
        exact h.setPoll k (sound_answered (h.polls _ (List.mem_of_getElem? hk)) hstatuses)
      · obtain rfl := Option.some.inj ht
        exact h.dropPoll k
    · cases ht
  | setQueryData k =>
    simp only [Watch.step] at ht
    split at ht
    · rename_i res hk
      obtain rfl := Option.some.inj ht
      have hres := h.polls _ (List.mem_of_getElem? hk)
      exact ⟨allShown_patchPages hres h.pages, h.fetches, (h.dropPoll k).polls⟩
    · cases ht
  | catchError k =>
    obtain rfl := Option.some.inj ht
    exact h.dropPoll k

end Ready

section Quiet

variable {β ι : Type} [DecidableEq ι] (wkt : Wkt) (getInlineURL : Key → Option Text)
  (cfg : IndexerConfig)

def currentStatus (q : IndexQueue) (r : FileRow) : PreviewStatus :=
  FilesServer.previewStatus r ((q r.id).map QueueRow.status)

structure Refreshed (rows : List FileRow) (q : IndexQueue) (asked : List FileID) (d d' : FileDto) :
    Prop where
  kept : d' = { d with previewStatus := d'.previewStatus, previewUrl := d'.previewUrl }
  linked : d'.previewUrl = none → d.previewUrl = none
  other : (∀ r ∈ rows, r.id ∈ asked → formatInt r.id ≠ d.id) → d' = d
  current : ∀ r ∈ rows, r.id ∈ asked → formatInt r.id = d.id →
    d'.previewStatus = currentStatus q r ∧ ∀ key url, r.previewKey = some key →
      getInlineURL key = some url → url ≠ [] → d'.previewUrl = some url

variable {getInlineURL}

theorem refreshed_patchFile {rows files : List FileRow} {q : IndexQueue} {ids : List FileID}
    {statuses : List FilePreviewStatus} (hpk : (rows.map fun r => r.id).Nodup)
    (hfiles : FilesServer.GetFilesByIDs rows ids files)
    (hsigned : ∀ f ∈ files, ∀ key ∈ f.previewKey, ∃ url, getInlineURL key = some url)
    (h : FilesServer.filePreviewStatuses getInlineURL
      (fun id => (getIndexQueueStatuses q ids).lookup id) files = some statuses) (d : FileDto) :
    Refreshed getInlineURL rows q ids d (patchFile (statuses.map toStatusDto) d) := by
  have hqueued {r : FileRow} (hr : r.id ∈ ids) :
      FilesServer.previewStatus r ((getIndexQueueStatuses q ids).lookup r.id) = currentStatus q r := by
    rw [lookup_getIndexQueueStatuses hr]
    rfl
  rcases patchFile_cases (statuses.map toStatusDto) d with ⟨heq, hnone⟩ | ⟨s, hs, hid, heq⟩
  · rw [heq]
    refine ⟨rfl, id, fun _ => rfl, fun r hr hrids hrid => ?_⟩
    have hr' : r ∈ files := (FilesServer.mem_getFilesByIDs hfiles).mpr ⟨hr, hrids⟩
    obtain ⟨url, hurl⟩ := FilesServer.exists_previewStatusURL (hsigned r hr')
      ((getIndexQueueStatuses q ids).lookup r.id)
    have hmem := (FilesServer.mem_filePreviewStatuses h (s := ⟨r.id, _, url⟩)).mpr
      ⟨r, hr', rfl, rfl, hurl⟩
    exact absurd hrid (hnone _ (List.mem_map_of_mem hmem))
  · obtain ⟨status, hstatus, rfl⟩ := List.mem_map.mp hs
    obtain ⟨f, hf, hfid, hps, hurl⟩ := (FilesServer.mem_filePreviewStatuses h).mp hstatus
    obtain ⟨hfrows, hfids⟩ := (FilesServer.mem_getFilesByIDs hfiles).mp hf
    rw [heq]
    refine ⟨rfl, fun hnone => ?_, fun hother => ?_, fun r hr hrids hrid => ?_⟩
    · exact (Option.or_eq_none_iff.mp hnone).2
    · exact absurd (hfid ▸ hid) (hother f hfrows hfids)
    · obtain rfl : f = r := by
        refine Rows.eq_of_pk hpk hfrows hr (hfid.trans (formatInt_injective ?_))
        exact hid.trans hrid.symm
      refine ⟨hps.trans (hqueued hrids), fun key url hkey hsome hne => ?_⟩
      have hready := hps.trans (FilesServer.previewStatus_of_previewKey hkey _)
      rw [FilesServer.previewStatusURL, if_pos hready, hkey, Option.getD_some, hsome] at hurl
      obtain rfl := Option.some.inj hurl
      simp [toStatusDto, hne]

omit [DecidableEq ι] in
theorem pk_fileRows (s : Pool β PreviewResult PreviewRow ι) (tables : JoinedTables) :
    ((s.fileRows tables).map fun r => r.id).Nodup := by
  rw [Pool.fileRows, List.map_map]
  exact s.indexing.db.files.pk

theorem AllShown.pendingIds {db : IndexDb PreviewRow} {pages : List (List FileDto)}
    (h : AllShown db pages) : ∃ ids : List FileID, Web.pendingIds pages = ids.map formatInt := by
  have hnamed : ∀ text ∈ Web.pendingIds pages, ∃ id, formatInt id = text := fun text htext => by
    obtain ⟨d, hd, rfl⟩ := List.mem_map.mp htext
    obtain ⟨page, hpage, hmem⟩ := List.mem_flatten.mp (List.mem_of_mem_filter hd)
    obtain ⟨id, hid, -⟩ := (h page hpage d hmem).named
    exact ⟨id, hid.symm⟩
  generalize Web.pendingIds pages = texts at hnamed
  induction texts with
  | nil => exact ⟨[], rfl⟩
  | cons text texts ih =>
    obtain ⟨ids, rfl⟩ := ih fun text htext => hnamed text (List.mem_cons_of_mem _ htext)
    obtain ⟨id, rfl⟩ := hnamed _ List.mem_cons_self
    exact ⟨id :: ids, rfl⟩

variable {wkt cfg}

def Watch.round (w : Watch β ι) (tables : JoinedTables) (files : List FileRow) :
    List (WatchAction β ι) :=
  [.interval, .readFiles w.polls.length tables files, .readStatuses w.polls.length,
    .setQueryData w.polls.length]

theorem exec_round {w : Watch β ι} {tables : JoinedTables} {files : List FileRow}
    {ids : List FileID} {statuses : List FilePreviewStatus}
    (hids : pendingIds w.pages = ids.map formatInt) (hne : ids ≠ [])
    (hfiles : FilesServer.GetFilesByIDs (w.pool.fileRows tables) ids files)
    (h : FilesServer.filePreviewStatuses getInlineURL
      (fun id => (getIndexQueueStatuses w.pool.indexing.db.queue ids).lookup id) files =
        some statuses) :
    Transition.exec (Watch.step wkt getInlineURL cfg) w (w.round tables files) =
      some { w with pages := patchPages (statuses.map toStatusDto) w.pages } := by
  have hasked : ids.map formatInt ≠ [] := by simpa using hne
  have hlast (polls : List Poll) (poll : Poll) : (polls ++ [poll])[polls.length]? = some poll := by
    simp
  have hset (polls : List Poll) (poll poll' : Poll) :
      (polls ++ [poll]).set polls.length poll' = polls ++ [poll'] := by simp
  have herase (polls : List Poll) (poll : Poll) :
      (polls ++ [poll]).eraseIdx polls.length = polls := by
    rw [List.eraseIdx_append_of_length_le (le_refl _)]
    simp
  have hanswer : FilesServer.getFilePreviewStatuses getInlineURL files
      w.pool.indexing.db.queue ids = some statuses := by
    rw [FilesServer.getFilePreviewStatuses, if_neg hne]
    exact h
  simp only [Watch.round, Transition.exec, Watch.step, hids, if_neg hasked, Option.bind_some, hlast,
    hset, mapM_bigInt, if_pos hfiles, hanswer, herase]

omit [DecidableEq ι] in
theorem sound_of_empty {w : Watch β ι} (hpages : w.pages = []) (hfetches : w.fetches = [])
    (hpolls : w.polls = []) : w.Sound where
  pages := by
    rw [hpages]
    exact fun page hpage => by cases hpage
  fetches := by
    rw [hfetches]
    exact fun pages hp => by cases hp
  polls := by
    rw [hpolls]
    exact fun poll hp => by cases hp

variable (wkt getInlineURL cfg)

theorem ready_has_preview (w : Watch β ι) (hpages : w.pages = []) (hfetches : w.fetches = [])
    (hpolls : w.polls = []) (as : List (WatchAction β ι)) :
    Transition.EveryState (Watch.step wkt getInlineURL cfg)
      (fun w => ∀ page ∈ w.pages, ∀ d ∈ page, d.previewStatus = .ready → ∀ f,
        f ∈ w.pool.indexing.db.files.rows → formatInt f.id = d.id →
          ∃ row, w.pool.indexing.db.results.lookup f.id = some row) w as := by
  refine (Transition.everyState_of_preserves Watch.sound_preserved as
    (sound_of_empty hpages hfetches hpolls)
    (Transition.everyStep_of_forall (fun _ _ => trivial) as)).mono fun w hw => ?_
  intro page hpage d hd hready f hf hfd
  obtain ⟨id, hid, hkept⟩ := (hw.pages page hpage d hd).named
  obtain rfl := formatInt_injective (hfd.trans hid)
  apply Option.isSome_iff_exists.mp
  apply (hkept hready).row
  rw [Files.getFile_eq_some_iff.mpr ⟨hf, rfl⟩]
  rfl

theorem quiet_round_refreshes (s : Watch β ι) (hpages : s.pages = []) (hfetches : s.fetches = [])
    (hpolls : s.polls = []) (as : List (WatchAction β ι)) (w : Watch β ι)
    (hrun : Transition.exec (Watch.step wkt getInlineURL cfg) s as = some w)
    (hpending : pendingIds w.pages ≠ []) (tables : JoinedTables) :
    ∃ ids : List FileID, pendingIds w.pages = ids.map formatInt ∧
      ∀ files, FilesServer.GetFilesByIDs (w.pool.fileRows tables) ids files →
        (∀ f ∈ files, ∀ key ∈ f.previewKey, ∃ url, getInlineURL key = some url) →
        ∃ t, Transition.exec (Watch.step wkt getInlineURL cfg) w (w.round tables files) = some t ∧
          (t.pool = w.pool ∧ t.fetches = w.fetches ∧ t.polls = w.polls) ∧
          List.Forall₂ (List.Forall₂ (Refreshed getInlineURL (w.pool.fileRows tables)
            w.pool.indexing.db.queue ids)) w.pages t.pages ∧
          ∀ page ∈ t.pages, ∀ d ∈ page, isPending d = true → ∀ r ∈ w.pool.fileRows tables,
            formatInt r.id = d.id →
              d.previewStatus = currentStatus w.pool.indexing.db.queue r := by
  have hsound := Watch.sound_preserved.exec (sound_of_empty hpages hfetches hpolls) hrun
  obtain ⟨ids, hids⟩ := hsound.pages.pendingIds
  refine ⟨ids, hids, fun files hfiles hsigned => ?_⟩
  obtain ⟨statuses, hstatuses⟩ := FilesServer.exists_filePreviewStatuses hsigned fun id =>
    (getIndexQueueStatuses w.pool.indexing.db.queue ids).lookup id
  have hne : ids ≠ [] := by
    rintro rfl
    exact hpending hids
  have hrefreshed := refreshed_patchFile (pk_fileRows w.pool tables) hfiles hsigned hstatuses
  refine ⟨_, exec_round hids hne hfiles hstatuses, ⟨rfl, rfl, rfl⟩, ?_, ?_⟩
  · rw [patchPages, List.forall₂_map_right_iff, List.forall₂_same]
    intro page _
    rw [List.forall₂_map_right_iff, List.forall₂_same]
    exact fun d _ => hrefreshed d
  · intro page hpage d hd hpend r hr hrd
    obtain ⟨page, hold, rfl⟩ := List.mem_map.mp hpage
    obtain ⟨d, hmem, rfl⟩ := List.mem_map.mp hd
    rw [id_patchFile] at hrd
    by_cases hrids : r.id ∈ ids
    · exact ((hrefreshed d).current r hr hrids hrd).1
    · have hsame := (hrefreshed d).other fun r' hr' hids' hid' => by
        rw [formatInt_injective (hrd.trans hid'.symm)] at hrids
        exact hrids hids'
      rw [hsame] at hpend
      have hasked : d.id ∈ pendingIds w.pages :=
        List.mem_map_of_mem (List.mem_filter.mpr ⟨List.mem_flatten_of_mem hold hmem, hpend⟩)
      rw [hids, ← hrd] at hasked
      obtain ⟨id, hid, heq⟩ := List.mem_map.mp hasked
      exact absurd (formatInt_injective heq ▸ hid) hrids

def beach : Pool Unit PreviewResult PreviewRow Unit where
  indexing :=
    { db := ⟨⟨[⟨3, ascii "b.jpg", 0, 0, 0⟩], 4, by decide, by decide, by decide⟩, fun _ => none, ∅⟩
      bucket := (∅ : Bucket Unit).put 0 (ascii "b.jpg") ()
      workers _ := .idle
      now := 1
      provenance _ := none }
  directories := ∅

def jpegStat : JoinedTables := ⟨fun _ => some ⟨ascii "image/jpeg", 9, 0, 0⟩, fun _ => none⟩

def beachFile (preview : Option PreviewRow) : FileRow :=
  .ofJoin ⟨3, ascii "b.jpg", 0, 0, 0⟩ 0 (jpegStat.stat 3) none preview

def beachLoaded : List (WatchAction Unit Unit) :=
  [.fetch false, .loadPage 0 jpegStat [beachFile none] (fun _ => none) fun _ => none, .settle 0]

def beachIndexed : List (WatchAction Unit Unit) :=
  [.server (.indexing .seedIndexQueue), .server (.indexing (.claim () [3])),
    .server (.indexing (.process () (.ok ⟨false, ascii "previews/3", 40, 30⟩))),
    .server (.indexing (.complete () .none))]

def beachRound : List (WatchAction Unit Unit) :=
  [.interval, .readFiles 0 jpegStat [beachFile (some ⟨ascii "previews/3", 40, 30, 1⟩)],
    .readStatuses 0, .setQueryData 0]

theorem ready_of_beach :
    ∃ t, Transition.exec (Watch.step .floor signedURL ⟨10, 5, 600, 30, 3600⟩) ⟨beach, [], [], []⟩
        (beachLoaded ++ beachIndexed ++ beachRound) = some t ∧
      t.pages.map (·.map fun d => (d.id, d.previewStatus)) = [[(ascii "3", .ready)]] ∧
      ∃ row, t.pool.indexing.db.results.lookup 3 = some row := by
  refine ⟨_, rfl, by decide, ?_⟩
  have hready := (ready_has_preview .floor signedURL ⟨10, 5, 600, 30, 3600⟩ ⟨beach, [], [], []⟩ rfl
    rfl rfl (beachLoaded ++ beachIndexed ++ beachRound)).last rfl
  exact hready _ List.mem_cons_self _ List.mem_cons_self (by decide) ⟨3, ascii "b.jpg", 0, 0, 0⟩
    List.mem_cons_self (by decide)

theorem round_of_beach :
    ∃ w t, Transition.exec (Watch.step .floor signedURL ⟨10, 5, 600, 30, 3600⟩)
        ⟨beach, [], [], []⟩ beachLoaded = some w ∧
      Transition.exec (Watch.step .floor signedURL ⟨10, 5, 600, 30, 3600⟩) w
        (w.round jpegStat [beachFile none]) = some t ∧
      t.pool = w.pool ∧ ∀ page ∈ t.pages, ∀ d ∈ page, isPending d = true →
        d.previewStatus = .pending := by
  obtain ⟨ids, hids, hround⟩ := quiet_round_refreshes .floor signedURL ⟨10, 5, 600, 30, 3600⟩
    ⟨beach, [], [], []⟩ rfl rfl rfl beachLoaded _ rfl (by decide) jpegStat
  obtain rfl : [3] = ids := List.map_injective_iff.mpr formatInt_injective (hids ▸ by decide)
  obtain ⟨t, ht, ⟨hpool, -, -⟩, hpages, hcurrent⟩ := hround [beachFile none] (by decide)
    fun f hf key hkey => ⟨_, rfl⟩
  refine ⟨_, t, rfl, ht, hpool, fun page hpage d hd hpending => ?_⟩
  obtain ⟨page', hpage', hfiles⟩ := exists_left_of_mem hpages hpage
  obtain ⟨d', hd', hrefreshed⟩ := exists_left_of_mem hfiles hd
  obtain rfl := List.mem_singleton.mp hpage'
  obtain rfl := List.mem_singleton.mp hd'
  have hid : formatInt (beachFile none).id = d.id := by
    rw [hrefreshed.kept]
    rfl
  exact hcurrent page hpage d hd hpending (beachFile none) List.mem_cons_self hid

end Quiet

end Web

end FileIndexer
