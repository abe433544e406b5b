import FileIndexer.Service.Search.ListDirectory

namespace FileIndexer

namespace Search

structure SearchDirectoriesRequest (τ : Type) where
  query : Text
  pageSize : Nat
  pageToken : τ

structure SearchDirectoriesResponse (τ : Type) where
  directories : List Key
  nextPageToken : τ

def searchDirectories (x : TextSearch) (d : Directories) (query queryPattern : Text)
    (hasCursor : Bool) (after : Key) (pageLimit : Nat) : List Key :=
  Paging.page id (if hasCursor then some after else none) pageLimit
    ((d.filter fun path => query = [] ∨ x.ilike path queryPattern = true ∨
      x.wordSimilar path query = true).sort (· ≤ ·))

section Rpc

variable {τ : Type} [DecidableEq τ] (c : TokenCodec τ)

def Rpc.searchDirectories (x : TextSearch) (ix : FileIndex) (req : SearchDirectoriesRequest τ) :
    Except Status (SearchDirectoriesResponse τ) := do
  let limit := normalizePageSize req.pageSize
  let cur ← readToken c req.pageToken fun cur => cur.query = req.query
  let queryPattern := [likeSymbols.many] ++ escapeLike req.query ++ [likeSymbols.many]
  let paths := Search.searchDirectories x ix.directories req.query queryPattern cur.isSome
    (cur.getD {}).lastDir (limit + 1)
  if limit < paths.length then
    let paths := paths.take limit
    .ok ⟨paths, c.encode (newSearchDirsCursor req.query (paths.getLast?.getD []))⟩
  else
    .ok ⟨paths, c.empty⟩

inductive Call (τ : Type) where
  | listFiles (req : ListFilesRequest τ)
  | listDirectory (req : ListDirectoryRequest τ)
  | searchDirectories (req : SearchDirectoriesRequest τ)

structure Listing (τ : Type) where
  directories : List Key
  files : List FileInfo
  nextPageToken : τ

def Call.pageToken : Call τ → τ
  | .listFiles req => req.pageToken
  | .listDirectory req => req.pageToken
  | .searchDirectories req => req.pageToken

def Call.run (x : TextSearch) (ix : FileIndex) : Call τ → Except Status (Listing τ)
  | .listFiles req => do
    let resp ← Rpc.listFiles c x ix.files req
    .ok ⟨[], resp.files, resp.nextPageToken⟩
  | .listDirectory req => do
    let resp ← Rpc.listDirectory c x ix req
    .ok ⟨resp.directories, resp.files, resp.nextPageToken⟩
  | .searchDirectories req => do
    let resp ← Rpc.searchDirectories c x ix req
    .ok ⟨resp.directories, [], resp.nextPageToken⟩

def Issues (x : TextSearch) (ix : FileIndex) (call : Call τ) (token : τ) : Prop :=
  token ≠ c.empty ∧ ∃ listing, call.run c x ix = .ok listing ∧ listing.nextPageToken = token

end Rpc

section Binding

variable {τ : Type}

def SameCall : Call τ → Call τ → Prop
  | .listFiles r, .listFiles s =>
    r.query = s.query ∧ r.contentType = s.contentType ∧ r.sort = s.sort
  | .listDirectory r, .listDirectory s =>
    normalizeDirPath r.path = normalizeDirPath s.path ∧ r.sort = s.sort
  | .searchDirectories r, .searchDirectories s => r.query = s.query
  | _, _ => False

def Confuses : Call τ → Call τ → Prop
  | .listFiles r, .searchDirectories s => r.query = s.query
  | .listFiles r, .listDirectory s => s.path = [] ∧ r.sort = s.sort
  | .listDirectory r, .listFiles s => s.query = [] ∧ s.contentType = [] ∧ r.sort = s.sort
  | .listDirectory _, .searchDirectories s => s.query = []
  | _, _ => False

def Rejected {α : Type} (result : Except Status α) : Prop :=
  ∃ e, result = .error e ∧ e.code = .invalidArgument

theorem rejected_bind_ok {α β : Type} {result : Except Status α} {f : α → β} :
    Rejected (result >>= fun a => .ok (f a)) ↔ Rejected result := by
  cases result with
  | error e =>
    constructor
    · rintro ⟨e', he, hcode⟩
      cases he
      exact ⟨_, rfl, hcode⟩
    · rintro ⟨e', he, hcode⟩
      cases he
      exact ⟨_, rfl, hcode⟩
  | ok a =>
    constructor
    · rintro ⟨e, he, -⟩
      cases he
    · rintro ⟨e, he, -⟩
      cases he

variable [DecidableEq τ] {c : TokenCodec τ} {x : TextSearch} {ix : FileIndex}

theorem rejected_iff_differs {α : Type} {cur : PageToken} (hne : c.encode cur ≠ c.empty)
    {same : PageToken → Bool} {rest : Option PageToken → Except Status α}
    (hrest : same cur = true → ∃ a, rest (some cur) = .ok a) :
    Rejected (readToken c (c.encode cur) same >>= rest) ↔ same cur = false := by
  have hread : readToken c (c.encode cur) same = if same cur then .ok (some cur) else
      .error (invalidArgument "page_token was issued for a different query" []) := by
    simp [readToken, hne, c.decode_encode]
  rw [hread]
  cases hsame : same cur with
  | true =>
    obtain ⟨a, ha⟩ := hrest hsame
    simp [Except.ok_bind, ha, Rejected]
  | false => exact iff_of_true ⟨_, rfl, rfl⟩ rfl

def Records (cur : PageToken) : Call τ → Prop
  | .listFiles r => cur.sortField = r.sort.1 ∧ cur.sortOrder = r.sort.2 ∧ cur.query = r.query ∧
      cur.contentType = r.contentType ∧ cur.path = [] ∧ cur.phase = .unspecified
  | .listDirectory r => cur.sortField = r.sort.1 ∧ cur.sortOrder = r.sort.2 ∧ cur.query = [] ∧
      cur.contentType = [] ∧ normalizeDirPath r.path = .ok cur.path
  | .searchDirectories r => cur.sortField = .unspecified ∧ cur.query = r.query

theorem issued_listFiles {t : FileInfos} {req : ListFilesRequest τ} {resp : ListFilesResponse τ}
    (h : Rpc.listFiles c x t req = .ok resp) (hne : resp.nextPageToken ≠ c.empty) :
    ∃ cur, resp.nextPageToken = c.encode cur ∧ Records cur (.listFiles req) := by
  have hdef := (Rpc.listFiles_def x t req req.pageSize req.pageToken).symm.trans h
  obtain ⟨cur, -, hdef⟩ := Except.bind_eq_ok.mp hdef
  obtain ⟨files, -, hdef⟩ := Except.bind_eq_ok.mp hdef
  split at hdef
  · cases hdef
    obtain ⟨hf, ho, -, hq, ht, hp, hphase, -⟩ := newCursor_fields req.sort.1
      req.sort.2 req.query req.contentType
      ((files.take (normalizePageSize req.pageSize)).getLast?.getD .zero)
    exact ⟨_, rfl, hf, ho, hq, ht, hp, hphase⟩
  · cases hdef
    exact absurd rfl hne

omit [DecidableEq τ] in
theorem issued_listDirectoryFiles {field : SortField} {order : SortOrder} {path : Key}
    {dirs : List Key} {cur : Option PageToken} {remaining : Nat} {resp : ListDirectoryResponse τ}
    (h : listDirectoryFiles c x ix field order path dirs cur remaining = .ok resp)
    (hne : resp.nextPageToken ≠ c.empty) :
    ∃ last, resp.nextPageToken = c.encode (newDirFilesCursor field order path last) := by
  obtain ⟨files, -, h⟩ := Except.bind_eq_ok.mp h
  split at h
  · cases h
    exact ⟨_, rfl⟩
  · cases h
    exact absurd rfl hne

theorem issued_listDirectory {req : ListDirectoryRequest τ} {resp : ListDirectoryResponse τ}
    (h : Rpc.listDirectory c x ix req = .ok resp) (hne : resp.nextPageToken ≠ c.empty) :
    ∃ cur, resp.nextPageToken = c.encode cur ∧ Records cur (.listDirectory req) := by
  have hdef := (Rpc.listDirectory_def x ix req req.pageSize req.pageToken).symm.trans h
  obtain ⟨path, hpath, hdef⟩ := Except.bind_eq_ok.mp hdef
  obtain ⟨cur, -, hdef⟩ := Except.bind_eq_ok.mp hdef
  have hfiles {dirs : List Key} {cur : Option PageToken} {remaining : Nat}
      (h : listDirectoryFiles c x ix req.sort.1 req.sort.2 path dirs cur remaining = .ok resp) :
      ∃ cur, resp.nextPageToken = c.encode cur ∧ Records cur (.listDirectory req) := by
    obtain ⟨last, hlast⟩ := issued_listDirectoryFiles h hne
    obtain ⟨hf, ho, -, hq, ht, hp, -⟩ := newDirFilesCursor_fields req.sort.1
      req.sort.2 path last
    exact ⟨_, hlast, hf, ho, hq, ht, hp.symm ▸ hpath⟩
  dsimp only at hdef
  split at hdef
  · split at hdef
    · cases hdef
      exact ⟨_, rfl, rfl, rfl, rfl, rfl, hpath⟩
    · exact hfiles hdef
  · exact hfiles hdef

theorem issued_searchDirectories {req : SearchDirectoriesRequest τ}
    {resp : SearchDirectoriesResponse τ} (h : Rpc.searchDirectories c x ix req = .ok resp)
    (hne : resp.nextPageToken ≠ c.empty) :
    ∃ cur, resp.nextPageToken = c.encode cur ∧ Records cur (.searchDirectories req) := by
  obtain ⟨cur, -, h⟩ := Except.bind_eq_ok.mp h
  dsimp only at h
  split at h
  · cases h
    exact ⟨_, rfl, rfl, rfl⟩
  · cases h
    exact absurd rfl hne

theorem Issues.records {call : Call τ} {token : τ} (h : Issues c x ix call token) :
    ∃ cur, token = c.encode cur ∧ Records cur call := by
  obtain ⟨hne, listing, hrun, rfl⟩ := h
  cases call with
  | listFiles req =>
    obtain ⟨resp, hresp, hlisting⟩ := Except.bind_eq_ok.mp hrun
    cases hlisting
    exact issued_listFiles hresp hne
  | listDirectory req =>
    obtain ⟨resp, hresp, hlisting⟩ := Except.bind_eq_ok.mp hrun
    cases hlisting
    exact issued_listDirectory hresp hne
  | searchDirectories req =>
    obtain ⟨resp, hresp, hlisting⟩ := Except.bind_eq_ok.mp hrun
    cases hlisting
    exact issued_searchDirectories hresp hne

def Checks (cur : PageToken) : Call τ → Prop
  | .listFiles r => cur.sortField = r.sort.1 ∧ cur.sortOrder = r.sort.2 ∧ cur.query = r.query ∧
      cur.contentType = r.contentType
  | .listDirectory r => normalizeDirPath r.path = .ok cur.path ∧ cur.sortField = r.sort.1 ∧
      cur.sortOrder = r.sort.2
  | .searchDirectories r => cur.query = r.query

theorem normalizeDirPath_error {path : Key} {e : Status} (h : normalizeDirPath path = .error e) :
    e.code = .invalidArgument := by
  unfold normalizeDirPath at h
  dsimp only at h
  split_ifs at h
  · cases h
    rfl

theorem rejected_listFiles {t : FileInfos} {cur : PageToken} {req : ListFilesRequest τ}
    (hne : c.encode cur ≠ c.empty) (hcarries : req.pageToken = c.encode cur) :
    Rejected (Rpc.listFiles c x t req) ↔ ¬Checks cur (.listFiles req) := by
  obtain ⟨hfield, horder⟩ := req.sort_specified
  have hrun : Rpc.listFiles c x t req = _ :=
    Rpc.listFiles_def (c := c) x t req req.pageSize req.pageToken
  rw [hrun, hcarries, rejected_iff_differs hne]
  · simp [Checks, imp_iff_not_or, or_assoc]
  · intro _
    rw [Search.listFiles_eq hfield horder, Except.ok_bind]
    split
    · exact ⟨_, rfl⟩
    · exact ⟨_, rfl⟩

theorem rejected_listDirectory {cur : PageToken} {req : ListDirectoryRequest τ}
    (hne : c.encode cur ≠ c.empty) (hcarries : req.pageToken = c.encode cur) :
    Rejected (Rpc.listDirectory c x ix req) ↔ ¬Checks cur (.listDirectory req) := by
  obtain ⟨hfield, horder⟩ := req.sort_specified
  have hrun : Rpc.listDirectory c x ix req = _ :=
    Rpc.listDirectory_def (c := c) x ix req req.pageSize req.pageToken
  rw [hrun, hcarries]
  cases hpath : normalizeDirPath req.path with
  | error e =>
    refine iff_of_true ⟨e, rfl, normalizeDirPath_error hpath⟩ ?_
    simp [Checks, hpath]
  | ok path =>
    rw [Except.ok_bind, rejected_iff_differs hne]
    · simp [Checks, hpath, eq_comm (a := path), imp_iff_not_or, or_assoc]
    · intro _
      have hfiles (dirs : List Key) (cur : Option PageToken) (remaining : Nat) :
          ∃ resp, listDirectoryFiles c x ix req.sort.1 req.sort.2 path dirs cur remaining =
            .ok resp := ⟨_, listDirectoryFiles_eq hfield horder dirs cur remaining⟩
      dsimp only
      split
      · split
        · exact ⟨_, rfl⟩
        · exact hfiles ..
      · exact hfiles ..

theorem rejected_searchDirectories {cur : PageToken} {req : SearchDirectoriesRequest τ}
    (hne : c.encode cur ≠ c.empty) (hcarries : req.pageToken = c.encode cur) :
    Rejected (Rpc.searchDirectories c x ix req) ↔ ¬Checks cur (.searchDirectories req) := by
  rw [Rpc.searchDirectories, hcarries]
  dsimp only
  rw [rejected_iff_differs hne]
  · simp [Checks]
  · intro _
    split
    · exact ⟨_, rfl⟩
    · exact ⟨_, rfl⟩

theorem rejected_iff_not_checks {cur : PageToken} {call : Call τ} (hne : c.encode cur ≠ c.empty)
    (hcarries : call.pageToken = c.encode cur) :
    Rejected (call.run c x ix) ↔ ¬Checks cur call := by
  cases call with
  | listFiles req => exact rejected_bind_ok.trans (rejected_listFiles hne hcarries)
  | listDirectory req => exact rejected_bind_ok.trans (rejected_listDirectory hne hcarries)
  | searchDirectories req => exact rejected_bind_ok.trans (rejected_searchDirectories hne hcarries)

theorem normalizeDirPath_eq_root_iff {path : Key} : normalizeDirPath path = .ok [] ↔ path = [] := by
  constructor
  · intro h
    unfold normalizeDirPath at h
    dsimp only at h
    split_ifs at h with hroot hdots hslash hsuffix hsuffix
    · exact hroot
    all_goals simp_all [hasSlashSuffix]
  · rintro rfl
    rfl

omit [DecidableEq τ] in
theorem checks_iff {cur : PageToken} {call later : Call τ} (h : Records cur call) :
    Checks cur later ↔ SameCall call later ∨ Confuses call later := by
  cases call with
  | listFiles r =>
    obtain ⟨hf, ho, hq, ht, hp, -⟩ := h
    cases later with
    | listFiles s =>
      simp only [Checks, SameCall, Confuses, hf, ho, hq, ht, Prod.ext_iff, or_false]
      tauto
    | listDirectory s =>
      simp [Checks, SameCall, Confuses, hf, ho, hp, normalizeDirPath_eq_root_iff, Prod.ext_iff]
    | searchDirectories s => simp [Checks, SameCall, Confuses, hq]
  | listDirectory r =>
    obtain ⟨hf, ho, hq, ht, hp⟩ := h
    cases later with
    | listFiles s =>
      simp only [Checks, SameCall, Confuses, hf, ho, hq, ht, Prod.ext_iff, false_or,
        eq_comm (a := ([] : Text))]
      tauto
    | listDirectory s =>
      simp [Checks, SameCall, Confuses, hf, ho, hp, Prod.ext_iff,
        eq_comm (a := normalizeDirPath s.path)]
    | searchDirectories s => simp [Checks, SameCall, Confuses, hq, eq_comm (a := ([] : Text))]
  | searchDirectories r =>
    obtain ⟨hf, hq⟩ := h
    cases later with
    | listFiles s =>
      simp [Checks, SameCall, Confuses, hf, s.sort_specified.1.symm]
    | listDirectory s =>
      simp [Checks, SameCall, Confuses, hf, s.sort_specified.1.symm]
    | searchDirectories s => simp [Checks, SameCall, Confuses, hq]

omit [DecidableEq τ] in
theorem not_sameCall_of_confuses {call later : Call τ} (h : Confuses call later) :
    ¬SameCall call later := by
  cases call <;> cases later <;> first | exact h.elim | exact id

theorem token_bound_iff (x' : TextSearch) (ix' : FileIndex) {call later : Call τ} {token : τ}
    (hissued : Issues c x ix call token) (hcarries : later.pageToken = token) :
    (¬SameCall call later → Rejected (later.run c x' ix')) ↔ ¬Confuses call later := by
  obtain ⟨cur, rfl, hrecords⟩ := hissued.records
  rw [rejected_iff_not_checks hissued.1 hcarries, checks_iff hrecords, not_or]
  constructor
  · intro h hconfuses
    exact (h (not_sameCall_of_confuses hconfuses)).2 hconfuses
  · exact fun hconfuses hsame => ⟨hsame, hconfuses⟩

section Photos

def photosIndex : FileIndex where
  files := ⟨[⟨1, ascii "a", none, none, none, 0⟩, ⟨2, ascii "b", none, none, none, 0⟩], by decide,
    by decide, by decide⟩
  directories := ∅

def firstPage (query : Text) (pageToken : Option PageToken) : ListFilesRequest (Option PageToken) :=
  ⟨1, pageToken, query, [], .key, .asc⟩

def firstPageCursor : PageToken :=
  { sortField := .key, sortOrder := .asc, lastId := 1, key := ascii "a" }

def firstPageToken : Option PageToken := TokenCodec.plain.encode firstPageCursor

theorem firstPage_issues :
    Issues TokenCodec.plain TextSearch.none photosIndex (.listFiles (firstPage [] none))
      firstPageToken :=
  ⟨by decide, _, rfl, by decide⟩

theorem token_bound_of_query :
    Rejected (Call.run TokenCodec.plain TextSearch.none photosIndex
      (.listFiles (firstPage (ascii "b") firstPageToken))) := by
  have hcarries : (Call.listFiles (firstPage (ascii "b") firstPageToken)).pageToken =
    firstPageToken := rfl
  have hbound := (token_bound_iff TextSearch.none photosIndex firstPage_issues hcarries).mpr id
  exact hbound fun hsame => absurd hsame.1 (by decide)

theorem listFiles_token_accepted_by_searchDirectories :
    Issues TokenCodec.plain TextSearch.none photosIndex (.listFiles (firstPage [] none))
        firstPageToken ∧
      ¬SameCall (.listFiles (firstPage [] none)) (.searchDirectories ⟨[], 1, firstPageToken⟩) ∧
      ¬Rejected (Call.run TokenCodec.plain TextSearch.none photosIndex
        (.searchDirectories ⟨[], 1, firstPageToken⟩)) := by
  refine ⟨firstPage_issues, id, ?_⟩
  have hne : TokenCodec.plain.encode firstPageCursor ≠ TokenCodec.plain.empty := by decide
  rw [rejected_iff_not_checks hne rfl, not_not]
  rfl

end Photos

end Binding

end Search

end FileIndexer
