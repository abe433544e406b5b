import FileIndexer.Foundation.Paging
import FileIndexer.Service.Files.DeleteFile
import FileIndexer.Service.Search.Cursor

namespace FileIndexer

namespace Search

inductive Arg where
  | sortField (field : SortField)
  | sortOrder (order : SortOrder)
  | key (k : Key)
  deriving DecidableEq, Repr

structure Status where
  code : Code
  format : String
  args : List Arg
  deriving DecidableEq, Repr

def invalidArgument (format : String) (args : List Arg) : Status := ⟨.invalidArgument, format, args⟩

-- the file_infos view
structure FileInfos where
  rows : List FileInfo
  pk : (rows.map FileInfo.id).Nodup
  unique : (rows.map FileInfo.key).Nodup
  serial : ∀ f ∈ rows, 0 < f.id

-- ILIKE and the trigram operator %>, as the database evaluates them on a key
structure TextSearch where
  ilike : Text → Text → Bool
  wordSimilar : Text → Text → Bool

def TextSearch.none : TextSearch := ⟨fun _ _ => false, fun _ _ => false⟩

structure ListFilesParams where
  keyPattern : Key
  keyQuery : Text
  keyQueryPattern : Text
  contentTypePattern : Text
  directOnly : Bool
  dirPrefix : Key
  hasCursor : Bool
  lastId : FileID
  pageLimit : Nat

def ListFilesParams.selects (x : TextSearch) (arg : ListFilesParams) (f : FileInfo) : Bool :=
  Like.like likeSymbols arg.keyPattern f.key = some true &&
    (arg.keyQuery = [] || x.ilike f.key arg.keyQueryPattern || x.wordSimilar f.key arg.keyQuery) &&
    (arg.contentTypePattern = [] ||
      f.contentType.any fun c => Like.like likeSymbols arg.contentTypePattern c = some true) &&
    (!arg.directOnly || slash ∉ f.key.drop arg.dirPrefix.length)

section Queries

variable (x : TextSearch) (t : FileInfos) (arg : ListFilesParams)

def listFilesBy (field : SortField) (order : SortOrder) (lastValue : SortValue field) :
    List FileInfo :=
  Paging.page (position field order)
    (if arg.hasCursor then some (.mk order lastValue arg.lastId) else none) arg.pageLimit
    (t.rows.filter (arg.selects x))

def listFilesByKeyAsc (lastKey : Key) : List FileInfo := listFilesBy x t arg .key .asc lastKey

def listFilesByKeyDesc (lastKey : Key) : List FileInfo := listFilesBy x t arg .key .desc lastKey

def listFilesByLastModifiedAsc (cursorLastModified : Time) : List FileInfo :=
  listFilesBy x t arg .lastModified .asc cursorLastModified

def listFilesByLastModifiedDesc (cursorLastModified : Time) : List FileInfo :=
  listFilesBy x t arg .lastModified .desc cursorLastModified

def listFilesBySizeAsc (lastSize : Int) : List FileInfo := listFilesBy x t arg .size .asc lastSize

def listFilesBySizeDesc (lastSize : Int) : List FileInfo := listFilesBy x t arg .size .desc lastSize

def listFilesByTakenAtAsc (cursorTakenAt : Time) : List FileInfo :=
  listFilesBy x t arg .takenAt .asc cursorTakenAt

def listFilesByTakenAtDesc (cursorTakenAt : Time) : List FileInfo :=
  listFilesBy x t arg .takenAt .desc cursorTakenAt

end Queries

def defaultPageSize : Nat := 50

def maxPageSize : Nat := 200

def normalizeSort (field : SortField) (order : SortOrder) : SortField × SortOrder :=
  (if field = .unspecified then .key else field, if order = .unspecified then .asc else order)

def normalizePageSize (pageSize : Nat) : Nat :=
  if pageSize = 0 then defaultPageSize else if pageSize > maxPageSize then maxPageSize else pageSize

def escapeLike (s : Text) : Text := Like.escape likeSymbols s

def contentTypeToPattern (contentType : Text) : Text :=
  if contentType = [] then []
  else if hasSlashSuffix contentType then escapeLike contentType ++ [likeSymbols.many]
  else escapeLike contentType

def listFilesParams (query contentType : Text) (directOnly : Bool) (dirPrefix : Key)
    (cur : Option PageToken) (limit : Nat) : ListFilesParams where
  keyPattern := if directOnly then escapeLike dirPrefix ++ [likeSymbols.many] else [likeSymbols.many]
  keyQuery := query
  keyQueryPattern := [likeSymbols.many] ++ escapeLike query ++ [likeSymbols.many]
  contentTypePattern := contentTypeToPattern contentType
  directOnly
  dirPrefix
  hasCursor := cur.any fun c => c.lastId ≠ 0
  lastId := (cur.getD {}).lastId
  pageLimit := limit

def listFiles (x : TextSearch) (t : FileInfos) (sortField : SortField) (sortOrder : SortOrder)
    (query contentType : Text) (directOnly : Bool) (dirPrefix : Key) (cur : Option PageToken)
    (limit : Nat) : Except Status (List FileInfo) :=
  let arg := listFilesParams query contentType directOnly dirPrefix cur limit
  let c := cur.getD {}
  match sortOrder, sortField with
  | .unspecified, _ => .error (invalidArgument "unsupported sort_order %v" [.sortOrder .unspecified])
  | .asc, .key => .ok (listFilesByKeyAsc x t arg c.key)
  | .desc, .key => .ok (listFilesByKeyDesc x t arg c.key)
  | .asc, .lastModified => .ok (listFilesByLastModifiedAsc x t arg c.lastModified)
  | .desc, .lastModified => .ok (listFilesByLastModifiedDesc x t arg c.lastModified)
  | .asc, .size => .ok (listFilesBySizeAsc x t arg c.size)
  | .desc, .size => .ok (listFilesBySizeDesc x t arg c.size)
  | .asc, .takenAt => .ok (listFilesByTakenAtAsc x t arg c.takenAt)
  | .desc, .takenAt => .ok (listFilesByTakenAtDesc x t arg c.takenAt)
  | _, .unspecified =>
    .error (invalidArgument "unsupported sort_field %v" [.sortField .unspecified])

structure ListFilesRequest (τ : Type) where
  pageSize : Nat
  pageToken : τ
  query : Text
  contentType : Text
  sortField : SortField
  sortOrder : SortOrder

structure ListFilesResponse (τ : Type) where
  files : List FileInfo
  nextPageToken : τ

section Rpc

variable {τ : Type} [DecidableEq τ] (c : TokenCodec τ)

def readToken (pageToken : τ) (same : PageToken → Bool) : Except Status (Option PageToken) :=
  if pageToken = c.empty then .ok none
  else
    match c.decode pageToken with
    | none => .error (invalidArgument "invalid page_token" [])
    | some cur =>
      if same cur then .ok (some cur)
      else .error (invalidArgument "page_token was issued for a different query" [])

def ListFilesRequest.sort (req : ListFilesRequest τ) : SortField × SortOrder :=
  normalizeSort req.sortField req.sortOrder

def Rpc.listFiles (x : TextSearch) (t : FileInfos) (req : ListFilesRequest τ) :
    Except Status (ListFilesResponse τ) := do
  let (sortField, sortOrder) := req.sort
  let limit := normalizePageSize req.pageSize
  let cur ← readToken c req.pageToken fun cur =>
    cur.sortField = sortField && cur.sortOrder = sortOrder && cur.query = req.query &&
      cur.contentType = req.contentType
  let files ← Search.listFiles x t sortField sortOrder req.query req.contentType false [] cur
    (limit + 1)
  if limit < files.length then
    let files := files.take limit
    let last := files.getLast?.getD .zero
    .ok ⟨files, c.encode (newCursor sortField sortOrder req.query req.contentType last)⟩
  else
    .ok ⟨files, c.empty⟩

def listFilesFollowing (x : TextSearch) (req : ListFilesRequest τ) :
    τ → List (Nat × FileInfos) → Except Status (Bool × List (List FileInfo))
  | _, [] => .ok (false, [])
  | pageToken, (pageSize, t) :: calls => do
    let resp ← Rpc.listFiles c x t { req with pageSize, pageToken }
    if resp.nextPageToken = c.empty then
      .ok (true, [resp.files])
    else
      let (done, pages) ← listFilesFollowing x req resp.nextPageToken calls
      .ok (done, resp.files :: pages)

end Rpc

section Query

variable {x : TextSearch} {field : SortField} {order : SortOrder}

theorem normalizeSort_ne_unspecified (field : SortField) (order : SortOrder) :
    (normalizeSort field order).1 ≠ .unspecified ∧ (normalizeSort field order).2 ≠ .unspecified := by
  cases field <;> cases order <;> simp [normalizeSort]

theorem normalizePageSize_pos (pageSize : Nat) : 0 < normalizePageSize pageSize := by
  unfold normalizePageSize
  split_ifs with hzero hmax
  · exact Nat.succ_pos _
  · exact Nat.succ_pos _
  · exact Nat.pos_of_ne_zero hzero

def selected (x : TextSearch) (query contentType : Text) (directOnly : Bool) (dirPrefix : Key) :
    FileInfo → Bool :=
  (listFilesParams query contentType directOnly dirPrefix none 0).selects x

def cursorPosition (field : SortField) (order : SortOrder) (cur : Option PageToken) :
    Option (Position field order) :=
  (cur.filter fun c => c.lastId ≠ 0).map fun c => .mk order (tokenValue field c) c.lastId

theorem cursorPosition_of_last {cur : PageToken} {last : FileInfo} (hlast : cur.lastId = last.id)
    (hvalue : tokenValue field cur = sortValue field last) (hid : 0 < last.id) :
    cursorPosition field order (some cur) = some (position field order last) := by
  have hne : last.id ≠ 0 := hid.ne'
  simp [cursorPosition, Option.filter, hne, hvalue, hlast, position]

theorem listFilesBy_eq (t : FileInfos) (query contentType : Text) (directOnly : Bool)
    (dirPrefix : Key) (cur : Option PageToken) (limit : Nat) :
    listFilesBy x t (listFilesParams query contentType directOnly dirPrefix cur limit) field order
        (tokenValue field (cur.getD {})) =
      Paging.page (position field order) (cursorPosition field order cur) limit
        (t.rows.filter (selected x query contentType directOnly dirPrefix)) := by
  have hafter : (if (cur.any fun c => c.lastId ≠ 0) = true then
      some (Position.mk order (tokenValue field (cur.getD {})) (cur.getD {}).lastId) else none) =
        cursorPosition field order cur := by
    cases cur with
    | none => rfl
    | some c =>
      cases hid : decide (c.lastId = 0) with
      | true => simp_all [cursorPosition]
      | false => simp_all [cursorPosition, Option.filter]
  rw [← hafter]
  rfl

theorem listFiles_eq (hfield : field ≠ .unspecified) (horder : order ≠ .unspecified) (t : FileInfos)
    (query contentType : Text) (directOnly : Bool) (dirPrefix : Key) (cur : Option PageToken)
    (limit : Nat) :
    listFiles x t field order query contentType directOnly dirPrefix cur limit =
      .ok (Paging.page (position field order) (cursorPosition field order cur) limit
        (t.rows.filter (selected x query contentType directOnly dirPrefix))) := by
  rw [← listFilesBy_eq]
  cases order with
  | unspecified => exact absurd rfl horder
  | asc =>
    cases field with
    | unspecified => exact absurd rfl hfield
    | key => rfl
    | lastModified => rfl
    | size => rfl
    | takenAt => rfl
  | desc =>
    cases field with
    | unspecified => exact absurd rfl hfield
    | key => rfl
    | lastModified => rfl
    | size => rfl
    | takenAt => rfl

theorem nodup_positions (t : FileInfos) (p : FileInfo → Bool) :
    ((t.rows.filter p).map (position field order)).Nodup := by
  have hids : ((t.rows.filter p).map FileInfo.id).Nodup := Rows.nodup_map_filter t.pk p
  refine Rows.nodup_map_of_inj hids fun f hf g hg hpos => ?_
  exact Rows.eq_of_pk hids hf hg (Position.mk_inj.mp hpos).2

end Query

section Traversal

variable {τ : Type} [DecidableEq τ] {c : TokenCodec τ} {x : TextSearch}

omit [DecidableEq τ] in
theorem ListFilesRequest.sort_specified (req : ListFilesRequest τ) :
    req.sort.1 ≠ .unspecified ∧ req.sort.2 ≠ .unspecified :=
  normalizeSort_ne_unspecified req.sortField req.sortOrder

def ListFilesRequest.selects (x : TextSearch) (req : ListFilesRequest τ) : FileInfo → Bool :=
  selected x req.query req.contentType false []

inductive Continues (c : TokenCodec τ) (req : ListFilesRequest τ) :
    τ → Option (Position req.sort.1 req.sort.2) → Prop
  | first : Continues c req c.empty none
  | after (last : FileInfo) (hid : 0 < last.id) :
      Continues c req (c.encode (newCursor req.sort.1 req.sort.2 req.query req.contentType last))
        (some (position req.sort.1 req.sort.2 last))

theorem readToken_encode {cur : PageToken} {same : PageToken → Bool} (hne : cur ≠ {})
    (hsame : same cur = true) : readToken c (c.encode cur) same = .ok (some cur) := by
  have hempty : c.encode cur ≠ c.empty := fun he => hne ((c.encode_eq_empty_iff cur).mp he)
  simp [readToken, hempty, c.decode_encode, hsame]

theorem Continues.readToken {req : ListFilesRequest τ} {pageToken : τ}
    {after : Option (Position req.sort.1 req.sort.2)} (h : Continues c req pageToken after) :
    ∃ cur, (Search.readToken c pageToken fun cur =>
        cur.sortField = req.sort.1 && cur.sortOrder = req.sort.2 && cur.query = req.query &&
          cur.contentType = req.contentType) = .ok cur ∧
      cursorPosition req.sort.1 req.sort.2 cur = after := by
  cases h with
  | first => exact ⟨none, by simp [Search.readToken], rfl⟩
  | after last hid =>
    obtain ⟨hfield, horder, hlast, hquery, htype, -⟩ :=
      newCursor_fields req.sort.1 req.sort.2 req.query req.contentType last
    have hne : newCursor req.sort.1 req.sort.2 req.query req.contentType last ≠ {} := by
      intro he
      have hzero : last.id = 0 := by rw [← hlast, he]
      exact hid.ne' hzero
    refine ⟨some _, readToken_encode hne (by simp [hfield, horder, hquery, htype]), ?_⟩
    exact cursorPosition_of_last hlast (tokenValue_setSortValue _ _ last) hid

def nextCursor (c : TokenCodec τ) (req : ListFilesRequest τ) (files : List FileInfo) : τ :=
  c.encode (newCursor req.sort.1 req.sort.2 req.query req.contentType (files.getLast?.getD .zero))

theorem Rpc.listFiles_def (x : TextSearch) (t : FileInfos) (req : ListFilesRequest τ)
    (pageSize : Nat) (pageToken : τ) :
    Rpc.listFiles c x t { req with pageSize, pageToken } = (do
      let cur ← readToken c pageToken fun cur =>
        cur.sortField = req.sort.1 && cur.sortOrder = req.sort.2 && cur.query = req.query &&
          cur.contentType = req.contentType
      let probed ← Search.listFiles x t req.sort.1 req.sort.2 req.query req.contentType false []
        cur (normalizePageSize pageSize + 1)
      if normalizePageSize pageSize < probed.length then
        .ok ⟨probed.take (normalizePageSize pageSize),
          nextCursor c req (probed.take (normalizePageSize pageSize))⟩
      else .ok ⟨probed, c.empty⟩) := rfl

theorem Rpc.listFiles_eq (x : TextSearch) (t : FileInfos) {req : ListFilesRequest τ} {pageToken : τ}
    {after : Option (Position req.sort.1 req.sort.2)} (h : Continues c req pageToken after)
    (pageSize : Nat) :
    let key := position req.sort.1 req.sort.2
    let rows := t.rows.filter (req.selects x)
    let files := Paging.page key after (normalizePageSize pageSize) rows
    Rpc.listFiles c x t { req with pageSize, pageToken } =
      .ok ⟨files, if Paging.isTruncated key after (normalizePageSize pageSize) rows
        then nextCursor c req files else c.empty⟩ := by
  intro key rows files
  obtain ⟨hfield, horder⟩ := req.sort_specified
  obtain ⟨cur, hread, rfl⟩ := h.readToken
  have hfiles : Search.listFiles x t req.sort.1 req.sort.2 req.query req.contentType false [] cur
      (normalizePageSize pageSize + 1) =
        .ok (Paging.page key (cursorPosition req.sort.1 req.sort.2 cur)
          (normalizePageSize pageSize + 1) rows) :=
    Search.listFiles_eq hfield horder t req.query req.contentType false [] cur _
  rw [Rpc.listFiles_def, hread, Except.ok_bind, hfiles, Except.ok_bind, Paging.take_probe]
  cases hmore : Paging.isTruncated key (cursorPosition req.sort.1 req.sort.2 cur)
    (normalizePageSize pageSize) rows with
  | true =>
    have hlt := (Paging.isTruncated_eq_probe key _ _ rows).symm.trans hmore
    rw [if_pos (of_decide_eq_true hlt), if_pos rfl]
  | false =>
    have hlt := (Paging.isTruncated_eq_probe key _ _ rows).symm.trans hmore
    rw [if_neg (of_decide_eq_false hlt), if_neg Bool.false_ne_true,
      Paging.probe_of_not_truncated hmore]

omit [DecidableEq τ] in
theorem nextCursor_ne_empty {req : ListFilesRequest τ} {files : List FileInfo} :
    nextCursor c req files ≠ c.empty := by
  obtain ⟨hfield, -⟩ := req.sort_specified
  intro he
  have hdefault := (c.encode_eq_empty_iff _).mp he
  have hcursor := (newCursor_fields req.sort.1 req.sort.2 req.query req.contentType
    (files.getLast?.getD .zero)).1
  rw [hdefault] at hcursor
  exact hfield hcursor.symm

def visited (calls : List (Nat × FileInfos)) (pages : List (List FileInfo)) : List FileInfos :=
  (calls.take pages.length).map Prod.snd

def ListFilesRequest.rows (x : TextSearch) (req : ListFilesRequest τ) (call : Nat × FileInfos) :
    Nat × List FileInfo :=
  (normalizePageSize call.1, call.2.rows.filter (req.selects x))

theorem listFilesFollowing_pages (x : TextSearch) (req : ListFilesRequest τ) {pageToken : τ}
    {after : Option (Position req.sort.1 req.sort.2)} (h : Continues c req pageToken after)
    (calls : List (Nat × FileInfos)) :
    ∃ done pages, listFilesFollowing c x req pageToken calls = .ok (done, pages) ∧
      Paging.Pages (position req.sort.1 req.sort.2) done after (calls.map (req.rows x)) pages := by
  induction calls generalizing pageToken after with
  | nil => exact ⟨false, [], rfl, .stopped⟩
  | cons call calls ih =>
    obtain ⟨pageSize, t⟩ := call
    have hresp := Rpc.listFiles_eq x t h pageSize
    cases hmore : Paging.isTruncated (position req.sort.1 req.sort.2) after
      (normalizePageSize pageSize) (t.rows.filter (req.selects x)) with
    | false =>
      refine ⟨true, [_], ?_, .last _ hmore⟩
      rw [listFilesFollowing, hresp, Except.ok_bind]
      simp [hmore]
    | true =>
      have hne := Paging.page_ne_nil hmore (normalizePageSize_pos pageSize)
      have hlast := List.getLast?_eq_getLast_of_ne_nil hne
      generalize (Paging.page _ after (normalizePageSize pageSize) _).getLast hne = last at hlast
      have hmem : last ∈ t.rows :=
        List.mem_of_mem_filter (Paging.mem_page (List.mem_of_getLast? hlast)).1
      have hcut := Paging.cuts_last (nodup_positions t (req.selects x)) hlast
      have hcont : Continues c req (nextCursor c req (Paging.page (position req.sort.1 req.sort.2)
          after (normalizePageSize pageSize) (t.rows.filter (req.selects x))))
          (some (position req.sort.1 req.sort.2 last)) := by
        rw [nextCursor, hlast]
        exact .after last (t.serial last hmem)
      obtain ⟨done, pages, hrun, hpages⟩ := ih hcont
      refine ⟨done, _ :: pages, ?_, .next hmore hcut hpages⟩
      rw [listFilesFollowing, hresp, Except.ok_bind]
      simp only [hmore, if_true, nextCursor_ne_empty, if_false, hrun, Except.ok_bind]

omit [DecidableEq τ] in
theorem mem_visited {req : ListFilesRequest τ} {calls : List (Nat × FileInfos)}
    {pages : List (List FileInfo)} {rows : Nat × List FileInfo}
    (h : rows ∈ (calls.map (req.rows x)).take pages.length) :
    ∃ t ∈ visited calls pages, rows.2 = t.rows.filter (req.selects x) := by
  rw [← List.map_take] at h
  obtain ⟨call, hcall, rfl⟩ := List.mem_map.mp h
  exact ⟨call.2, List.mem_map_of_mem hcall, rfl⟩

theorem list_files_pagination (c : TokenCodec τ) (x : TextSearch) (req : ListFilesRequest τ)
    (calls : List (Nat × FileInfos)) :
    ∃ done pages, listFilesFollowing c x req c.empty calls = .ok (done, pages) ∧
      (pages.flatten.Pairwise fun f g =>
        position req.sort.1 req.sort.2 f < position req.sort.1 req.sort.2 g) ∧
      (∀ f ∈ pages.flatten, ∃ t ∈ visited calls pages, f ∈ t.rows ∧ req.selects x f = true) ∧
      (pages.flatten.Pairwise fun f g =>
        f.id = g.id → sortValue req.sort.1 f ≠ sortValue req.sort.1 g) ∧
      (done = true → ∀ id v, (∀ t ∈ visited calls pages, ∃ f ∈ t.rows, f.id = id ∧
          sortValue req.sort.1 f = v ∧ req.selects x f = true) →
        pages.flatten.countP (fun f => f.id = id) = 1) ∧
      ∀ t, (∀ call ∈ calls, call.2 = t) →
        (done = true → pages.flatten = (t.rows.filter (req.selects x)).insertionSort
          fun f g => position req.sort.1 req.sort.2 f ≤ position req.sort.1 req.sort.2 g) ∧
        (t.rows.length < calls.length → done = true) := by
  obtain ⟨done, pages, hrun, hpages⟩ := listFilesFollowing_pages x req (Continues.first) calls
  have hnodup : ∀ rows ∈ (calls.map (req.rows x)).take pages.length,
      (rows.2.map (position req.sort.1 req.sort.2)).Nodup := fun rows hrows => by
    obtain ⟨t, -, heq⟩ := mem_visited hrows
    rw [heq]
    exact nodup_positions t (req.selects x)
  have hsorted := hpages.sorted hnodup
  refine ⟨done, pages, hrun, hsorted, fun f hf => ?_, hsorted.imp ?_, ?_, fun t ht => ⟨?_, ?_⟩⟩
  · obtain ⟨rows, hrows, hfr⟩ := hpages.mem hf
    obtain ⟨t, ht, heq⟩ := mem_visited hrows
    rw [heq] at hfr
    exact ⟨t, ht, List.mem_filter.mp hfr⟩
  · intro f g hlt hid hvalue
    exact absurd (Position.mk_inj.mpr ⟨hvalue, hid⟩) hlt.ne
  · rintro rfl id v hkept
    refine hpages.countP_eq_one hnodup (k := .mk _ v id) (fun rows hrows => ?_) (by simp)
      fun rows hrows g hg => ?_
    · obtain ⟨t, ht, heq⟩ := mem_visited hrows
      obtain ⟨f, hf, hid, hvalue, hsel⟩ := hkept t ht
      exact ⟨f, heq ▸ List.mem_filter.mpr ⟨hf, hsel⟩, Position.mk_inj.mpr ⟨hvalue, hid⟩⟩
    · obtain ⟨t, ht, heq⟩ := mem_visited hrows
      obtain ⟨f, hf, hid, hvalue, -⟩ := hkept t ht
      have hgt : g ∈ t.rows := List.mem_of_mem_filter (heq ▸ hg)
      rw [decide_eq_true_iff]
      refine ⟨fun hgid => ?_, fun hpos => (Position.mk_inj.mp hpos).2⟩
      obtain rfl : f = g := Rows.eq_of_pk t.pk hf hgt (hid.trans hgid.symm)
      exact Position.mk_inj.mpr ⟨hvalue, hid⟩
  · rintro rfl
    have hrows : ∀ rows ∈ (calls.map (req.rows x)).take pages.length,
        rows.2 = t.rows.filter (req.selects x) := fun rows hrows => by
      obtain ⟨call, hcall, rfl⟩ := List.mem_map.mp (List.mem_of_mem_take hrows)
      simp [ListFilesRequest.rows, ht call hcall]
    have hall := hpages.eq_remaining (nodup_positions t (req.selects x)) hrows
    simpa [Paging.remaining] using hall
  · intro hlen
    by_contra hdone
    obtain rfl : done = false := by simpa using hdone
    have hle := hpages.length_le (nodup_positions t (req.selects x)) fun rows hrows => by
      obtain ⟨call, hcall, rfl⟩ := List.mem_map.mp hrows
      exact ⟨normalizePageSize_pos call.1, by simp [ListFilesRequest.rows, ht call hcall]⟩
    have hrest : (Paging.remaining (position req.sort.1 req.sort.2) none
        (t.rows.filter (req.selects x))).length ≤ t.rows.length := by
      simpa [Paging.remaining] using List.length_filter_le (req.selects x) t.rows
    rw [List.length_map] at hle
    omega

end Traversal

end Search

end FileIndexer
