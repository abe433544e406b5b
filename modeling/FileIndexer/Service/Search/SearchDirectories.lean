import FileIndexer.Service.Search.Tokens

namespace FileIndexer

namespace Search

section Following

variable {τ : Type} [DecidableEq τ] (c : TokenCodec τ)

def searchDirectoriesFollowing (x : TextSearch) (query : Text) :
    τ → List (Nat × FileIndex) → Except Status (Bool × List (List Key))
  | _, [] => .ok (false, [])
  | pageToken, (pageSize, ix) :: calls => do
    let resp ← Rpc.searchDirectories c x ix ⟨query, pageSize, pageToken⟩
    if resp.nextPageToken = c.empty then
      .ok (true, [resp.directories])
    else
      let (done, pages) ← searchDirectoriesFollowing x query resp.nextPageToken calls
      .ok (done, resp.directories :: pages)

end Following

section Traversal

variable {τ : Type} [DecidableEq τ] {c : TokenCodec τ} {x : TextSearch} {query : Text}

def matchesQuery (x : TextSearch) (query : Text) (path : Key) : Bool :=
  query = [] || x.ilike path ([likeSymbols.many] ++ escapeLike query ++ [likeSymbols.many]) ||
    x.wordSimilar path query

def ascending {α : Type} [LinearOrder α] (s : Finset α) : List α := s.sort (· ≤ ·)

def foundDirectories (x : TextSearch) (query : Text) (d : Directories) : List Key :=
  ascending (d.filter fun path => matchesQuery x query path = true)

theorem mem_foundDirectories {d : Directories} {path : Key} :
    path ∈ foundDirectories x query d ↔ path ∈ d ∧ matchesQuery x query path = true := by
  rw [foundDirectories, ascending, Finset.mem_sort, Finset.mem_filter]

theorem nodup_foundDirectories (x : TextSearch) (query : Text) (d : Directories) :
    ((foundDirectories x query d).map id).Nodup := by
  rw [List.map_id]
  exact Finset.sort_nodup _ _

theorem length_foundDirectories_le (x : TextSearch) (query : Text) (d : Directories) :
    (foundDirectories x query d).length ≤ d.card := by
  rw [foundDirectories, ascending, Finset.length_sort]
  exact Finset.card_filter_le _ _

theorem searchDirectories_eq (d : Directories) (cur : Option PageToken) (limit : Nat) :
    Search.searchDirectories x d query
        ([likeSymbols.many] ++ escapeLike query ++ [likeSymbols.many]) cur.isSome
        (cur.getD {}).lastDir limit =
      Paging.page id (cur.map PageToken.lastDir) limit (foundDirectories x query d) := by
  have hfound : (d.filter fun path => query = [] ∨
      x.ilike path ([likeSymbols.many] ++ escapeLike query ++ [likeSymbols.many]) = true ∨
        x.wordSimilar path query = true) =
      d.filter fun path => matchesQuery x query path = true := by
    refine Finset.filter_congr fun path _ => ?_
    simp [matchesQuery, or_assoc]
  rw [Search.searchDirectories, hfound]
  cases cur with
  | none => rfl
  | some cur => rfl

inductive Resumed (c : TokenCodec τ) (query : Text) : τ → Option Key → Prop
  | first : Resumed c query c.empty none
  | after (last : Key) (hlast : last ≠ []) :
      Resumed c query (c.encode (newSearchDirsCursor query last)) (some last)

omit [DecidableEq τ] in
theorem newSearchDirsCursor_ne_empty {last : Key} (hlast : last ≠ []) :
    c.encode (newSearchDirsCursor query last) ≠ c.empty := by
  intro he
  have hdefault := (c.encode_eq_empty_iff _).mp he
  exact hlast (congrArg PageToken.lastDir hdefault)

theorem Resumed.readToken {pageToken : τ} {after : Option Key} (h : Resumed c query pageToken after) :
    ∃ cur, Search.readToken c pageToken (fun cur => cur.query = query) = .ok cur ∧
      cur.map PageToken.lastDir = after := by
  cases h with
  | first => exact ⟨none, by simp [Search.readToken], rfl⟩
  | after last hlast =>
    have hne : newSearchDirsCursor query last ≠ {} :=
      fun he => hlast (congrArg PageToken.lastDir he)
    exact ⟨some _, readToken_encode hne (by simp [newSearchDirsCursor]), rfl⟩

def nextDirectories (c : TokenCodec τ) (query : Text) (paths : List Key) : τ :=
  c.encode (newSearchDirsCursor query (paths.getLast?.getD []))

theorem Rpc.searchDirectories_eq (ix : FileIndex) {pageToken : τ} {after : Option Key}
    (h : Resumed c query pageToken after) (pageSize : Nat) :
    let rows := foundDirectories x query ix.directories
    let paths := Paging.page id after (normalizePageSize pageSize) rows
    Rpc.searchDirectories c x ix ⟨query, pageSize, pageToken⟩ =
      .ok ⟨paths, if Paging.isTruncated id after (normalizePageSize pageSize) rows
        then nextDirectories c query paths else c.empty⟩ := by
  intro rows paths
  obtain ⟨cur, hread, rfl⟩ := h.readToken
  rw [Rpc.searchDirectories]
  dsimp only
  rw [hread, Except.ok_bind, Search.searchDirectories_eq, Paging.take_probe]
  cases hmore : Paging.isTruncated id (cur.map PageToken.lastDir) (normalizePageSize pageSize)
    rows with
  | true =>
    have hlt := (Paging.isTruncated_eq_probe id _ _ rows).symm.trans hmore
    rw [if_pos (of_decide_eq_true hlt), if_pos rfl]
    rfl
  | false =>
    have hlt := (Paging.isTruncated_eq_probe id _ _ rows).symm.trans hmore
    rw [if_neg (of_decide_eq_false hlt), if_neg Bool.false_ne_true,
      Paging.probe_of_not_truncated hmore]

def searchedRows (x : TextSearch) (query : Text) (call : Nat × FileIndex) : Nat × List Key :=
  (normalizePageSize call.1, foundDirectories x query call.2.directories)

theorem searchDirectoriesFollowing_pages (x : TextSearch) {pageToken : τ} {after : Option Key}
    (h : Resumed c query pageToken after) {calls : List (Nat × FileIndex)}
    (hroot : ∀ call ∈ calls, [] ∉ call.2.directories) :
    ∃ done pages, searchDirectoriesFollowing c x query pageToken calls = .ok (done, pages) ∧
      Paging.Pages id done after (calls.map (searchedRows x query)) pages := by
  induction calls generalizing pageToken after with
  | nil => exact ⟨false, [], rfl, .stopped⟩
  | cons call calls ih =>
    obtain ⟨pageSize, ix⟩ := call
    have hresp := Rpc.searchDirectories_eq (x := x) ix h pageSize
    cases hmore : Paging.isTruncated id after (normalizePageSize pageSize)
      (foundDirectories x query ix.directories) with
    | false =>
      refine ⟨true, [_], ?_, .last _ hmore⟩
      rw [searchDirectoriesFollowing, hresp, Except.ok_bind]
      simp [hmore]
    | true =>
      have hne := Paging.page_ne_nil hmore (normalizePageSize_pos pageSize)
      have hlast := List.getLast?_eq_getLast_of_ne_nil hne
      generalize (Paging.page _ after (normalizePageSize pageSize) _).getLast hne = last at hlast
      have hmem := (Paging.mem_page (List.mem_of_getLast? hlast)).1
      have hpath : last ≠ [] := by
        rintro rfl
        exact hroot _ List.mem_cons_self (mem_foundDirectories.mp hmem).1
      have hcut := Paging.cuts_last (nodup_foundDirectories x query ix.directories) hlast
      have hcont : Resumed c query (nextDirectories c query (Paging.page id after
          (normalizePageSize pageSize) (foundDirectories x query ix.directories))) (some last) := by
        rw [nextDirectories, hlast]
        exact .after last hpath
      have hnext : nextDirectories c query (Paging.page id after (normalizePageSize pageSize)
          (foundDirectories x query ix.directories)) ≠ c.empty := by
        rw [nextDirectories, hlast]
        exact newSearchDirsCursor_ne_empty hpath
      obtain ⟨done, pages, hrun, hpages⟩ :=
        ih hcont fun call hcall => hroot call (List.mem_cons_of_mem _ hcall)
      refine ⟨done, _ :: pages, ?_, .next hmore hcut hpages⟩
      rw [searchDirectoriesFollowing, hresp, Except.ok_bind]
      simp only [hmore, if_true, hnext, if_false, hrun, Except.ok_bind]

omit [DecidableEq τ] in
theorem mem_searchedRows {calls : List (Nat × FileIndex)} {n : Nat} {rows : Nat × List Key}
    (h : rows ∈ (calls.map (searchedRows x query)).take n) :
    ∃ call ∈ calls.take n, rows = searchedRows x query call := by
  rw [← List.map_take] at h
  obtain ⟨call, hcall, rfl⟩ := List.mem_map.mp h
  exact ⟨call, hcall, rfl⟩

theorem search_directories_pagination (c : TokenCodec τ) (x : TextSearch) (query : Text)
    (calls : List (Nat × FileIndex)) (hroot : ∀ call ∈ calls, [] ∉ call.2.directories) :
    ∃ done pages, searchDirectoriesFollowing c x query c.empty calls = .ok (done, pages) ∧
      pages.flatten.Pairwise (· < ·) ∧
      (∀ d ∈ pages.flatten, matchesQuery x query d = true ∧
        ∃ call ∈ calls.take pages.length, d ∈ call.2.directories) ∧
      List.Forall₂ (fun call page => page.length ≤ normalizePageSize call.1)
        (calls.take pages.length) pages ∧
      (done = true → ∀ d, matchesQuery x query d = true →
        (∀ call ∈ calls.take pages.length, d ∈ call.2.directories) → pages.flatten.count d = 1) ∧
      ∀ dirs, (∀ call ∈ calls, call.2.directories = dirs) →
        (done = true → pages.flatten = foundDirectories x query dirs) ∧
        (dirs.card < calls.length → done = true) := by
  have hfirst : Resumed c query c.empty none := .first
  obtain ⟨done, pages, hrun, hpages⟩ := searchDirectoriesFollowing_pages x hfirst hroot
  have hnodup : ∀ rows ∈ (calls.map (searchedRows x query)).take pages.length,
      (rows.2.map id).Nodup := fun rows hrows => by
    obtain ⟨call, -, rfl⟩ := mem_searchedRows hrows
    exact nodup_foundDirectories x query _
  have hsorted : pages.flatten.Pairwise (· < ·) := hpages.sorted hnodup
  refine ⟨done, pages, hrun, hsorted, fun d hd => ?_, ?_, ?_, fun dirs hdirs => ⟨?_, ?_⟩⟩
  · obtain ⟨rows, hrows, hdr⟩ := hpages.mem hd
    obtain ⟨call, hcall, rfl⟩ := mem_searchedRows hrows
    obtain ⟨hmem, hmatch⟩ := mem_foundDirectories.mp hdr
    exact ⟨hmatch, call, hcall, hmem⟩
  · have hlen := hpages.length_page
    rw [← List.map_take, List.forall₂_map_left_iff] at hlen
    exact hlen
  · rintro rfl d hmatch hkept
    refine hpages.countP_eq_one hnodup (k := d) (fun rows hrows => ?_) (by simp)
      fun rows hrows e he => ?_
    · obtain ⟨call, hcall, rfl⟩ := mem_searchedRows hrows
      exact ⟨d, mem_foundDirectories.mpr ⟨hkept call hcall, hmatch⟩, rfl⟩
    · simp
  · rintro rfl
    have hrows : ∀ rows ∈ (calls.map (searchedRows x query)).take pages.length,
        rows.2 = foundDirectories x query dirs := fun rows hrows => by
      obtain ⟨call, hcall, rfl⟩ := mem_searchedRows hrows
      simp [searchedRows, hdirs call (List.mem_of_mem_take hcall)]
    have hall := hpages.eq_remaining (nodup_foundDirectories x query dirs) hrows
    rw [hall, Paging.remaining]
    simp only [Option.all_none, List.filter_true, id]
    exact (Finset.pairwise_sort _ _).insertionSort_eq
  · intro hlen
    by_contra hdone
    obtain rfl : done = false := by simpa using hdone
    have hle := hpages.length_le (nodup_foundDirectories x query dirs) fun rows hrows => by
      obtain ⟨call, hcall, rfl⟩ := List.mem_map.mp hrows
      exact ⟨normalizePageSize_pos call.1, by simp [searchedRows, hdirs call hcall]⟩
    have hrest : (Paging.remaining id none (foundDirectories x query dirs)).length ≤
        (foundDirectories x query dirs).length := by
      simp [Paging.remaining]
    have hcard := length_foundDirectories_le x query dirs
    rw [List.length_map] at hle
    omega

def folders : FileIndex where
  files := ⟨[], by decide, by decide, by decide⟩
  directories := {ascii "a/", ascii "b/"}

theorem search_directories_of_folders :
    ∃ pages, searchDirectoriesFollowing TokenCodec.plain TextSearch.none [] none
        [(1, folders), (5, folders), (1, folders)] = .ok (true, pages) ∧
      pages.flatten = foundDirectories TextSearch.none [] folders.directories := by
  obtain ⟨done, pages, hrun, -, -, -, -, hsame⟩ := search_directories_pagination TokenCodec.plain
    TextSearch.none [] [(1, folders), (5, folders), (1, folders)] (by decide)
  obtain ⟨hall, hdone⟩ := hsame folders.directories (by simp)
  obtain rfl := hdone (by decide)
  exact ⟨pages, hrun, hall rfl⟩

end Traversal

end Search

end FileIndexer
