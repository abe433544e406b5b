import FileIndexer.Foundation.Calendar
import FileIndexer.Service.Search.ContentTypes
import FileIndexer.Web.FileDto

namespace FileIndexer

namespace Web

open Search

section FormatDate

def months : List Text :=
  ["Jan", "Feb", "Mar", "Apr", "May", "Jun", "Jul", "Aug", "Sep", "Oct", "Nov", "Dec"].map ascii

-- a day counted from 1970 in the en-US format, which names the era of no year
def formatDay (n : Int) : Text :=
  let d := Calendar.ofDay n
  months.getD (d.month - 1).toNat [] ++ ascii " " ++ decimal d.day.toNat ++ ascii ", " ++
    decimal (if 1 ≤ d.year then d.year else 1 - d.year).toNat

def msPerDay : Int := 86400000

def formatDate (isoDate : Option IsoDate) : Text := isoDate.elim [] fun ms => formatDay (ms / msPerDay)

example : formatDate (some 1774656000000) = ascii "Mar 28, 2026" := by decide

theorem months_inj {m n : Nat} (hm : m < 12) (hn : n < 12)
    (h : months.getD m [] = months.getD n []) : m = n := by
  have hall : ∀ m < 12, ∀ n < 12, months.getD m [] = months.getD n [] → m = n := by decide
  exact hall m hm n hn h

theorem length_months {m : Nat} (hm : m < 12) : (months.getD m []).length = 3 := by
  have hall : ∀ m < 12, (months.getD m []).length = 3 := by decide
  exact hall m hm

theorem comma_not_mem_decimal (n : Nat) : 44 ∉ decimal n := by
  intro h
  exact absurd (mem_decimal h) (by decide)

def firstDay : Int := -719162

theorem formatDay_inj {m n : Int} (hm : firstDay ≤ m) (hn : firstDay ≤ n)
    (h : formatDay m = formatDay n) : m = n := by
  obtain ⟨⟨hm1, hm12⟩, hmd, -⟩ := Calendar.ofDay_bounds m
  obtain ⟨⟨hn1, hn12⟩, hnd, -⟩ := Calendar.ofDay_bounds n
  have hmy := Calendar.year_pos hm
  have hny := Calendar.year_pos hn
  apply Calendar.ofDay_injective
  unfold formatDay at h
  generalize Calendar.ofDay m = d at *
  generalize Calendar.ofDay n = e at *
  simp only [if_pos hmy, if_pos hny, List.append_assoc] at h
  obtain ⟨hmonth, hrest⟩ := List.append_inj h
    ((length_months (by omega)).trans (length_months (by omega)).symm)
  have hcomma : decimal d.day.toNat ++ 44 :: (ascii " " ++ decimal d.year.toNat) =
      decimal e.day.toNat ++ 44 :: (ascii " " ++ decimal e.year.toNat) :=
    List.append_cancel_left (show ascii " " ++ _ = ascii " " ++ _ from hrest)
  have hafter : 44 ∉ ascii " " ++ decimal d.year.toNat := by
    rw [List.mem_append, not_or]
    exact ⟨by decide, comma_not_mem_decimal _⟩
  obtain ⟨hday, -, hyear⟩ :=
    (List.append_cons_inj_of_notMem (comma_not_mem_decimal _) hafter).mp hcomma
  have hmonth' := months_inj (by omega) (by omega) hmonth
  have hday' := decimal_injective hday
  have hyear' := decimal_injective
    (List.append_cancel_left (show ascii " " ++ _ = ascii " " ++ _ from hyear))
  obtain ⟨dy, dm, dd⟩ := d
  obtain ⟨ey, em, ed⟩ := e
  simp only [Calendar.Date.mk.injEq] at *
  omega

end FormatDate

section GroupByDay

structure DayGroup where
  date : Text
  files : List FileDto
  deriving DecidableEq, Repr

def effectiveDate (file : FileDto) : Option IsoDate :=
  (file.takenAt.or file.updatedAt).or file.createdAt

def addToDay (groups : List DayGroup) (file : FileDto) : List DayGroup :=
  let date := formatDate (effectiveDate file)
  match groups.getLast? with
  | none => groups ++ [⟨date, [file]⟩]
  | some last =>
    if last.date ≠ date then groups ++ [⟨date, [file]⟩]
    else groups.dropLast ++ [{ last with files := last.files ++ [file] }]

def groupByDay (files : List FileDto) : List DayGroup := files.foldl addToDay []

theorem groupByDay_concat (files : List FileDto) (file : FileDto) :
    groupByDay (files ++ [file]) = addToDay (groupByDay files) file := by
  rw [groupByDay, List.foldl_append]
  rfl

theorem addToDay_cases (groups : List DayGroup) (file : FileDto) :
    (addToDay groups file = groups ++ [⟨formatDate (effectiveDate file), [file]⟩] ∧
      ∀ last, groups.getLast? = some last → last.date ≠ formatDate (effectiveDate file)) ∨
    ∃ init last, groups = init ++ [last] ∧ last.date = formatDate (effectiveDate file) ∧
      addToDay groups file = init ++ [{ last with files := last.files ++ [file] }] := by
  unfold addToDay
  dsimp only
  split
  · rename_i hnone
    exact Or.inl ⟨rfl, fun last hlast => by rw [hnone] at hlast; cases hlast⟩
  · rename_i last hlast
    split
    · rename_i hne
      refine Or.inl ⟨rfl, fun last' hlast' => ?_⟩
      obtain rfl := Option.some.inj (hlast.symm.trans hlast')
      exact hne
    · rename_i heq
      obtain ⟨init, rfl⟩ := List.getLast?_eq_some_iff.mp hlast
      exact Or.inr ⟨init, last, rfl, by simpa using heq, by rw [List.dropLast_concat]⟩

theorem dates_addToDay (groups : List DayGroup) (file : FileDto) :
    groups.map DayGroup.date <+: (addToDay groups file).map DayGroup.date := by
  rcases addToDay_cases groups file with ⟨heq, -⟩ | ⟨init, last, rfl, -, heq⟩
  · rw [heq, List.map_append]
    exact List.prefix_append _ _
  · rw [heq, List.map_append, List.map_append]
    exact List.prefix_rfl

theorem dates_groupByDay_append (files more : List FileDto) :
    (groupByDay files).map DayGroup.date <+: (groupByDay (files ++ more)).map DayGroup.date := by
  induction more using List.reverseRecOn with
  | nil => rw [List.append_nil]
  | append_singleton more file ih =>
    rw [← List.append_assoc, groupByDay_concat]
    exact ih.trans (dates_addToDay _ _)

structure GroupedByDay (files : List FileDto) (groups : List DayGroup) : Prop where
  files : groups.flatMap DayGroup.files = files
  nonempty : ∀ g ∈ groups, g.files ≠ []
  date : ∀ g ∈ groups, ∀ file ∈ g.files, formatDate (effectiveDate file) = g.date

theorem groupedByDay (files : List FileDto) : GroupedByDay files (groupByDay files) := by
  induction files using List.reverseRecOn with
  | nil => exact ⟨rfl, by simp [groupByDay], by simp [groupByDay]⟩
  | append_singleton files file ih =>
    rw [groupByDay_concat]
    rcases addToDay_cases (groupByDay files) file with ⟨heq, -⟩ | ⟨init, last, hlast, hdate, heq⟩
    · rw [heq]
      refine ⟨by simp [ih.files], fun g hg => ?_, fun g hg f hf => ?_⟩
      · rcases List.mem_append.mp hg with hg | hg
        · exact ih.nonempty g hg
        · obtain rfl := List.mem_singleton.mp hg
          exact List.cons_ne_nil _ _
      · rcases List.mem_append.mp hg with hg | hg
        · exact ih.date g hg f hf
        · obtain rfl := List.mem_singleton.mp hg
          obtain rfl := List.mem_singleton.mp hf
          rfl
    · rw [heq]
      rw [hlast] at ih
      refine ⟨?_, fun g hg => ?_, fun g hg f hf => ?_⟩
      · rw [← ih.files]
        simp
      · rcases List.mem_append.mp hg with hg | hg
        · exact ih.nonempty g (List.mem_append_left _ hg)
        · obtain rfl := List.mem_singleton.mp hg
          simp
      · rcases List.mem_append.mp hg with hg | hg
        · exact ih.date g (List.mem_append_left _ hg) f hf
        · obtain rfl := List.mem_singleton.mp hg
          rcases List.mem_append.mp hf with hf | hf
          · exact ih.date last (List.mem_append_right _ (List.mem_singleton_self _)) f hf
          · obtain rfl := List.mem_singleton.mp hf
            exact hdate.symm

def day (isoDate : Option IsoDate) : Int := (isoDate.getD 0) / msPerDay

structure NewestFirst (files : List FileDto) : Prop where
  dated : ∀ file ∈ files, effectiveDate file ≠ none ∧ firstDay ≤ day (effectiveDate file)
  sorted : files.Pairwise fun e f => day (effectiveDate f) ≤ day (effectiveDate e)

theorem formatDate_of_day {a b : Option IsoDate} (ha : a ≠ none) (hb : b ≠ none)
    (h : day a = day b) : formatDate a = formatDate b := by
  obtain ⟨m, rfl⟩ := Option.ne_none_iff_exists'.mp ha
  obtain ⟨n, rfl⟩ := Option.ne_none_iff_exists'.mp hb
  exact congrArg formatDay h

theorem NewestFirst.day_eq {files : List FileDto} (h : NewestFirst files) {e f : FileDto}
    (he : e ∈ files) (hf : f ∈ files)
    (hdate : formatDate (effectiveDate e) = formatDate (effectiveDate f)) :
    day (effectiveDate e) = day (effectiveDate f) := by
  obtain ⟨hesome, heday⟩ := h.dated e he
  obtain ⟨hfsome, hfday⟩ := h.dated f hf
  obtain ⟨a, ha⟩ := Option.ne_none_iff_exists'.mp hesome
  obtain ⟨b, hb⟩ := Option.ne_none_iff_exists'.mp hfsome
  rw [ha] at hdate heday ⊢
  rw [hb] at hdate hfday ⊢
  exact formatDay_inj heday hfday hdate

theorem date_not_mem {files : List FileDto} {file : FileDto} (h : NewestFirst (files ++ [file]))
    (hlast : ∀ last, (groupByDay files).getLast? = some last →
      last.date ≠ formatDate (effectiveDate file)) :
    formatDate (effectiveDate file) ∉ (groupByDay files).map DayGroup.date := by
  intro hmem
  have hgrouped := groupedByDay files
  obtain ⟨g, hg, hgdate⟩ := List.mem_map.mp hmem
  obtain ⟨init, last, hinit⟩ :=
    (List.eq_nil_or_concat (groupByDay files)).resolve_left (List.ne_nil_of_mem hg)
  rw [List.concat_eq_append] at hinit
  have hne := hlast last (by rw [hinit, List.getLast?_concat])
  have hginit : g ∈ init := by
    rw [hinit] at hg
    refine (List.mem_append.mp hg).resolve_right fun hmem => hne ?_
    rw [← List.mem_singleton.mp hmem, hgdate]
  have hlastmem : last ∈ groupByDay files := by simp [hinit]
  have hflat := hgrouped.files
  rw [hinit, List.flatMap_append, List.flatMap_singleton] at hflat
  obtain ⟨f, hf⟩ := List.exists_mem_of_ne_nil _ (hgrouped.nonempty g hg)
  obtain ⟨l, hl⟩ := List.exists_mem_of_ne_nil _ (hgrouped.nonempty last hlastmem)
  have hfinit : f ∈ init.flatMap DayGroup.files := List.mem_flatMap.mpr ⟨g, hginit, hf⟩
  have hsorted := List.pairwise_append.mp h.sorted
  rw [← hflat] at hsorted
  have hfl : day (effectiveDate l) ≤ day (effectiveDate f) :=
    (List.pairwise_append.mp hsorted.1).2.2 f hfinit l hl
  have hlfile : day (effectiveDate file) ≤ day (effectiveDate l) :=
    hsorted.2.2 l (List.mem_append_right _ hl) file (List.mem_singleton_self _)
  have hfmem : f ∈ files := hflat ▸ List.mem_append_left _ hfinit
  have hlmem : l ∈ files := hflat ▸ List.mem_append_right _ hl
  have hfile : file ∈ files ++ [file] := List.mem_append_right _ (List.mem_singleton_self _)
  have hback : day (effectiveDate f) = day (effectiveDate file) :=
    h.day_eq (List.mem_append_left _ hfmem) hfile ((hgrouped.date g hg f hf).trans hgdate)
  apply hne
  rw [← hgrouped.date last hlastmem l hl]
  exact formatDate_of_day (h.dated l (List.mem_append_left _ hlmem)).1 (h.dated file hfile).1
    (by omega)

theorem nodup_dates {files : List FileDto} (h : NewestFirst files) :
    ((groupByDay files).map DayGroup.date).Nodup := by
  induction files using List.reverseRecOn with
  | nil => exact List.nodup_nil
  | append_singleton files file ih =>
    have hfiles : NewestFirst files :=
      ⟨fun f hf => h.dated f (List.mem_append_left _ hf), (List.pairwise_append.mp h.sorted).1⟩
    have hnodup := ih hfiles
    rw [groupByDay_concat]
    rcases addToDay_cases (groupByDay files) file with ⟨heq, hlast⟩ | ⟨init, last, hlast, -, heq⟩
    · rw [heq, List.map_append, List.map_singleton]
      refine List.nodup_append.mpr ⟨hnodup, List.nodup_singleton _, ?_⟩
      rintro date hmem date' hdate' rfl
      obtain rfl := List.mem_singleton.mp hdate'
      exact date_not_mem h hlast hmem
    · rw [hlast] at hnodup
      rw [heq]
      simpa using hnodup

end GroupByDay

section Photos

variable {τ : Type} [DecidableEq τ] (c : TokenCodec τ) (x : TextSearch) (wkt : Wkt)

def image : Text := ascii "image/"

def photosInput : ListFilesInput τ where
  pageSize := some 24
  pageToken := none
  query := some []
  contentType := some image
  sortField := some .takenAt
  sortOrder := some .desc

def photoWall (pages : List (List FileDto)) : List DayGroup := groupByDay pages.flatten

variable {x wkt}

theorem endsInOnlySlash_image : EndsInOnlySlash image := ⟨ascii "image", by decide, rfl⟩

theorem day_effectiveDate {q : IndexQueue} {r : FileRow} {d : FileDto} (h : ShowsRow wkt q r d)
    (hjoined : r.Joined) (himage : HasCategory image r.toFileInfo) :
    effectiveDate d = some (wkt.timestampMs r.effectiveTakenAt) := by
  obtain ⟨f, stat, exif, preview, rfl⟩ := hjoined.join
  obtain ⟨url, rfl⟩ := h
  obtain ⟨t, ht, -⟩ := himage
  obtain ⟨row, rfl, -⟩ := Option.map_eq_some_iff.mp ht
  cases htaken : exif.bind ExifRow.takenAt with
  | none =>
    simp [effectiveDate, toFileDto, infoMessage, dbFileToProto, FileRow.ofJoin, effectiveTakenAt,
      htaken]
  | some t =>
    simp [effectiveDate, toFileDto, infoMessage, dbFileToProto, FileRow.ofJoin, effectiveTakenAt,
      htaken]

theorem firstDay_le {r : FileRow} (hjoined : r.Joined) (htime : r.Timestamped)
    (himage : HasCategory image r.toFileInfo) :
    firstDay ≤ wkt.timestampMs r.effectiveTakenAt / msPerDay := by
  have hzero : zeroTime ≤ r.effectiveTakenAt := by
    obtain ⟨f, stat, exif, preview, rfl⟩ := hjoined.join
    obtain ⟨t, ht, -⟩ := himage
    obtain ⟨row, rfl, -⟩ := Option.map_eq_some_iff.mp ht
    cases htaken : exif.bind ExifRow.takenAt with
    | none =>
      have hmodified := htime.lastModified row.lastModified rfl
      simpa [FileRow.ofJoin, effectiveTakenAt, htaken] using hmodified.1
    | some t =>
      have ht := htime.takenAt t htaken
      simpa [FileRow.ofJoin, effectiveTakenAt, htaken] using ht.1
  have hms : (-62135596800000 : Int) ≤ wkt.timestampMs r.effectiveTakenAt := by
    have hwhole := wkt.whole (-62135596800000)
    rw [← hwhole]
    exact wkt.mono hzero
  have hday : firstDay * msPerDay ≤ wkt.timestampMs r.effectiveTakenAt := by
    simpa [firstDay, msPerDay] using hms
  exact (Int.le_ediv_iff_mul_le (by decide)).mpr hday

theorem newestFirst_of_days (wkt : Wkt) {files : List Search.FileInfo} {dtos : List FileDto}
    (h : List.Forall₂ (fun (f : Search.FileInfo) d => effectiveDate d ≠ none ∧
      firstDay ≤ day (effectiveDate d) ∧
      day (effectiveDate d) = wkt.timestampMs f.effectiveTakenAt / msPerDay) files dtos)
    (hsorted : files.Pairwise fun f g => g.effectiveTakenAt ≤ f.effectiveTakenAt) :
    NewestFirst dtos := by
  induction h with
  | nil => exact ⟨by simp, .nil⟩
  | @cons f d fs ds hd hrest ih =>
    obtain ⟨hle, hsorted⟩ := List.pairwise_cons.mp hsorted
    obtain ⟨hdated, hds⟩ := ih hsorted
    refine ⟨fun e he => ?_, .cons (fun e he => ?_) hds⟩
    · rcases List.mem_cons.mp he with rfl | he
      · exact ⟨hd.1, hd.2.1⟩
      · exact hdated e he
    · obtain ⟨g, hg, -, -, hday⟩ := exists_left_of_mem hrest he
      rw [hday, hd.2.2]
      exact Int.ediv_le_ediv (by decide) (wkt.mono (hle g hg))

theorem newestFirst_of_loaded {bs : List Backend}
    (hrows : ∀ b ∈ bs, ∀ r ∈ b.rows.rows, r.Joined ∧ r.Timestamped)
    {files : List Search.FileInfo} {dtos : List FileDto}
    (h : List.Forall₂ (Loaded wkt bs) files dtos) (himage : ∀ f ∈ files, HasCategory image f)
    (hsorted : files.Pairwise fun f g => g.effectiveTakenAt ≤ f.effectiveTakenAt) :
    NewestFirst dtos := by
  refine newestFirst_of_days wkt (List.Forall₂.imp ?_
    ((List.forall₂_and_left _ _).mpr ⟨himage, h⟩)) hsorted
  rintro f d ⟨hf, hd⟩
  obtain ⟨b, hb, r, hr, rfl, hshow⟩ := hd.row
  obtain ⟨hjoined, htime⟩ := hrows b hb r hr
  rw [day_effectiveDate hshow hjoined hf]
  exact ⟨by simp, firstDay_le hjoined htime hf, rfl⟩

omit [DecidableEq τ] in
theorem photos_selected (x : TextSearch) (f : Search.FileInfo) :
    (photosInput.request c).selects x f = true ↔ HasCategory image f :=
  selected_category_iff x endsInOnlySlash_image f

theorem takenAt_le_of_position {f g : Search.FileInfo}
    (h : position .takenAt .desc f < position .takenAt .desc g) :
    g.effectiveTakenAt ≤ f.effectiveTakenAt := by
  rcases Prod.Lex.toLex_lt_toLex.mp (OrderDual.toDual_lt_toDual.mp h) with hlt | ⟨heq, -⟩
  · exact le_of_lt hlt
  · exact le_of_eq heq

theorem ids_of_loaded {bs : List Backend} {files : List Search.FileInfo} {dtos : List FileDto}
    (h : List.Forall₂ (Loaded wkt bs) files dtos) :
    dtos.map FileDto.id = files.map fun f => formatInt f.id := by
  induction h with
  | nil => rfl
  | cons hd _ ih =>
    obtain ⟨b, -, r, -, rfl, url, rfl⟩ := hd.row
    rw [List.map_cons, List.map_cons, ih]
    rfl

variable (x wkt)

theorem photo_wall (bs : List Backend)
    (hrows : ∀ b ∈ bs, ∀ r ∈ b.rows.rows, r.Joined ∧ r.Timestamped) :
    ∃ done pages, infiniteQuery c x wkt photosInput c.empty bs = .ok (done, pages) ∧
      (∀ d ∈ pages.flatten, ∃ b ∈ bs, ∃ r ∈ b.rows.rows,
        HasCategory image r.toFileInfo ∧ ShowsRow wkt b.queue r d) ∧
      NewestFirst pages.flatten ∧
      GroupedByDay pages.flatten (photoWall pages) ∧
      ((photoWall pages).map DayGroup.date).Nodup ∧
      (∀ n, (photoWall (pages.take n)).map DayGroup.date <+:
        (photoWall pages).map DayGroup.date) ∧
      ∀ t : FileRows, (∀ b ∈ bs, b.rows = t) →
        (pages.flatten.map FileDto.id).Nodup ∧
        (done = true → ∀ r ∈ t.rows, HasCategory image r.toFileInfo →
          formatInt r.id ∈ pages.flatten.map FileDto.id) ∧
        (t.rows.length < bs.length → done = true) := by
  obtain ⟨done, files, hrun, hpages⟩ := listFilesFollowing_pages x (photosInput.request c)
    Continues.first (bs.map fun b => (24, b.rows.infos))
  obtain ⟨pages, hquery, hloaded⟩ := infiniteQuery_follows wkt photosInput hrun
  have hflat : List.Forall₂ (Loaded wkt bs) files.flatten pages.flatten := List.rel_flatten hloaded
  have hvisited : ∀ rows ∈ ((bs.map fun b => (24, b.rows.infos)).map
      ((photosInput.request c).rows x)).take files.length, ∃ t : FileInfos,
        rows.2 = t.rows.filter ((photosInput.request c).selects x) := fun rows hrows => by
    obtain ⟨t, -, heq⟩ := mem_visited hrows
    exact ⟨t, heq⟩
  have himage : ∀ f ∈ files.flatten, HasCategory image f := fun f hf => by
    obtain ⟨rows, hrow, hfr⟩ := hpages.mem hf
    obtain ⟨t, heq⟩ := hvisited rows hrow
    rw [heq] at hfr
    exact (photos_selected c x f).mp (List.mem_filter.mp hfr).2
  have hsorted := hpages.sorted fun rows hrow => by
    obtain ⟨t, heq⟩ := hvisited rows hrow
    rw [heq]
    exact nodup_positions t _
  have hnewest : NewestFirst pages.flatten :=
    newestFirst_of_loaded hrows hflat himage (hsorted.imp takenAt_le_of_position)
  refine ⟨done, pages, hquery, fun d hd => ?_, hnewest, groupedByDay _, nodup_dates hnewest,
    fun n => ?_, fun t ht => ?_⟩
  · obtain ⟨f, hf, hload⟩ := exists_left_of_mem hflat hd
    obtain ⟨b, hb, r, hr, rfl, hshow⟩ := hload.row
    exact ⟨b, hb, r, hr, himage _ hf, hshow⟩
  · have hsplit := dates_groupByDay_append (pages.take n).flatten (pages.drop n).flatten
    rwa [← List.flatten_append, List.take_append_drop] at hsplit
  · have hcalls : ∀ call ∈ bs.map fun b => (24, b.rows.infos), call.2 = t.infos := fun call hcall => by
      obtain ⟨b, hb, rfl⟩ := List.mem_map.mp hcall
      exact congrArg FileRows.infos (ht b hb)
    have hfirst : Continues c (photosInput.request c) c.empty none := .first
    obtain ⟨done', files', hrun', hall, -, hmem, hdone⟩ := listFilesFollowing_fixed x hfirst hcalls
    obtain ⟨rfl, rfl⟩ := Prod.mk.injEq .. ▸ Except.ok.inj (hrun.symm.trans hrun')
    rw [ids_of_loaded hflat]
    refine ⟨?_, fun hend r hr hcategory => ?_, by simpa [FileRows.infos] using hdone⟩
    · rw [List.Nodup, List.pairwise_map]
      refine hsorted.imp_of_mem fun {f g} hf hg hlt hid => ?_
      obtain rfl := Rows.eq_of_pk t.infos.pk (hmem f hf) (hmem g hg) (formatInt_injective hid)
      exact lt_irrefl _ hlt
    · refine List.mem_map.mpr ⟨r.toFileInfo, (hall hend _).mpr ⟨?_, ?_⟩, rfl⟩
      · exact List.mem_map_of_mem hr
      · exact (photos_selected c x _).mpr hcategory

def beachRow : FileRow :=
  .ofJoin ⟨2, ascii "a.jpg", 0, 0, 0⟩ 1774656000000000
    (some ⟨ascii "image/jpeg", 9, 1774656000000000, 0⟩) none none

def beachRows : FileRows := ⟨[beachRow], by decide, by decide, by decide⟩

theorem photo_wall_of_beach :
    ∃ done pages, infiniteQuery .plain .none .floor photosInput none
        [⟨beachRows, fun _ => none, fun _ => none⟩, ⟨beachRows, fun _ => none, fun _ => none⟩] =
          .ok (done, pages) ∧
      done = true ∧ ascii "2" ∈ pages.flatten.map FileDto.id := by
  obtain ⟨done, pages, hquery, -, -, -, -, -, hfixed⟩ := photo_wall .plain .none .floor
    [⟨beachRows, fun _ => none, fun _ => none⟩, ⟨beachRows, fun _ => none, fun _ => none⟩]
    (by
      intro b hb r hr
      obtain rfl : b = ⟨beachRows, fun _ => none, fun _ => none⟩ := by simpa using hb
      obtain rfl := List.mem_singleton.mp hr
      refine ⟨⟨_, _, none, none, rfl⟩, ⟨by decide, fun t ht => ?_, fun t ht => by cases ht⟩⟩
      cases ht
      decide)
  obtain ⟨-, hall, hdone⟩ := hfixed beachRows (by simp)
  have hend := hdone (by decide)
  refine ⟨done, pages, hquery, hend, hall hend beachRow (by decide) ?_⟩
  exact ⟨_, rfl, by decide, by decide⟩

end Photos

end Web

end FileIndexer
