import Mathlib.Data.List.Sort

namespace Paging

variable {κ ρ : Type*} [LinearOrder κ] (key : ρ → κ) (after : Option κ) (n : ℕ) (rows : List ρ)

def remaining : List ρ :=
  (rows.filter fun r => after.all (· < key r)).insertionSort fun r s => key r ≤ key s

def page : List ρ := (remaining key after rows).take n

def isTruncated : Bool := n < (remaining key after rows).length

def next (page : List ρ) : Option κ := (page.getLast?.map key).or after

variable {key after n rows}

theorem mem_remaining {r : ρ} :
    r ∈ remaining key after rows ↔ r ∈ rows ∧ ∀ a ∈ after, a < key r := by
  cases after <;> simp [remaining, List.mem_insertionSort]

theorem sorted_remaining (hn : (rows.map key).Nodup) :
    (remaining key after rows).Pairwise fun r s => key r < key s := by
  have hle : (remaining key after rows).Pairwise fun r s => key r ≤ key s :=
    List.pairwise_insertionSort _ _
  have hnodup : ((remaining key after rows).map key).Nodup := by
    have hperm := List.perm_insertionSort (fun r s => key r ≤ key s)
      (rows.filter fun r => after.all (· < key r))
    rw [remaining, (hperm.map key).nodup_iff]
    exact hn.sublist (List.filter_sublist.map key)
  refine (hle.and (List.pairwise_map.mp hnodup)).imp ?_
  rintro r s ⟨hrs, hne⟩
  exact lt_of_le_of_ne hrs hne

theorem eq_of_sorted {l m : List ρ} (hl : l.Pairwise fun r s => key r < key s)
    (hm : m.Pairwise fun r s => key r < key s) (h : ∀ r, r ∈ l ↔ r ∈ m) : l = m := by
  have hnodup : ∀ {l : List ρ}, (l.Pairwise fun r s => key r < key s) → l.Nodup :=
    fun h => h.imp fun hlt he => absurd (he ▸ hlt) (lt_irrefl _)
  apply List.Perm.eq_of_pairwise (fun r s _ _ hrs hsr => absurd hsr hrs.asymm) hl hm
  exact (List.perm_ext_iff_of_nodup (hnodup hl) (hnodup hm)).mpr h

theorem mem_page_or_beyond (hn : (rows.map key).Nodup) {r : ρ} (hr : r ∈ rows)
    (ha : ∀ a ∈ after, a < key r) : r ∈ page key after n rows ∨
      (isTruncated key after n rows = true ∧
        ∀ a ∈ next key after (page key after n rows), a < key r) := by
  have hmem : r ∈ remaining key after rows := mem_remaining.mpr ⟨hr, ha⟩
  rw [← List.take_append_drop n (remaining key after rows)] at hmem
  rcases List.mem_append.mp hmem with hmem | hmem
  · exact Or.inl hmem
  · refine Or.inr ⟨?_, ?_⟩
    · have hpos := List.length_pos_of_mem hmem
      rw [List.length_drop] at hpos
      simp only [isTruncated, decide_eq_true_eq]
      omega
    · have hcross := (List.pairwise_append.mp
        (List.take_append_drop n (remaining key after rows) ▸ sorted_remaining hn)).2.2
      unfold next
      cases hl : (page key after n rows).getLast? with
      | none => simpa using ha
      | some l =>
        have hlast : l ∈ page key after n rows := List.mem_of_getLast? hl
        simpa using hcross l hlast r hmem

section Page

theorem page_length_le (key : ρ → κ) (after : Option κ) (n : ℕ) (rows : List ρ) :
    (page key after n rows).length ≤ n :=
  List.length_take_le n _

section Probe

theorem isTruncated_eq_probe (key : ρ → κ) (after : Option κ) (n : ℕ) (rows : List ρ) :
    isTruncated key after n rows = decide (n < (page key after (n + 1) rows).length) := by
  rw [isTruncated, page, List.length_take]
  exact decide_eq_decide.mpr (by omega)

theorem take_probe (key : ρ → κ) (after : Option κ) (n : ℕ) (rows : List ρ) :
    (page key after (n + 1) rows).take n = page key after n rows := by
  rw [page, page, List.take_take, Nat.min_eq_left (Nat.le_succ n)]

theorem probe_of_not_truncated (h : isTruncated key after n rows = false) :
    page key after (n + 1) rows = page key after n rows := by
  have hle : (remaining key after rows).length ≤ n := by simpa [isTruncated] using h
  rw [page, page, List.take_of_length_le hle, List.take_of_length_le (Nat.le_succ_of_le hle)]

theorem page_ne_nil (h : isTruncated key after n rows = true) (hn : 0 < n) :
    page key after n rows ≠ [] := by
  have hlt : n < (remaining key after rows).length := by simpa [isTruncated] using h
  rw [← List.length_pos_iff, page, List.length_take]
  omega

end Probe

theorem sorted_page (after : Option κ) (n : ℕ) (hn : (rows.map key).Nodup) :
    (page key after n rows).Pairwise fun r s => key r < key s :=
  (sorted_remaining hn).sublist (List.take_sublist n _)

theorem mem_page {r : ρ} (h : r ∈ page key after n rows) : r ∈ rows ∧ ∀ a ∈ after, a < key r :=
  mem_remaining.mp (List.mem_of_mem_take h)

theorem le_next (hn : (rows.map key).Nodup) {r : ρ} (hr : r ∈ page key after n rows) :
    ∃ a ∈ next key after (page key after n rows), key r ≤ a := by
  have hsorted := sorted_page after n hn
  generalize page key after n rows = p at hr hsorted ⊢
  have hne : p ≠ [] := List.ne_nil_of_mem hr
  refine ⟨key (p.getLast hne), ?_, ?_⟩
  · simp [next, List.getLast?_eq_getLast_of_ne_nil hne]
  · rw [← List.dropLast_append_getLast hne] at hr hsorted
    rcases List.mem_append.mp hr with hr | hr
    · exact ((List.pairwise_append.mp hsorted).2.2 r hr _ (List.mem_singleton_self _)).le
    · rw [List.mem_singleton.mp hr]

theorem after_le_next (key : ρ → κ) (after : Option κ) (n : ℕ) (rows : List ρ) {a : κ}
    (ha : a ∈ after) : ∃ b ∈ next key after (page key after n rows), a ≤ b := by
  unfold next
  cases hl : (page key after n rows).getLast? with
  | none => exact ⟨a, by simpa using ha, le_refl a⟩
  | some l =>
    have hmem := mem_page (List.mem_of_getLast? hl)
    exact ⟨key l, by simp, (hmem.2 a ha).le⟩

end Page

section Cuts

structure Cuts (key : ρ → κ) (after : Option κ) (page rows : List ρ) (b : κ) : Prop where
  after_le : ∀ a ∈ after, a ≤ b
  page_le : ∀ r ∈ page, key r ≤ b
  rest_lt : ∀ r ∈ rows, (∀ a ∈ after, a < key r) → r ∈ page ∨ b < key r

theorem cuts_last (hn : (rows.map key).Nodup) {l : ρ}
    (hl : (page key after n rows).getLast? = some l) :
    Cuts key after (page key after n rows) rows (key l) := by
  have hnext : next key after (page key after n rows) = some (key l) := by simp [next, hl]
  refine ⟨fun a ha => ?_, fun r hr => ?_, fun r hr hafter => ?_⟩
  · obtain ⟨b, hb, hab⟩ := after_le_next key after n rows ha
    obtain rfl : key l = b := by simpa [hnext] using hb
    exact hab
  · obtain ⟨b, hb, hrb⟩ := le_next hn hr
    obtain rfl : key l = b := by simpa [hnext] using hb
    exact hrb
  · refine (mem_page_or_beyond (n := n) hn hr hafter).imp_right fun hbeyond => ?_
    exact hbeyond.2 (key l) (by simp [hnext])

theorem Cuts.remaining_eq {b : κ} (hcut : Cuts key after (page key after n rows) rows b)
    (hn : (rows.map key).Nodup) :
    remaining key (some b) rows = (remaining key after rows).drop n := by
  have hsorted : (remaining key after rows).Pairwise fun r s => key r < key s :=
    sorted_remaining hn
  have hsplit := List.take_append_drop n (remaining key after rows)
  have hcross := (List.pairwise_append.mp (hsplit ▸ hsorted)).2.2
  have hright : ((remaining key after rows).drop n).Pairwise fun r s => key r < key s :=
    hsorted.sublist (List.drop_sublist n _)
  refine eq_of_sorted (sorted_remaining hn) hright fun r => ?_
  rw [mem_remaining]
  constructor
  · rintro ⟨hr, hb⟩
    have hbr : b < key r := hb b rfl
    have hmem : r ∈ remaining key after rows :=
      mem_remaining.mpr ⟨hr, fun a ha => (hcut.after_le a ha).trans_lt hbr⟩
    rw [← hsplit, List.mem_append] at hmem
    exact hmem.resolve_left fun hpage => absurd hbr (not_lt.mpr (hcut.page_le r hpage))
  · intro hdrop
    obtain ⟨hr, hafter⟩ := mem_remaining.mp (List.mem_of_mem_drop hdrop)
    refine ⟨hr, fun b' hb' => ?_⟩
    obtain rfl : b = b' := by simpa using hb'
    exact (hcut.rest_lt r hr hafter).resolve_left fun hpage =>
      absurd (hcross r hpage r hdrop) (lt_irrefl _)

end Cuts

section Phases

variable {κ' ρ' : Type*} [LinearOrder κ']

theorem remaining_map (f : ρ' → ρ) (key : ρ → κ) (key' : ρ' → κ') (after : Option κ)
    (after' : Option κ') {rows : List ρ'}
    (hkey : ∀ r ∈ rows, ∀ s ∈ rows, key (f r) ≤ key (f s) ↔ key' r ≤ key' s)
    (hafter : ∀ r ∈ rows, (∀ a ∈ after, a < key (f r)) ↔ ∀ a ∈ after', a < key' r) :
    remaining key after (rows.map f) = (remaining key' after' rows).map f := by
  have hfilter : (rows.map f).filter (fun r => after.all (· < key r)) =
      (rows.filter fun r => after'.all (· < key' r)).map f := by
    rw [List.filter_map]
    refine congrArg _ (List.filter_congr fun r hr => ?_)
    rw [Bool.eq_iff_iff, Function.comp_apply, Option.all_eq_true, Option.all_eq_true]
    simpa using hafter r hr
  rw [remaining, hfilter, remaining]
  refine (List.map_insertionSort _ _ f _ fun r hr s hs => ?_).symm
  exact (hkey r (List.mem_of_mem_filter hr) s (List.mem_of_mem_filter hs)).symm

theorem remaining_append {l m : List ρ} (hn : ((l ++ m).map key).Nodup)
    (h : ∀ r ∈ l, ∀ s ∈ m, key r < key s) :
    remaining key after (l ++ m) = remaining key after l ++ remaining key after m := by
  obtain ⟨hl, hm, -⟩ := List.nodup_append.mp (List.map_append ▸ hn)
  have hright : (remaining key after l ++ remaining key after m).Pairwise
      fun r s => key r < key s := by
    refine List.pairwise_append.mpr ⟨sorted_remaining hl, sorted_remaining hm, fun r hr s hs => ?_⟩
    exact h r (mem_remaining.mp hr).1 s (mem_remaining.mp hs).1
  refine eq_of_sorted (sorted_remaining hn) hright fun r => ?_
  simp only [mem_remaining, List.mem_append, or_and_right]

theorem remaining_eq_nil {a : κ} (h : ∀ r ∈ rows, key r ≤ a) :
    remaining key (some a) rows = [] := by
  refine List.eq_nil_iff_forall_not_mem.mpr fun r hr => ?_
  obtain ⟨hmem, hlt⟩ := mem_remaining.mp hr
  exact absurd (hlt a rfl) (not_lt.mpr (h r hmem))

end Phases

section Pages

-- following a cursor while the table changes between the calls; true once the last page is reached
inductive Pages (key : ρ → κ) : Bool → Option κ → List (ℕ × List ρ) → List (List ρ) → Prop
  | stopped {after : Option κ} : Pages key false after [] []
  | last {after : Option κ} {n : ℕ} {rows : List ρ} (calls : List (ℕ × List ρ)) :
      isTruncated key after n rows = false →
      Pages key true after ((n, rows) :: calls) [page key after n rows]
  | next {done : Bool} {after : Option κ} {n : ℕ} {rows : List ρ} {calls : List (ℕ × List ρ)}
      {pages : List (List ρ)} {b : κ} : isTruncated key after n rows = true →
      Cuts key after (page key after n rows) rows b → Pages key done (some b) calls pages →
      Pages key done after ((n, rows) :: calls) (page key after n rows :: pages)

variable {done : Bool} {calls : List (ℕ × List ρ)} {pages : List (List ρ)}

theorem Pages.mem (h : Pages key done after calls pages) {r : ρ} (hr : r ∈ pages.flatten) :
    ∃ c ∈ calls.take pages.length, r ∈ c.2 := by
  induction h with
  | stopped => cases hr
  | @last after n rows calls _ =>
    have hp : r ∈ page key after n rows := by simpa using hr
    exact ⟨(n, rows), by simp, (mem_page hp).1⟩
  | @next done after n rows calls pages b _ _ _ ih =>
    rw [List.flatten_cons, List.mem_append] at hr
    rcases hr with hr | hr
    · exact ⟨(n, rows), by simp, (mem_page hr).1⟩
    · obtain ⟨c, hc, hrc⟩ := ih hr
      exact ⟨c, by simp [hc], hrc⟩

theorem Pages.length_page (h : Pages key done after calls pages) :
    List.Forall₂ (fun (c : ℕ × List ρ) page => page.length ≤ c.1) (calls.take pages.length)
      pages := by
  induction h with
  | stopped => exact .nil
  | @last after n rows calls _ => exact .cons (page_length_le key after n rows) (by simp)
  | @next done after n rows calls pages b _ _ _ ih =>
    exact .cons (page_length_le key after n rows) ih

theorem Pages.beyond (h : Pages key done after calls pages) {r : ρ} (hr : r ∈ pages.flatten) {a : κ}
    (ha : a ∈ after) : a < key r := by
  induction h generalizing a with
  | stopped => cases hr
  | @last after n rows calls _ =>
    have hp : r ∈ page key after n rows := by simpa using hr
    exact (mem_page hp).2 a ha
  | @next done after n rows calls pages b _ hcut _ ih =>
    rw [List.flatten_cons, List.mem_append] at hr
    rcases hr with hr | hr
    · exact (mem_page hr).2 a ha
    · exact (hcut.after_le a ha).trans_lt (ih hr rfl)

theorem Pages.sorted (h : Pages key done after calls pages)
    (hn : ∀ c ∈ calls.take pages.length, (c.2.map key).Nodup) :
    pages.flatten.Pairwise fun r s => key r < key s := by
  induction h with
  | stopped => exact .nil
  | @last after n rows calls _ =>
    have hrows : (rows.map key).Nodup := hn (n, rows) (by simp)
    simpa using sorted_page after n hrows
  | @next done after n rows calls pages b _ hcut hrest ih =>
    have hrows : (rows.map key).Nodup := hn (n, rows) (by simp)
    rw [List.flatten_cons, List.pairwise_append]
    refine ⟨sorted_page _ _ hrows, ih fun c hc => hn c (by simp [hc]), fun r hr s hs => ?_⟩
    exact (hcut.page_le r hr).trans_lt (hrest.beyond hs rfl)

theorem Pages.complete (h : Pages key true after calls pages)
    (hn : ∀ c ∈ calls.take pages.length, (c.2.map key).Nodup) {k : κ}
    (hk : ∀ c ∈ calls.take pages.length, ∃ r ∈ c.2, key r = k) (hafter : ∀ a ∈ after, a < k) :
    ∃ r ∈ pages.flatten, key r = k := by
  generalize hdone : true = done at h
  induction h with
  | stopped => cases hdone
  | @last after n rows calls hlast =>
    obtain ⟨r, hr, rfl⟩ := hk (n, rows) (by simp)
    have hrows : (rows.map key).Nodup := hn (n, rows) (by simp)
    rcases mem_page_or_beyond (n := n) hrows hr hafter with hmem | ⟨hmore, -⟩
    · exact ⟨r, by simpa using hmem, rfl⟩
    · rw [hlast] at hmore
      cases hmore
  | @next done after n rows calls pages b _ hcut _ ih =>
    obtain ⟨r, hr, hrk⟩ := hk (n, rows) (by simp)
    rcases hcut.rest_lt r hr (hrk ▸ hafter) with hmem | hbeyond
    · exact ⟨r, by simp [hmem], hrk⟩
    · have hb : ∀ a ∈ some b, a < k := by simpa [← hrk] using hbeyond
      obtain ⟨s, hs, hsk⟩ := ih (fun c hc => hn c (by simp [hc])) (fun c hc => hk c (by simp [hc]))
        hb hdone
      exact ⟨s, by simp [hs], hsk⟩

theorem Pages.countP_eq_one (h : Pages key true after calls pages)
    (hn : ∀ c ∈ calls.take pages.length, (c.2.map key).Nodup) {k : κ} {p : ρ → Bool}
    (hk : ∀ c ∈ calls.take pages.length, ∃ r ∈ c.2, key r = k) (hafter : ∀ a ∈ after, a < k)
    (hp : ∀ c ∈ calls.take pages.length, ∀ r ∈ c.2, p r = true ↔ key r = k) :
    pages.flatten.countP p = 1 := by
  have hnodup : (pages.flatten.map key).Nodup :=
    List.pairwise_map.mpr ((h.sorted hn).imp fun hlt => hlt.ne)
  obtain ⟨r, hr, hrk⟩ := h.complete hn hk hafter
  have hcount : (pages.flatten.map key).count k = 1 :=
    List.count_eq_one_of_mem hnodup (List.mem_map.mpr ⟨r, hr, hrk⟩)
  rw [← hcount, List.count, List.countP_map]
  refine List.countP_congr fun s hs => ?_
  obtain ⟨c, hc, hsc⟩ := h.mem hs
  simpa using hp c hc s hsc

section Unchanging

variable {rows : List ρ}

theorem Pages.eq_remaining (h : Pages key true after calls pages) (hn : (rows.map key).Nodup)
    (hrows : ∀ c ∈ calls.take pages.length, c.2 = rows) :
    pages.flatten = remaining key after rows := by
  generalize hdone : true = done at h
  induction h with
  | stopped => cases hdone
  | @last after n rows' calls hlast =>
    obtain rfl : rows' = rows := hrows (n, rows') (by simp)
    have hle : (remaining key after rows').length ≤ n := by simpa [isTruncated] using hlast
    simp [page, List.take_of_length_le hle]
  | @next done after n rows' calls pages b _ hcut _ ih =>
    obtain rfl : rows' = rows := hrows (n, rows') (by simp)
    rw [List.flatten_cons, ih (fun c hc => hrows c (by simp [hc])) hdone, hcut.remaining_eq hn, page,
      List.take_append_drop]

theorem Pages.length_le (h : Pages key false after calls pages) (hn : (rows.map key).Nodup)
    (hcalls : ∀ c ∈ calls, 0 < c.1 ∧ c.2 = rows) :
    calls.length ≤ (remaining key after rows).length := by
  generalize hdone : false = done at h
  induction h with
  | stopped => exact Nat.zero_le _
  | last calls _ => cases hdone
  | @next done after n rows' calls pages b hmore hcut _ ih =>
    obtain ⟨hpos, rfl⟩ := hcalls (n, rows') List.mem_cons_self
    have hrest := ih (fun c hc => hcalls c (List.mem_cons_of_mem _ hc)) hdone
    rw [hcut.remaining_eq hn, List.length_drop] at hrest
    have hlt : n < (remaining key after rows').length := by simpa [isTruncated] using hmore
    rw [List.length_cons]
    simp only at hpos hrest ⊢
    omega

end Unchanging

end Pages

end Paging
