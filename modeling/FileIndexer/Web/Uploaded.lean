import FileIndexer.Web.ResumableUpload
import Mathlib.Data.Set.Insert

namespace FileIndexer

namespace ResumableUpload

open Transition

variable {α : Type} {file : FileLike α} {s3 s3' : Multipart α} {uploadId : UploadID}

section Grows

structure OpenUpload (file : FileLike α) (s3 : Multipart α) (uploadId : UploadID) : Prop where
  known : uploadId < s3.nextUploadId
  sound : ∀ parts, s3.uploads uploadId = some parts →
    ∀ n bytes, parts.lookup n = some bytes → (⟨n, bytes⟩ : ObjectPart α) ∈ file.parts

def Landed (s3 : Multipart α) (uploadId : UploadID) (p : ObjectPart α) : Prop :=
  ∀ parts, s3.uploads uploadId = some parts → parts.lookup p.partNumber = some p.bytes

structure Grows (file : FileLike α) (s3 s3' : Multipart α) : Prop where
  next_le : s3.nextUploadId ≤ s3'.nextUploadId
  parts : ∀ uploadId < s3.nextUploadId, ∀ parts', s3'.uploads uploadId = some parts' →
    ∃ parts, s3.uploads uploadId = some parts ∧ ∀ n, parts'.lookup n = parts.lookup n ∨
      ∃ bytes, parts'.lookup n = some bytes ∧ (⟨n, bytes⟩ : ObjectPart α) ∈ file.parts

theorem Grows.refl (file : FileLike α) (s3 : Multipart α) : Grows file s3 s3 :=
  ⟨le_refl _, fun _ _ parts hparts => ⟨parts, hparts, fun _ => Or.inl rfl⟩⟩

theorem OpenUpload.grows (h : OpenUpload file s3 uploadId) (hg : Grows file s3 s3') :
    OpenUpload file s3' uploadId := by
  refine ⟨h.known.trans_le hg.next_le, fun parts' hparts' n bytes hn => ?_⟩
  obtain ⟨parts, hparts, hlookup⟩ := hg.parts uploadId h.known parts' hparts'
  rcases hlookup n with heq | ⟨bytes', hbytes', hmem⟩
  · exact h.sound parts hparts n bytes (heq ▸ hn)
  · obtain rfl : bytes' = bytes := Option.some.inj (hbytes'.symm.trans hn)
    exact hmem

theorem Landed.grows {p : ObjectPart α} (h : Landed s3 uploadId p) (hg : Grows file s3 s3')
    (hknown : uploadId < s3.nextUploadId) (hp : p ∈ file.parts) : Landed s3' uploadId p := by
  intro parts' hparts'
  obtain ⟨parts, hparts, hlookup⟩ := hg.parts uploadId hknown parts' hparts'
  rcases hlookup p.partNumber with heq | ⟨bytes, hbytes, hmem⟩
  · exact heq.trans (h parts hparts)
  · rw [hbytes, ← parts_inj hmem hp rfl]

theorem grows_fresh (file : FileLike α) (s3 : Multipart α) (object : Option (List α))
    (parts : Parts α) : Grows file s3
      ⟨object, Function.update s3.uploads s3.nextUploadId (some parts), s3.nextUploadId + 1⟩ := by
  refine ⟨Nat.le_succ _, fun uploadId hlt parts' hparts' => ⟨parts', ?_, fun _ => Or.inl rfl⟩⟩
  dsimp only at hparts'
  rwa [Function.update_of_ne hlt.ne] at hparts'

theorem grows_create (file : FileLike α) (s3 : Multipart α) :
    Grows file s3 s3.createMultipartUpload.2 :=
  grows_fresh file s3 s3.object ∅

theorem open_create (file : FileLike α) (s3 : Multipart α) :
    OpenUpload file s3.createMultipartUpload.2 s3.createMultipartUpload.1 := by
  refine ⟨Nat.lt_succ_self _, fun parts hparts n bytes hn => ?_⟩
  obtain rfl : ∅ = parts := by simpa [Multipart.createMultipartUpload] using hparts
  simp at hn

theorem grows_close (file : FileLike α) (s3 : Multipart α) (object : Option (List α))
    (uploadId : UploadID) : Grows file s3
      ⟨object, Function.update s3.uploads uploadId none, s3.nextUploadId⟩ := by
  refine ⟨le_refl _, fun id _ parts' hparts' => ⟨parts', ?_, fun _ => Or.inl rfl⟩⟩
  rcases eq_or_ne id uploadId with rfl | hne
  · simp at hparts'
  · dsimp only at hparts'
    rwa [Function.update_of_ne hne] at hparts'

theorem putPart_ok {n : Nat} {bytes : List α} (h : s3.putPart uploadId n bytes = .ok s3') :
    ∃ parts, s3.uploads uploadId = some parts ∧ s3' = { s3 with
      uploads := Function.update s3.uploads uploadId (some (parts.insert n bytes)) } := by
  rw [Multipart.putPart] at h
  split at h
  · cases h
  · rename_i parts hparts
    exact ⟨parts, hparts, (Except.ok.inj h).symm⟩

theorem grows_putPart {n : Nat} {bytes : List α} (h : s3.putPart uploadId n bytes = .ok s3')
    (hmem : (⟨n, bytes⟩ : ObjectPart α) ∈ file.parts) : Grows file s3 s3' := by
  obtain ⟨parts, hparts, rfl⟩ := putPart_ok h
  refine ⟨le_refl _, fun id _ parts' hparts' => ?_⟩
  rcases eq_or_ne id uploadId with rfl | hne
  · obtain rfl : parts.insert n bytes = parts' := by simpa using hparts'
    refine ⟨parts, hparts, fun m => ?_⟩
    rcases eq_or_ne m n with rfl | hm
    · exact Or.inr ⟨bytes, AList.lookup_insert parts, hmem⟩
    · exact Or.inl (AList.lookup_insert_ne hm)
  · dsimp only at hparts'
    rw [Function.update_of_ne hne] at hparts'
    exact ⟨parts', hparts', fun _ => Or.inl rfl⟩

theorem landed_putPart {n : Nat} {bytes : List α} (h : s3.putPart uploadId n bytes = .ok s3') :
    Landed s3' uploadId ⟨n, bytes⟩ := by
  obtain ⟨parts, -, rfl⟩ := putPart_ok h
  intro parts' hparts'
  obtain rfl : parts.insert n bytes = parts' := by simpa using hparts'
  exact AList.lookup_insert parts

theorem abortMultipartUpload_ok (h : s3.abortMultipartUpload uploadId = .ok s3') :
    s3' = { s3 with uploads := Function.update s3.uploads uploadId none } := by
  rw [Multipart.abortMultipartUpload] at h
  split at h
  · cases h
  · exact (Except.ok.inj h).symm

theorem completeMultipartUpload_ok [DecidableEq α] {completeParts : List (ObjectPart α)}
    (h : s3.completeMultipartUpload uploadId completeParts = .ok s3') :
    s3' = { s3 with
      object := some (completeParts.flatMap ObjectPart.bytes)
      uploads := Function.update s3.uploads uploadId none } := by
  rw [Multipart.completeMultipartUpload] at h
  split at h
  · cases h
  · split at h
    · exact (Except.ok.inj h).symm
    · cases h

end Grows

section Listing

theorem OpenUpload.listed_eq {listed : List (ObjectPart α)} (h : OpenUpload file s3 uploadId)
    (hall : ∀ p ∈ file.parts, Landed s3 uploadId p) (hl : s3.listAllParts uploadId = .ok listed) :
    listed = file.parts := by
  obtain ⟨parts, hparts, rfl⟩ := of_listAllParts hl
  refine Paging.eq_of_sorted (Paging.sorted_remaining (nodup_objectParts parts))
    (sorted_parts file) fun p => ?_
  rw [Paging.mem_remaining, mem_objectParts]
  constructor
  · rintro ⟨hp, -⟩
    exact h.sound parts hparts _ _ hp
  · intro hp
    refine ⟨hall p hp parts hparts, fun a ha => ?_⟩
    obtain rfl : 0 = a := Option.some.inj ha
    exact partNumber_pos hp

theorem OpenUpload.landed_of_listed {listed : List (Nat × Nat)} {p : ObjectPart α} {size : Nat}
    (h : OpenUpload file s3 uploadId) (hl : s3.listParts uploadId = .ok listed)
    (hp : p ∈ file.parts) (hsize : (p.partNumber, size) ∈ listed) : Landed s3 uploadId p := by
  rw [Multipart.listParts] at hl
  cases hall : s3.listAllParts uploadId with
  | error e =>
    rw [hall] at hl
    cases hl
  | ok all =>
    rw [hall] at hl
    cases hl
    obtain ⟨parts, hparts, rfl⟩ := of_listAllParts hall
    obtain ⟨q, hq, hqe⟩ := List.mem_map.mp hsize
    have hlookup := mem_objectParts.mp (Paging.mem_remaining.mp hq).1
    have hqp : q = p :=
      parts_inj (h.sound parts hparts _ _ hlookup) hp (congrArg Prod.fst hqe)
    intro parts' hparts'
    obtain rfl : parts = parts' := Option.some.inj (hparts.symm.trans hparts')
    exact hqp ▸ hlookup

end Listing

section Invariant

structure Progress (file : FileLike α) (s3 : Multipart α) (u : Upload) (todo : List PartPlan) :
    Prop where
  opened : OpenUpload file s3 u.uploadId
  planned : ∀ q ∈ todo, q ∈ file.plan
  done : ∀ q ∈ file.plan, q ∈ todo ∨ Landed s3 u.uploadId (file.part q)
  landed : ∀ q ∈ file.plan, ∀ size, u.landedSize q.partNumber = some size →
    Landed s3 u.uploadId (file.part q)

def PhaseOk (file : FileLike α) (s3 : Multipart α) : Phase α → Prop
  | .idle | .createMultipartUpload | .abortMultipartUpload _ => True
  | .listUploadedParts uploadId => OpenUpload file s3 uploadId
  | .uploading u => Progress file s3 u u.rest
  | .getUploadPartUrl u part _ | .putPart u part _ => Progress file s3 u (part :: u.rest)
  | .completeMultipartUpload uploadId =>
    OpenUpload file s3 uploadId ∧ ∀ p ∈ file.parts, Landed s3 uploadId p
  | .joinParts _ completeParts => completeParts.flatMap ObjectPart.bytes = file.bytes
  | .returned => s3.object = some file.bytes

def RequestOk (file : FileLike α) (s3 : Multipart α) : Request α → Prop
  | .createMultipartUpload | .abortMultipartUpload _ => True
  | .putPart _ partNumber bytes => (⟨partNumber, bytes⟩ : ObjectPart α) ∈ file.parts
  | .completeMultipartUpload uploadId =>
    OpenUpload file s3 uploadId ∧ ∀ p ∈ file.parts, Landed s3 uploadId p
  | .joinParts _ completeParts => completeParts.flatMap ObjectPart.bytes = file.bytes

structure Inv (file : FileLike α) (s : State α) : Prop where
  session : ∀ x, loadSession s.localStorage = some x → x.fingerprint = fileFingerprint file →
    OpenUpload file s.s3 x.uploadId
  phase : PhaseOk file s.s3 s.phase
  inFlight : ∀ r ∈ s.inFlight, RequestOk file s.s3 r

theorem Progress.grows {u : Upload} {todo : List PartPlan} (h : Progress file s3 u todo)
    (hg : Grows file s3 s3') : Progress file s3' u todo := by
  refine ⟨h.opened.grows hg, h.planned, fun q hq => ?_, fun q hq size hsize => ?_⟩
  · exact (h.done q hq).imp_right fun hl => hl.grows hg h.opened.known (part_mem hq)
  · exact (h.landed q hq size hsize).grows hg h.opened.known (part_mem hq)

theorem all_landed_grows
    (h : OpenUpload file s3 uploadId ∧ ∀ p ∈ file.parts, Landed s3 uploadId p)
    (hg : Grows file s3 s3') :
    OpenUpload file s3' uploadId ∧ ∀ p ∈ file.parts, Landed s3' uploadId p :=
  ⟨h.1.grows hg, fun p hp => (h.2 p hp).grows hg h.1.known hp⟩

theorem PhaseOk.grows {phase : Phase α} (h : PhaseOk file s3 phase) (hg : Grows file s3 s3')
    (hobj : s3.object = some file.bytes → s3'.object = some file.bytes) :
    PhaseOk file s3' phase := by
  cases phase with
  | idle => trivial
  | createMultipartUpload => trivial
  | abortMultipartUpload uploadId => trivial
  | listUploadedParts uploadId => exact OpenUpload.grows h hg
  | uploading u => exact Progress.grows h hg
  | getUploadPartUrl u part attempt => exact Progress.grows h hg
  | putPart u part attempt => exact Progress.grows h hg
  | completeMultipartUpload uploadId => exact all_landed_grows h hg
  | joinParts uploadId completeParts => exact h
  | returned => exact hobj h

theorem RequestOk.grows {r : Request α} (h : RequestOk file s3 r) (hg : Grows file s3 s3') :
    RequestOk file s3' r := by
  cases r with
  | createMultipartUpload => trivial
  | abortMultipartUpload uploadId => trivial
  | putPart uploadId n bytes => exact h
  | completeMultipartUpload uploadId => exact all_landed_grows h hg
  | joinParts uploadId completeParts => exact h

theorem Inv.next {s : State α} (h : Inv file s) (hg : Grows file s.s3 s3') {localStorage : LocalStorage}
    {phase : Phase α} {inFlight : List (Request α)}
    (hsession : ∀ x, loadSession localStorage = some x → x.fingerprint = fileFingerprint file →
      loadSession s.localStorage = some x ∨ OpenUpload file s3' x.uploadId)
    (hphase : PhaseOk file s3' phase)
    (hflight : ∀ r ∈ inFlight, r ∈ s.inFlight ∨ RequestOk file s3' r) :
    Inv file ⟨s3', localStorage, phase, inFlight⟩ := by
  refine ⟨fun x hx hfp => ?_, hphase, fun r hr => ?_⟩
  · exact (hsession x hx hfp).elim (fun hold => (h.session x hold hfp).grows hg) id
  · exact (hflight r hr).elim (fun hold => (h.inFlight r hold).grows hg) id

theorem Inv.rephase {s : State α} (h : Inv file s) {phase : Phase α}
    (hphase : PhaseOk file s.s3 phase) :
    Inv file { s with phase } :=
  h.next (.refl file s.s3) (fun _ hx _ => Or.inl hx) hphase fun _ hr => Or.inl hr

theorem Inv.cleared {s : State α} (h : Inv file s) (hg : Grows file s.s3 s3') {phase : Phase α}
    (hphase : PhaseOk file s3' phase) :
    Inv file ⟨s3', clearSession s.localStorage, phase, s.inFlight⟩ := by
  refine h.next hg (fun x hx _ => ?_) hphase fun r hr => Or.inl hr
  rw [loadSession_clear] at hx
  cases hx

theorem Inv.turn {s : State α} (h : Inv file s) {phase : Phase α} {sent : List (Request α)}
    (hphase : PhaseOk file s.s3 phase) (hsent : ∀ r ∈ sent, RequestOk file s.s3 r) :
    Inv file { s with phase := phase, inFlight := s.inFlight ++ sent } := by
  refine h.next (.refl file s.s3) (fun x hx _ => Or.inl hx) hphase fun r hr => ?_
  exact (List.mem_append.mp hr).imp_right fun hnew => hsent r hnew

theorem pending_ok {phase : Phase α} (h : PhaseOk file s3 phase) :
    ∀ r ∈ (pending file phase).toList, RequestOk file s3 r := by
  cases phase with
  | putPart u part attempt =>
    intro r hr
    obtain rfl := List.mem_singleton.mp hr
    exact part_mem (h.planned part List.mem_cons_self)
  | completeMultipartUpload uploadId =>
    intro r hr
    obtain rfl := List.mem_singleton.mp hr
    exact h
  | joinParts uploadId completeParts =>
    intro r hr
    obtain rfl := List.mem_singleton.mp hr
    exact h
  | createMultipartUpload =>
    intro r hr
    obtain rfl := List.mem_singleton.mp hr
    trivial
  | abortMultipartUpload uploadId =>
    intro r hr
    obtain rfl := List.mem_singleton.mp hr
    trivial
  | idle | returned | listUploadedParts _ | uploading _ | getUploadPartUrl _ _ _ =>
    intro r hr
    cases hr

end Invariant

section Steps

theorem started_ok {localStorage : LocalStorage}
    (h : ∀ x, loadSession localStorage = some x → x.fingerprint = fileFingerprint file →
      OpenUpload file s3 x.uploadId) : PhaseOk file s3 (started file localStorage) := by
  rw [started]
  split
  · trivial
  · rename_i existing hx
    split
    · rename_i hfp
      exact h existing hx hfp
    · trivial

theorem turned_ok {u : Upload} (h : Progress file s3 u u.rest) (aborted : Bool) :
    PhaseOk file s3 (turned u aborted) := by
  rw [turned]
  split
  · rename_i hrest
    rw [hrest] at h
    refine ⟨h.opened, fun p hp => ?_⟩
    obtain ⟨q, hq, rfl⟩ := List.mem_map.mp hp
    exact (h.done q hq).resolve_left List.not_mem_nil
  · rename_i part rest hrest
    rw [hrest] at h
    split
    · trivial
    · split
      · rename_i hsize
        have hpart : part ∈ file.plan := h.planned part List.mem_cons_self
        refine ⟨h.opened, fun q hq => h.planned q (List.mem_cons_of_mem _ hq), fun q hq => ?_,
          h.landed⟩
        rcases h.done q hq with htodo | hl
        · rcases List.mem_cons.mp htodo with rfl | hmem
          · exact Or.inr (h.landed q hpart _ hsize)
          · exact Or.inl hmem
        · exact Or.inr hl
      · exact ⟨h.opened, h.planned, h.done, h.landed⟩

theorem caught_ok {u : Upload} {part : PartPlan} (h : Progress file s3 u (part :: u.rest))
    (attempt : Nat) (aborted : Bool) : PhaseOk file s3 (caught u part attempt aborted) := by
  rw [caught]
  split
  · trivial
  · split
    · exact h
    · trivial

theorem failed_ok {phase phase' : Phase α} {aborted : Bool} (h : PhaseOk file s3 phase)
    (hf : failed aborted phase = some phase') : PhaseOk file s3 phase' := by
  cases phase with
  | idle | returned | uploading _ => cases hf
  | listUploadedParts uploadId =>
    cases hf
    trivial
  | getUploadPartUrl u part attempt =>
    cases hf
    exact caught_ok h attempt aborted
  | putPart u part attempt =>
    cases hf
    exact caught_ok h attempt aborted
  | createMultipartUpload | abortMultipartUpload _ | completeMultipartUpload _ | joinParts _ _ =>
    cases hf
    trivial

theorem listed_ok {listed : List (Nat × Nat)} (h : OpenUpload file s3 uploadId)
    (hl : s3.listParts uploadId = .ok listed) :
    Progress file s3 ⟨uploadId, listed, file.plan⟩ file.plan := by
  refine ⟨h, fun q hq => hq, fun q hq => Or.inl hq, fun q hq size hsize => ?_⟩
  obtain ⟨l₁, l₂, hsplit, -⟩ := List.lookup_eq_some_iff.mp hsize
  have hmem : (q.partNumber, size) ∈ listed.reverse := by simp [hsplit]
  exact h.landed_of_listed hl (part_mem hq) (List.mem_reverse.mp hmem)

theorem put_ok {u : Upload} {part : PartPlan} (h : Progress file s3 u (part :: u.rest))
    (hput : s3.putPart u.uploadId part.partNumber (file.slice part.start part.stop) = .ok s3') :
    Progress file s3' u u.rest := by
  have hpart : part ∈ file.plan := h.planned part List.mem_cons_self
  have hg := h.grows (grows_putPart hput (part_mem hpart))
  refine ⟨hg.opened, fun q hq => h.planned q (List.mem_cons_of_mem _ hq), fun q hq => ?_, hg.landed⟩
  rcases hg.done q hq with htodo | hl
  · rcases List.mem_cons.mp htodo with rfl | hmem
    · exact Or.inr (landed_putPart hput)
    · exact Or.inl hmem
  · exact Or.inr hl

end Steps

section Begin

structure Begins (files : Set (FileLike α)) (s : State α) : Prop where
  idle : s.phase = .idle
  noneInFlight : s.inFlight = []
  session : ∀ x, loadSession s.localStorage = some x →
    ∃ saved ∈ files, fileFingerprint saved = x.fingerprint ∧ OpenUpload saved s.s3 x.uploadId

theorem inv_of_begins {files : Set (FileLike α)} {s : State α} (h : Begins files s)
    (hsame : ∀ saved ∈ files, fileFingerprint saved = fileFingerprint file →
      saved.bytes = file.bytes) : Inv file s := by
  refine ⟨fun x hx hfp => ?_, ?_, fun r hr => ?_⟩
  · obtain ⟨saved, hsaved, hprint, hopen⟩ := h.session x hx
    have hparts := parts_congr (hsame saved hsaved (hprint.trans hfp))
    exact ⟨hopen.known, fun parts h' n bytes hn => hparts ▸ hopen.sound parts h' n bytes hn⟩
  · rw [h.idle]
    trivial
  · rw [h.noneInFlight] at hr
    cases hr

end Begin

section Run

variable [DecidableEq α]

theorem serve_grows {r : Request α} (h : RequestOk file s3 r) : Grows file s3 (serve s3 r).1 := by
  cases r with
  | createMultipartUpload => exact grows_create file s3
  | completeMultipartUpload uploadId => exact .refl file s3
  | putPart uploadId n bytes =>
    rw [serve]
    cases hput : s3.putPart uploadId n bytes with
    | error e => exact .refl file s3
    | ok s3' => exact grows_putPart hput h
  | abortMultipartUpload uploadId =>
    rw [serve]
    cases habort : s3.abortMultipartUpload uploadId with
    | error e => exact .refl file s3
    | ok s3' =>
      obtain rfl := abortMultipartUpload_ok habort
      exact grows_close file s3 s3.object uploadId
  | joinParts uploadId completeParts =>
    rw [serve]
    cases hjoin : s3.completeMultipartUpload uploadId completeParts with
    | error e => exact .refl file s3
    | ok s3' =>
      obtain rfl := completeMultipartUpload_ok hjoin
      exact grows_close file s3 _ uploadId

theorem serve_object {r : Request α} (h : RequestOk file s3 r)
    (hobj : s3.object = some file.bytes) : (serve s3 r).1.object = some file.bytes := by
  cases r with
  | createMultipartUpload => exact hobj
  | completeMultipartUpload uploadId => exact hobj
  | putPart uploadId n bytes =>
    rw [serve]
    cases hput : s3.putPart uploadId n bytes with
    | error e => exact hobj
    | ok s3' =>
      obtain ⟨parts, -, rfl⟩ := putPart_ok hput
      exact hobj
  | abortMultipartUpload uploadId =>
    rw [serve]
    cases habort : s3.abortMultipartUpload uploadId with
    | error e => exact hobj
    | ok s3' =>
      obtain rfl := abortMultipartUpload_ok habort
      exact hobj
  | joinParts uploadId completeParts =>
    rw [serve]
    cases hjoin : s3.completeMultipartUpload uploadId completeParts with
    | error e => exact hobj
    | ok s3' =>
      obtain rfl := completeMultipartUpload_ok hjoin
      exact congrArg some h

theorem serve_sends {r : Request α} (h : RequestOk file s3 r) :
    ∀ r' ∈ (serve s3 r).2, RequestOk file (serve s3 r).1 r' := by
  cases r with
  | completeMultipartUpload uploadId =>
    intro r' hr'
    cases hl : s3.listAllParts uploadId with
    | error e =>
      rw [serve, hl] at hr'
      cases hr'
    | ok listed =>
      rw [serve, hl] at hr'
      obtain rfl := List.mem_singleton.mp hr'
      have hparts := h.1.listed_eq h.2 hl
      exact hparts ▸ flatMap_parts file
  | createMultipartUpload | putPart _ _ _ | abortMultipartUpload _ | joinParts _ _ =>
    intro r' hr'
    cases hr'

theorem answered_inv {s t : State α} (h : Inv file s) (aborted : Bool)
    (ht : answered file s aborted = some t) : Inv file t := by
  obtain ⟨s3, localStorage, phase, inFlight⟩ := s
  have hphase : PhaseOk file s3 phase := h.phase
  cases phase with
  | idle | returned | uploading _ => cases ht
  | listUploadedParts uploadId =>
    rw [answered] at ht
    dsimp only at ht
    split at ht
    · cases ht
      exact h.rephase trivial
    · rename_i listed hlisted
      cases ht
      exact h.rephase (listed_ok hphase hlisted)
  | createMultipartUpload =>
    cases ht
    refine h.next (grows_create file s3) (fun x hx _ => ?_) ?_ fun r hr => Or.inl hr
    · obtain rfl := eq_of_loadSession_save hx
      exact Or.inr (open_create file s3)
    · exact ⟨open_create file s3, fun q hq => hq, fun q hq => Or.inl hq, fun q _ size hsize =>
        by cases hsize⟩
  | getUploadPartUrl u part attempt =>
    rw [answered] at ht
    dsimp only at ht
    split at ht
    · cases ht
      exact h.rephase hphase
    · cases ht
      exact h.rephase (caught_ok hphase attempt aborted)
  | putPart u part attempt =>
    rw [answered] at ht
    dsimp only at ht
    split at ht
    · cases ht
      exact h.rephase (caught_ok hphase attempt aborted)
    · rename_i s3' hput
      cases ht
      have hmem := part_mem (hphase.planned part List.mem_cons_self)
      exact h.next (grows_putPart hput hmem) (fun x hx _ => Or.inl hx) (put_ok hphase hput)
        fun r hr => Or.inl hr
  | abortMultipartUpload uploadId =>
    rw [answered] at ht
    dsimp only at ht
    split at ht
    · cases ht
      exact h.rephase trivial
    · rename_i s3' habort
      cases ht
      obtain rfl := abortMultipartUpload_ok habort
      exact h.cleared (grows_close file s3 s3.object uploadId) trivial
  | completeMultipartUpload uploadId =>
    rw [answered] at ht
    dsimp only at ht
    split at ht
    · cases ht
      exact h.rephase trivial
    · rename_i listed hlisted
      cases ht
      have hparts := hphase.1.listed_eq hphase.2 hlisted
      exact h.rephase (hparts ▸ flatMap_parts file)
  | joinParts uploadId completeParts =>
    rw [answered] at ht
    dsimp only at ht
    split at ht
    · cases ht
      exact h.rephase trivial
    · rename_i s3' hjoin
      cases ht
      obtain rfl := completeMultipartUpload_ok hjoin
      exact h.cleared (grows_close file s3 _ uploadId) (congrArg some hphase)

theorem deliver_inv {s : State α} (h : Inv file s) {r : Request α} {n : Nat}
    (hr : s.inFlight[n]? = some r) : Inv file
      { s with s3 := (serve s.s3 r).1, inFlight := s.inFlight.eraseIdx n ++ (serve s.s3 r).2 } := by
  have hok := h.inFlight r (List.mem_of_getElem? hr)
  have hg := serve_grows hok
  refine h.next hg (fun x hx _ => Or.inl hx) (h.phase.grows hg (serve_object hok)) fun r' hr' => ?_
  exact (List.mem_append.mp hr').imp (fun hold => List.mem_of_mem_eraseIdx hold) (serve_sends hok r')

theorem step_inv (file : FileLike α) :
    Preserves (step file) (fun _ _ => True) (Inv file) := by
  intro s a t h _ ht
  cases a with
  | start =>
    rw [step] at ht
    split at ht
    · cases ht
      exact h.rephase (started_ok h.session)
    · cases ht
      exact h.rephase (started_ok h.session)
    · cases ht
  | turn aborted =>
    rw [step] at ht
    split at ht
    · rename_i u hu
      cases ht
      have hprogress : PhaseOk file s.s3 (.uploading u) := hu ▸ h.phase
      exact h.rephase (turned_ok hprogress aborted)
    · cases ht
  | answer aborted => exact answered_inv h aborted ht
  | fail aborted =>
    obtain ⟨phase, hf, rfl⟩ := Option.map_eq_some_iff.mp ht
    exact h.turn (failed_ok h.phase hf) (pending_ok h.phase)
  | reload =>
    cases ht
    exact h.turn trivial (pending_ok h.phase)
  | deliver n =>
    obtain ⟨r, hr, rfl⟩ := Option.map_eq_some_iff.mp ht
    exact deliver_inv h hr
  | expire uploadId =>
    cases ht
    have hg := grows_close file s.s3 s.s3.object uploadId
    exact h.next hg (fun x hx _ => Or.inl hx) (h.phase.grows hg id) fun r hr => Or.inl hr
  | another object parts localStorage =>
    have hnext : ∀ hall : (loadSession localStorage).all
        (fun x => x.fingerprint ≠ fileFingerprint file) = true,
        Inv file (interrupted s object parts localStorage) := by
      intro hall
      refine h.next (grows_fresh file s.s3 object parts) (fun x hx hfp => ?_) trivial
        fun r hr => Or.inl hr
      rw [hx] at hall
      simp [hfp] at hall
    rw [step] at ht
    split at ht
    · split at ht
      · rename_i hall
        cases ht
        exact hnext hall
      · cases ht
    · split at ht
      · rename_i hall
        cases ht
        exact hnext hall
      · cases ht
    · cases ht

theorem returned_has_bytes {files : Set (FileLike α)} {s : State α} (h : Begins files s)
    (hsame : ∀ saved ∈ files, fileFingerprint saved = fileFingerprint file →
      saved.bytes = file.bytes) (as : List (Action α)) :
    EveryState (step file) (fun t => t.phase = .returned → t.s3.object = some file.bytes) s as := by
  refine (everyState_of_preserves (step_inv file) as (inv_of_begins h hsame)
    (everyStep_of_forall (fun _ _ => trivial) as)).mono fun t ht hreturned => ?_
  have hphase := ht.phase
  rwa [hreturned] at hphase

section Resumed

def scan : FileLike Nat := ⟨"scan.pdf", 7, [4, 2]⟩

def reopened : State Nat where
  s3 := ⟨none, fun uploadId => if uploadId = 0 then some (AList.singleton 1 [4, 2]) else none, 1⟩
  localStorage := some (some (.session ⟨0, fileFingerprint scan⟩))
  phase := .idle
  inFlight := []

def retried : List (Action Nat) :=
  [.start, .answer false, .turn false, .turn false, .answer false, .fail false, .deliver 0,
    .start, .answer false, .answer false, .turn false, .answer false, .answer false, .turn false,
    .answer false, .answer false]

theorem begins_reopened : Begins {scan} reopened := by
  refine ⟨rfl, rfl, fun x hx => ⟨scan, rfl, ?_⟩⟩
  obtain rfl : (⟨0, fileFingerprint scan⟩ : StoredSession) = x := Option.some.inj hx
  refine ⟨rfl, Nat.zero_lt_one, fun parts hparts n bytes hn => ?_⟩
  obtain rfl : (AList.singleton 1 [4, 2] : Parts Nat) = parts := Option.some.inj hparts
  have he := AList.mem_lookup_iff.mp (Option.mem_def.mpr hn)
  obtain ⟨rfl, hbytes⟩ := Sigma.mk.inj (List.mem_singleton.mp he)
  obtain rfl := eq_of_heq hbytes
  decide

theorem reopened_has_bytes : EveryState (step scan)
    (fun t => t.phase = .returned → t.s3.object = some [4, 2]) reopened retried ∧
    ((exec (step scan) reopened retried).map fun t => t.phase) = some .returned :=
  ⟨returned_has_bytes begins_reopened
    (fun saved hsaved _ => congrArg FileLike.bytes (Set.mem_singleton_iff.mp hsaved)) retried,
    by decide⟩

end Resumed

end Run

end ResumableUpload

end FileIndexer
