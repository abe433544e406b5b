import FileIndexer.Foundation.Base64
import FileIndexer.Service.Search.Tokens

namespace FileIndexer

namespace Search

def urlAlphabet : Text := ascii "ABCDEFGHIJKLMNOPQRSTUVWXYZabcdefghijklmnopqrstuvwxyz0123456789-_"

-- base64.RawURLEncoding, which skips line breaks and is not strict
def rawURLEncoding : Base64.Encoding Byte where
  alphabet := urlAlphabet
  skipped b := b = 10 || b = 13
  length := by decide +kernel
  nodup := by decide +kernel
  kept := by decide +kernel

-- proto.Marshal and proto.Unmarshal of a PageToken; nothing is written for the default one only
structure Protobuf where
  marshal : PageToken → List Byte
  unmarshal : List Byte → Option PageToken
  unmarshal_marshal : ∀ c, unmarshal (marshal c) = some c
  marshal_eq_nil_iff : ∀ c, marshal c = [] ↔ c = {}

theorem Protobuf.unmarshal_nil (p : Protobuf) : p.unmarshal [] = some {} := by
  have hdefault := p.unmarshal_marshal {}
  rwa [(p.marshal_eq_nil_iff {}).mpr rfl] at hdefault

section Codec

variable (p : Protobuf)

def encodeCursor (c : PageToken) : Text := rawURLEncoding.encode (p.marshal c)

def decodeCursor (token : Text) : Option PageToken :=
  (rawURLEncoding.decode token).bind p.unmarshal

theorem decode_encodeCursor (c : PageToken) : decodeCursor p (encodeCursor p c) = some c := by
  rw [decodeCursor, encodeCursor, Base64.Encoding.decode_encode]
  exact p.unmarshal_marshal c

def TokenCodec.base64url : TokenCodec Text where
  empty := []
  encode := encodeCursor p
  decode := decodeCursor p
  decode_encode := decode_encodeCursor p
  encode_eq_empty_iff c := Base64.Encoding.encode_eq_nil_iff.trans (p.marshal_eq_nil_iff c)

end Codec

section Resent

variable {τ : Type} [DecidableEq τ] {c : TokenCodec τ}

def Call.withPageToken (pageToken : τ) : Call τ → Call τ
  | .listFiles req => .listFiles { req with pageToken }
  | .listDirectory req => .listDirectory { req with pageToken }
  | .searchDirectories req => .searchDirectories { req with pageToken }

theorem readToken_congr {token token' : τ} (hne : token ≠ c.empty) (hne' : token' ≠ c.empty)
    (h : c.decode token = c.decode token') : readToken c token = readToken c token' := by
  funext same
  rw [readToken, readToken, if_neg hne, if_neg hne', h]

theorem run_congr (x : TextSearch) (ix : FileIndex) (call : Call τ) {token token' : τ}
    (h : readToken c token = readToken c token') :
    (call.withPageToken token).run c x ix = (call.withPageToken token').run c x ix := by
  cases call with
  | listFiles req =>
    simp only [Call.withPageToken, Call.run]
    rw [Rpc.listFiles_def x ix.files req req.pageSize token,
      Rpc.listFiles_def x ix.files req req.pageSize token', h]
  | listDirectory req =>
    simp only [Call.withPageToken, Call.run]
    rw [Rpc.listDirectory_def x ix req req.pageSize token,
      Rpc.listDirectory_def x ix req req.pageSize token', h]
  | searchDirectories req => simp only [Call.withPageToken, Call.run, Rpc.searchDirectories, h]

theorem rejected_of_refused (x : TextSearch) (ix : FileIndex) (call : Call τ) {token : τ}
    (hne : token ≠ c.empty) (h : ∀ cur, c.decode token = some cur → ¬Checks cur call) :
    Rejected ((call.withPageToken token).run c x ix) := by
  have hread (same : PageToken → Bool)
      (hsame : ∀ cur, c.decode token = some cur → same cur = false) :
      ∃ message, readToken c token same = .error (invalidArgument message []) := by
    rw [readToken, if_neg hne]
    cases hcur : c.decode token with
    | none => exact ⟨_, rfl⟩
    | some cur => exact ⟨_, if_neg (Bool.eq_false_iff.mp (hsame cur hcur))⟩
  cases call with
  | listFiles req =>
    apply rejected_bind_ok.mpr
    obtain ⟨message, hread⟩ := hread (fun cur => cur.sortField = req.sort.1 &&
      cur.sortOrder = req.sort.2 && cur.query = req.query && cur.contentType = req.contentType)
      fun cur hcur => by simpa [Checks, imp_iff_not_or, or_assoc] using h cur hcur
    rw [Rpc.listFiles_def x ix.files req req.pageSize token, hread]
    exact ⟨_, rfl, rfl⟩
  | listDirectory req =>
    apply rejected_bind_ok.mpr
    rw [Rpc.listDirectory_def x ix req req.pageSize token]
    cases hpath : normalizeDirPath req.path with
    | error e => exact ⟨e, rfl, normalizeDirPath_error hpath⟩
    | ok path =>
      obtain ⟨message, hread⟩ := hread (fun cur => cur.path = path &&
        cur.sortField = req.sort.1 && cur.sortOrder = req.sort.2) fun cur hcur => by
          simpa [Checks, hpath, eq_comm (a := path), imp_iff_not_or, or_assoc] using h cur hcur
      rw [Except.ok_bind, hread]
      exact ⟨_, rfl, rfl⟩
  | searchDirectories req =>
    apply rejected_bind_ok.mpr
    obtain ⟨message, hread⟩ := hread (fun cur => cur.query = req.query)
      fun cur hcur => by simpa [Checks] using h cur hcur
    simp only [Rpc.searchDirectories, hread]
    exact ⟨_, rfl, rfl⟩

omit [DecidableEq τ] in
theorem not_checks_default {call : Call τ} :
    ¬Checks {} call ↔ ¬∃ req, call = .searchDirectories req ∧ req.query = [] := by
  cases call with
  | listFiles req =>
    simp only [Checks, reduceCtorEq, false_and, exists_false, not_false_eq_true, iff_true]
    rintro ⟨hfield, -⟩
    exact req.sort_specified.1 hfield.symm
  | listDirectory req =>
    simp only [Checks, reduceCtorEq, false_and, exists_false, not_false_eq_true, iff_true]
    rintro ⟨-, hfield, -⟩
    exact req.sort_specified.1 hfield.symm
  | searchDirectories req => simp [Checks, eq_comm (a := ([] : Text))]

theorem accepted_of_default (x : TextSearch) (ix : FileIndex) {req : SearchDirectoriesRequest τ}
    {token : τ} (hne : token ≠ c.empty) (hcur : c.decode token = some {}) (hquery : req.query = []) :
    ¬Rejected (((Call.searchDirectories req).withPageToken token).run c x ix) := by
  apply mt rejected_bind_ok.mp
  have hread : readToken c token (fun cur => cur.query = req.query) = .ok (some {}) := by
    rw [readToken, if_neg hne, hcur]
    simp [hquery]
  simp only [Rpc.searchDirectories, hread, Except.ok_bind]
  rintro ⟨e, he, -⟩
  split at he
  · cases he
  · cases he

theorem rejected_iff_refused (x : TextSearch) (ix : FileIndex) (call : Call τ) {token : τ}
    (hne : token ≠ c.empty) :
    Rejected ((call.withPageToken token).run c x ix) ↔
      ∀ cur, c.decode token = some cur → ¬Checks cur call := by
  refine ⟨fun hrejected cur hcur => ?_, rejected_of_refused x ix call hne⟩
  by_cases hdefault : cur = {}
  · subst hdefault
    apply not_checks_default.mpr
    rintro ⟨req, rfl, hquery⟩
    exact accepted_of_default x ix hne hcur hquery hrejected
  · have hcanonical : c.encode cur ≠ c.empty := mt (c.encode_eq_empty_iff cur).mp hdefault
    have hread := readToken_congr hne hcanonical (hcur.trans (c.decode_encode cur).symm)
    rw [run_congr x ix call hread] at hrejected
    have hcarries : (call.withPageToken (c.encode cur)).pageToken = c.encode cur := by
      cases call <;> rfl
    have hchecks := (rejected_iff_not_checks hcanonical hcarries).mp hrejected
    cases call with
    | listFiles req => exact hchecks
    | listDirectory req => exact hchecks
    | searchDirectories req => exact hchecks

end Resent

theorem page_tokens_wire (p : Protobuf) (x : TextSearch) (ix : FileIndex) (call later : Call Text)
    (token : Text) :
    (Issues (TokenCodec.base64url p) x ix call token →
      (∀ b ∈ token, b ∈ urlAlphabet) ∧
      ∃ cur, Records cur call ∧ decodeCursor p token = some cur ∧ encodeCursor p cur = token) ∧
    (token ≠ [] →
      (Rejected ((later.withPageToken token).run (TokenCodec.base64url p) x ix) ↔
        ∀ cur, decodeCursor p token = some cur → ¬Checks cur later) ∧
      (rawURLEncoding.unskipped token = [] →
        (Rejected ((later.withPageToken token).run (TokenCodec.base64url p) x ix) ↔
          ¬∃ req, later = .searchDirectories req ∧ req.query = [])) ∧
      ∀ bs ≠ [], rawURLEncoding.decode token = some bs →
        (later.withPageToken token).run (TokenCodec.base64url p) x ix =
          (later.withPageToken (rawURLEncoding.encode bs)).run (TokenCodec.base64url p) x ix ∧
        (rawURLEncoding.encode bs = token ↔ rawURLEncoding.Canonical token)) := by
  constructor
  · intro hissues
    obtain ⟨cur, rfl, hrecords⟩ := hissues.records
    refine ⟨fun b hb => ?_, cur, hrecords, decode_encodeCursor p cur, rfl⟩
    exact Base64.Encoding.mem_alphabet_of_mem_encode hb
  · intro hne
    have hrejected := rejected_iff_refused (c := TokenCodec.base64url p) x ix later hne
    refine ⟨hrejected, fun hblank => ?_, fun bs hbs hdecode => ⟨?_, ?_⟩⟩
    · have hdecode : rawURLEncoding.decode token = rawURLEncoding.decode [] :=
        Base64.Encoding.decode_congr hblank
      have hcur : decodeCursor p token = some {} := by
        rw [decodeCursor, hdecode]
        exact p.unmarshal_nil
      rw [hrejected, ← not_checks_default]
      constructor
      · exact fun h => h {} hcur
      · intro h cur hcur'
        obtain rfl := Option.some.inj (hcur.symm.trans hcur')
        exact h
    · apply run_congr
      have hcanonical : rawURLEncoding.encode bs ≠ [] := mt Base64.Encoding.encode_eq_nil_iff.mp hbs
      refine readToken_congr hne hcanonical ?_
      change (rawURLEncoding.decode token).bind _ = (rawURLEncoding.decode _).bind _
      rw [hdecode, Base64.Encoding.decode_encode]
    · exact Base64.Encoding.encode_of_decode hdecode

section Photos

def PageToken.fields (c : PageToken) : List Int × List Text :=
  ([c.sortField.ctorIdx, c.sortOrder.ctorIdx, c.lastId, c.lastModified, c.size, c.phase.ctorIdx,
    c.takenAt], [c.key, c.query, c.contentType, c.path, c.lastDir])

def PageToken.ofFields : List Int × List Text → Option PageToken
  | ([sortField, sortOrder, lastId, lastModified, size, phase, takenAt],
      [key, query, contentType, path, lastDir]) => do
    let sortField ← [SortField.unspecified, .key, .lastModified, .size, .takenAt][sortField.toNat]?
    let sortOrder ← [SortOrder.unspecified, .asc, .desc][sortOrder.toNat]?
    let phase ← [ListPhase.unspecified, .directories, .files][phase.toNat]?
    some ⟨sortField, sortOrder, lastId, key, lastModified, size, query, contentType, path, phase,
      lastDir, takenAt⟩
  | _ => none

theorem PageToken.ofFields_fields (c : PageToken) : ofFields c.fields = some c := by
  obtain ⟨sortField, sortOrder, lastId, key, lastModified, size, query, contentType, path, phase,
    lastDir, takenAt⟩ := c
  cases sortField <;> cases sortOrder <;> cases phase <;> rfl

-- sort_field 1, sort_order 1, last_id 1, key "a"
def firstPageBytes : List Byte := [0x08, 0x01, 0x10, 0x01, 0x18, 0x01, 0x22, 0x01, 0x61]

-- the message as it is written for the first page; another one is a count of bytes of its own
def photosProtobuf : Protobuf where
  marshal c :=
    if c = {} then []
    else if c = firstPageCursor then firstPageBytes
    else 0 :: List.replicate (Encodable.encode c.fields) 0
  unmarshal bs :=
    if bs = [] then some {}
    else if bs = firstPageBytes then some firstPageCursor
    else (Encodable.decode bs.tail.length).bind PageToken.ofFields
  unmarshal_marshal c := by
    by_cases hdefault : c = {}
    · rw [if_pos hdefault, if_pos rfl, hdefault]
    rw [if_neg hdefault]
    by_cases hfirst : c = firstPageCursor
    · rw [if_pos hfirst, hfirst]
      rfl
    · have hne : 0 :: List.replicate (Encodable.encode c.fields) 0 ≠ firstPageBytes :=
        fun h => absurd (List.cons.inj h).1 (by decide)
      rw [if_neg hfirst, if_neg (List.cons_ne_nil _ _), if_neg hne, List.tail_cons,
        List.length_replicate, Encodable.encodek]
      exact PageToken.ofFields_fields c
  marshal_eq_nil_iff c := by
    by_cases hdefault : c = {}
    · rw [if_pos hdefault]
      exact iff_of_true rfl hdefault
    rw [if_neg hdefault]
    refine iff_of_false ?_ hdefault
    split
    · exact List.cons_ne_nil _ _
    · exact List.cons_ne_nil _ _

def photosCall (query : Text) : Call Text := .listFiles ⟨1, [], query, [], .key, .asc⟩

theorem photosCall_issues :
    Issues (TokenCodec.base64url photosProtobuf) TextSearch.none photosIndex (photosCall [])
      (ascii "CAEQARgBIgFh") :=
  ⟨by decide, _, rfl, by decide⟩

theorem page_tokens_of_photos :
    (∃ cur, decodeCursor photosProtobuf (ascii "CAEQARgBIgFh") = some cur ∧
      Records cur (photosCall [])) ∧
    (Call.withPageToken (ascii "CAEQ\nARgBIgFh") (photosCall [])).run
        (TokenCodec.base64url photosProtobuf) TextSearch.none photosIndex =
      (Call.withPageToken (ascii "CAEQARgBIgFh") (photosCall [])).run
        (TokenCodec.base64url photosProtobuf) TextSearch.none photosIndex ∧
    Rejected ((Call.withPageToken (ascii "\n") (photosCall [])).run
      (TokenCodec.base64url photosProtobuf) TextSearch.none photosIndex) := by
  have hwire (token : Text) := page_tokens_wire photosProtobuf TextSearch.none photosIndex
    (photosCall []) (photosCall []) token
  refine ⟨?_, ?_, ?_⟩
  · obtain ⟨-, cur, hrecords, hcur, -⟩ := (hwire _).1 photosCall_issues
    exact ⟨cur, hcur, hrecords⟩
  · have hwrapped := (hwire (ascii "CAEQ\nARgBIgFh")).2 (by decide)
    exact (hwrapped.2.2 firstPageBytes (by decide) (by decide +kernel)).1
  · apply (((hwire (ascii "\n")).2 (by decide)).2.1 (by decide)).mpr
    rintro ⟨req, hreq, -⟩
    cases hreq

end Photos

end Search

end FileIndexer
