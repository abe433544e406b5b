import FileIndexer.Database.IndexQueue

namespace FileIndexer

namespace Search

inductive SortField where
  | unspecified
  | key
  | lastModified
  | size
  | takenAt
  deriving DecidableEq, Repr

inductive SortOrder where
  | unspecified
  | asc
  | desc
  deriving DecidableEq, Repr

inductive ListPhase where
  | unspecified
  | directories
  | files
  deriving DecidableEq, Repr

structure FileInfo where
  id : FileID
  key : Key
  contentType : Option Text
  sizeBytes : Option Int
  lastModified : Option Time
  effectiveTakenAt : Time
  deriving DecidableEq, Repr

-- the zero time.Time, in microseconds from the epoch
def zeroTime : Time := -62135596800000000

def FileInfo.zero : FileInfo := ⟨0, [], none, none, none, zeroTime⟩

structure PageToken where
  sortField : SortField := .unspecified
  sortOrder : SortOrder := .unspecified
  lastId : FileID := 0
  key : Key := []
  lastModified : Time := 0
  size : Int := 0
  query : Text := []
  contentType : Text := []
  path : Key := []
  phase : ListPhase := .unspecified
  lastDir : Key := []
  takenAt : Time := 0
  deriving DecidableEq, Repr

def coalesceLastModified (f : FileInfo) : Time := f.lastModified.getD 0

def setSortValue (c : PageToken) (sortField : SortField) (last : FileInfo) : PageToken :=
  match sortField with
  | .key => { c with key := last.key }
  | .lastModified => { c with lastModified := coalesceLastModified last }
  | .size => { c with size := last.sizeBytes.getD 0 }
  | .takenAt => { c with takenAt := last.effectiveTakenAt }
  | .unspecified => c

def newCursor (sortField : SortField) (sortOrder : SortOrder) (query contentType : Text)
    (last : FileInfo) : PageToken :=
  setSortValue { sortField, sortOrder, lastId := last.id, query, contentType } sortField last

def newDirFilesCursor (sortField : SortField) (sortOrder : SortOrder) (path : Key)
    (last : FileInfo) : PageToken :=
  setSortValue { sortField, sortOrder, lastId := last.id, path, phase := .files } sortField last

def newDirCursor (sortField : SortField) (sortOrder : SortOrder) (path lastDir : Key) : PageToken :=
  { sortField, sortOrder, path, phase := .directories, lastDir }

def newSearchDirsCursor (query : Text) (lastDir : Key) : PageToken := { query, lastDir }

-- encodeCursor and decodeCursor: base64url of a protobuf message, empty for the default one only
structure TokenCodec (τ : Type) where
  empty : τ
  encode : PageToken → τ
  decode : τ → Option PageToken
  decode_encode : ∀ c, decode (encode c) = some c
  encode_eq_empty_iff : ∀ c, encode c = empty ↔ c = {}

def TokenCodec.plain : TokenCodec (Option PageToken) where
  empty := none
  encode c := if c = {} then none else some c
  decode token := some (token.getD {})
  decode_encode c := by split <;> simp_all
  encode_eq_empty_iff c := by simp

def SortValue : SortField → Type
  | .key => Key
  | .size | .unspecified => Int
  | .lastModified | .takenAt => Time

instance sortValueLinearOrder : (field : SortField) → LinearOrder (SortValue field)
  | .key => inferInstanceAs (LinearOrder Key)
  | .size | .unspecified => inferInstanceAs (LinearOrder Int)
  | .lastModified | .takenAt => inferInstanceAs (LinearOrder Time)

def sortValue : (field : SortField) → FileInfo → SortValue field
  | .key, f => f.key
  | .lastModified, f => coalesceLastModified f
  | .size, f => f.sizeBytes.getD 0
  | .takenAt, f => f.effectiveTakenAt
  | .unspecified, _ => (0 : Int)

def tokenValue : (field : SortField) → PageToken → SortValue field
  | .key, c => c.key
  | .lastModified, c => c.lastModified
  | .size, c => c.size
  | .takenAt, c => c.takenAt
  | .unspecified, _ => (0 : Int)

def Position (field : SortField) : SortOrder → Type
  | .desc => (Lex (SortValue field × FileID))ᵒᵈ
  | .asc | .unspecified => Lex (SortValue field × FileID)

instance positionLinearOrder (field : SortField) :
    (order : SortOrder) → LinearOrder (Position field order)
  | .desc => inferInstanceAs (LinearOrder (Lex (SortValue field × FileID))ᵒᵈ)
  | .asc | .unspecified => inferInstanceAs (LinearOrder (Lex (SortValue field × FileID)))

def Position.mk {field : SortField} : (order : SortOrder) → SortValue field → FileID →
    Position field order
  | .desc, v, id => OrderDual.toDual (toLex (v, id))
  | .asc, v, id | .unspecified, v, id => toLex (v, id)

def position (field : SortField) (order : SortOrder) (f : FileInfo) : Position field order :=
  .mk order (sortValue field f) f.id

theorem Position.mk_inj {field : SortField} {order : SortOrder} {v v' : SortValue field}
    {id id' : FileID} : Position.mk order v id = Position.mk order v' id' ↔ v = v' ∧ id = id' := by
  have hpair : toLex (v, id) = toLex (v', id') ↔ v = v' ∧ id = id' := by
    rw [toLex.injective.eq_iff, Prod.mk.injEq]
  cases order with
  | desc => exact OrderDual.toDual.injective.eq_iff.trans hpair
  | asc => exact hpair
  | unspecified => exact hpair

section Tokens

variable (field : SortField) (order : SortOrder)

theorem fields_setSortValue (c : PageToken) (last : FileInfo) :
    (setSortValue c field last).sortField = c.sortField ∧
      (setSortValue c field last).sortOrder = c.sortOrder ∧
      (setSortValue c field last).lastId = c.lastId ∧
      (setSortValue c field last).query = c.query ∧
      (setSortValue c field last).contentType = c.contentType ∧
      (setSortValue c field last).path = c.path ∧
      (setSortValue c field last).phase = c.phase ∧
      (setSortValue c field last).lastDir = c.lastDir := by
  cases field <;> simp [setSortValue]

theorem tokenValue_setSortValue (c : PageToken) (last : FileInfo) :
    tokenValue field (setSortValue c field last) = sortValue field last := by
  cases field <;> rfl

theorem newCursor_fields (query contentType : Text) (last : FileInfo) :
    (newCursor field order query contentType last).sortField = field ∧
      (newCursor field order query contentType last).sortOrder = order ∧
      (newCursor field order query contentType last).lastId = last.id ∧
      (newCursor field order query contentType last).query = query ∧
      (newCursor field order query contentType last).contentType = contentType ∧
      (newCursor field order query contentType last).path = [] ∧
      (newCursor field order query contentType last).phase = .unspecified ∧
      (newCursor field order query contentType last).lastDir = [] :=
  fields_setSortValue field _ last

theorem newDirFilesCursor_fields (path : Key) (last : FileInfo) :
    (newDirFilesCursor field order path last).sortField = field ∧
      (newDirFilesCursor field order path last).sortOrder = order ∧
      (newDirFilesCursor field order path last).lastId = last.id ∧
      (newDirFilesCursor field order path last).query = [] ∧
      (newDirFilesCursor field order path last).contentType = [] ∧
      (newDirFilesCursor field order path last).path = path ∧
      (newDirFilesCursor field order path last).phase = .files ∧
      (newDirFilesCursor field order path last).lastDir = [] :=
  fields_setSortValue field _ last

end Tokens

end Search

end FileIndexer
