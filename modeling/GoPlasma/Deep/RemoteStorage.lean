import GoPlasma.Smt.Tree

/-!
# The storage of chunks (`deep/remotestorage.go`)

`RemoteStorage` keeps chunks in a local leveldb, which may not be open, and has a queue of chunks
that `Flush` writes in one batch. The calls of the cloud store, for which the local database was a
cache, are commented out.

leveldb is a store whose calls can fail: a write that fails changes nothing, and a batch is written
as a whole. Which write fails is an argument of the call, and the reads that fail are a function of
the key. The texts with the addresses of chunks are cut off before them.
-/

namespace GoPlasma.Deep

/-- `Chunk` -/
structure Chunk where
  chunkID : Bytes
  value : Bytes
  ok : Bool
  error : Option String
deriving DecidableEq

/-- `RemoteStorage`, without what only the calls of the cloud store use. -/
structure RemoteStorage where
  chunkQueue : List Chunk
  /-- The database, if it is open. -/
  ldb : Option Smt.Store
  localOnly : Bool

/-- The results of `GetChunk`. -/
structure GetResult where
  chunk : Bytes
  ok : Bool
  err : Option String
deriving DecidableEq

/-- The error of a write, or of a read with a key. -/
abbrev Fault := Option String

/-- The errors of `Get`. -/
inductive LdbError where
  | errNotFound
  | other (e : String)

/-- No read fails. -/
def noFault : Bytes → Fault := fun _ => none

/-- What is written of a chunk. -/
def Chunk.pair (ch : Chunk) : Bytes × Bytes := (ch.chunkID, ch.value)

namespace RemoteStorage

/-! ## Writing -/

/-- `SetChunkLocal` -/
def setChunkLocal (fault : Fault) (chunkID chunk : Bytes) (s : RemoteStorage) :
    Option String × RemoteStorage :=
  match s.ldb with
  | none => (some "cache unavailable", s)
  | some db =>
    match fault with
    | some e => (some e, s)
    | none => (none, { s with ldb := some ((chunkID, chunk) :: db) })

/-- `SetChunkBatchLocal` -/
def setChunkBatchLocal (fault : Fault) (chunks : List Chunk) (s : RemoteStorage) :
    Option String × RemoteStorage :=
  match s.ldb with
  | none => (some "[deep:remotestorage:SetChunkBatchLocal] cache unavailable", s)
  | some db =>
    match fault with
    | some e => (some ("[deep:remotestorage:SetChunkBatchLocal] error writing batch " ++ e), s)
    | none => (none, { s with ldb := some (db.setChunks (chunks.map Chunk.pair)) })

/-- `SetChunk`: the error of the local write is returned in local mode only. -/
def setChunk (fault : Fault) (chunkID chunk : Bytes) (s : RemoteStorage) :
    Option String × RemoteStorage :=
  let (err, s') := s.setChunkLocal fault chunkID chunk
  (if s.localOnly then err else none, s')

/-- `SetChunkBatch` -/
def setChunkBatch (fault : Fault) (chunks : List Chunk) (s : RemoteStorage) :
    Option String × RemoteStorage :=
  let (err, s') := s.setChunkBatchLocal fault chunks
  (if s.localOnly then err else none, s')

/-- `QueueChunk`: a chunk with the same ID gets the new value in its place. -/
def queueChunk (chunkID chunk : Bytes) (s : RemoteStorage) : RemoteStorage :=
  { s with chunkQueue :=
      if s.chunkQueue.any fun c => decide (c.chunkID = chunkID) then
        s.chunkQueue.map fun c => if c.chunkID = chunkID then { c with value := chunk } else c
      else s.chunkQueue ++ [⟨chunkID, chunk, false, none⟩] }

/-- `Flush` -/
def flush (fault : Fault) (s : RemoteStorage) : Option String × RemoteStorage :=
  if s.chunkQueue = [] then (none, s)
  else
    match s.setChunkBatch fault s.chunkQueue with
    | (some e, s') => (some e, s')
    | (none, s') => (none, { s' with chunkQueue := [] })

/-! ## Reading -/

/-- `Get` of an open database: a value, and an error where there is none. -/
def ldbGet (fault : Bytes → Fault) (db : Smt.Store) (key : Bytes) : Bytes × Option LdbError :=
  match fault key with
  | some e => ([], some (.other e))
  | none =>
    match db.lookup key with
    | none => ([], some .errNotFound)
    | some v => (v, none)

/-- `GetChunkLocal` -/
def getChunkLocal (fault : Bytes → Fault) (chunkID : Bytes) (s : RemoteStorage) : GetResult :=
  match s.ldb with
  | none => ⟨[], false, some "cache unavailable"⟩
  | some db =>
    match ldbGet fault db chunkID with
    | (v, some .errNotFound) => ⟨v, false, none⟩
    | (v, some (.other e)) => ⟨v, false, some e⟩
    | (v, none) => ⟨v, true, none⟩

/-- `GetChunk`. Nothing is asked for a chunk that is not there: `ok` is false behind the first
return, and nothing is stored in the cache either. -/
def getChunk (fault : Bytes → Fault) (chunkID : Bytes) (s : RemoteStorage) : GetResult :=
  s.getChunkLocal fault chunkID

/-- The body of the loop in `GetChunkBatchLocal`. The branches of the two errors assign the element
too, but the last assignment is not in an `else`. -/
def getElement (fault : Bytes → Fault) (db : Smt.Store) (ch : Chunk) : Chunk :=
  ⟨[], (ldbGet fault db ch.chunkID).1, true, none⟩

/-- `GetChunkBatchLocal` -/
def getChunkBatchLocal (fault : Bytes → Fault) (chunks : List Chunk) (s : RemoteStorage) :
    Option String × List Chunk :=
  match s.ldb with
  | none => (some "cache unavailable", chunks)
  | some db => (none, chunks.map (getElement fault db))

/-- `GetChunkBatch`: the error, and the elements that the slice has then. -/
def getChunkBatch (fault : Bytes → Fault) (chunks : List Chunk) (s : RemoteStorage) :
    Option String × List Chunk :=
  let (err, chunks) := s.getChunkBatchLocal fault chunks
  let uncachedChunks := chunks.filter fun c => !c.ok
  if s.localOnly then
    match err with
    | some e =>
        (some ("[LocalMode] Error encountered trying to retrieve from cache: " ++ e), chunks)
    | none =>
      if uncachedChunks.length ≠ 0 then
        (some "[LocalMode] Error encountered trying to retrieve uncached Chunks: ", chunks)
      else (none, chunks)
  else (none, chunks)

end RemoteStorage

end GoPlasma.Deep
