import Mathlib.Data.Nat.Log
import Leaderberry.Wal.Codec

/-!
# The file-based log (`wal/file_wal.go`)

A directory holds numbered segments, and a legacy log if an old version left one. The log
appends to the segment with the highest number and starts a new one before a write when
the current one has reached its size.

- Files are byte strings by number. File names enter where the directory is scanned:
  `Sscanf("%05d")` reads at most five digits of a number (`scanned`).
- `buf` holds what the `bufio.Writer` has not passed on. It may pass on a part earlier;
  only a crash could tell, and a crash is modelled by cutting the last segment anywhere.
- File operations succeed, except for the removal of a segment, whose answer is an
  argument of `checkpoint`.
-/

namespace Leaderberry.Wal

open RecordStream

/-- `maxHeightIndexSize`. -/
def maxHeightIndexSize : Nat := 100000

/-- `defaultMaxSegSize`. -/
def defaultMaxSegSize : Nat := 64 * 1024 * 1024

/-- The log's directory. -/
structure Dir where
  legacy : Option Bytes
  segments : GoMap Nat Bytes
deriving DecidableEq

/-- `FileWAL` for messages of type `M`, with its directory and its `Group`. -/
structure FileWAL (M : Type) where
  dir : Dir
  buf : Bytes
  started : Bool
  segmentIndex : Nat
  segmentSize : Nat
  maxSegSize : Nat
  minIndex : Nat
  maxIndex : Nat
  heightIndex : GoMap Int Nat

/-! ## Directories -/

namespace Dir

/-- A segment number as `Sscanf("wal-%05d")` reads it from a file name that `Sprintf`
made of it: the first five digits. -/
def scanned (index : Nat) : Nat := index / 10 ^ (Nat.log 10 index - 4)

/-- The segment numbers read from the file names. -/
def scan (dir : Dir) : List Nat := dir.segments.keys.map scanned

/-- `findHighestSegmentIndex`; it first turns a legacy log into segment 0. -/
def findHighestSegmentIndex (dir : Dir) : Dir × Nat :=
  match dir.legacy with
  | some bytes => ({ legacy := none, segments := dir.segments.insert 0 bytes }, 0)
  | none => (dir, dir.scan.max?.getD 0)

/-- `findLowestSegmentIndex`. -/
def findLowestSegmentIndex (dir : Dir) : Nat := dir.scan.min?.getD 0

/-- `findSegments`. -/
def findSegments (dir : Dir) : List Nat := dir.scan.mergeSort

section reading

variable (M : Type) [WalCodec M]

/-- What `multiSegmentReader.Read` returns until its first error, `none` for `io.EOF`. -/
def readSegments (dir : Dir) : List Nat → List M × Option WalError
  | [] => ([], none)
  | index :: rest =>
    match dir.segments.lookup index with
    | none => ([], some (.openFailed index))
    | some bytes =>
      match (decoder M).read bytes with
      | (msgs, some e) => (msgs, some e)
      | (msgs, none) => (msgs ++ (readSegments dir rest).1, (readSegments dir rest).2)

/-- `OpenWALForReading`, read until `io.EOF` or the first error. -/
def openWALForReading (dir : Dir) : Except WalError (List M × Option WalError) :=
  match dir.legacy with
  | some bytes => .ok ((decoder M).read bytes)
  | none =>
    if dir.findSegments.length = 0 then .error .notFound
    else .ok (dir.readSegments M dir.findSegments)

end reading

end Dir

/-- The numbers from `lo` to `hi`. -/
def indices (lo hi : Nat) : List Nat := List.range' lo (hi + 1 - lo)

namespace FileWAL

variable {M : Type} [WalCodec M]

/-- `NewFileWALWithOptions`, on a directory that exists. -/
def newFileWALWithOptions (dir : Dir) (maxSegSize : Int) : FileWAL M where
  dir := dir
  buf := []
  started := false
  segmentIndex := 0
  segmentSize := 0
  maxSegSize := if maxSegSize ≤ 0 then defaultMaxSegSize else maxSegSize.toNat
  minIndex := 0
  maxIndex := 0
  heightIndex := ∅

/-! ## Opening and closing -/

/-- The effect of a message read from segment `index` on the height index. -/
def indexMsg (index : Nat) (heightIndex : GoMap Int Nat) (m : M) : GoMap Int Nat :=
  if WalCodec.isEndHeight m then heightIndex.insert (WalCodec.height m) index else heightIndex

/-- One segment of `buildIndex`; an error ends the segment like its end. -/
def indexSegment (dir : Dir) (heightIndex : GoMap Int Nat) (index : Nat) : GoMap Int Nat :=
  match dir.segments.lookup index with
  | none => heightIndex
  | some bytes => ((decoder M).read bytes).1.foldl (indexMsg index) heightIndex

variable (M) in
/-- `buildIndex`. -/
def buildIndex (dir : Dir) (minIndex maxIndex : Nat) : GoMap Int Nat :=
  (indices minIndex maxIndex).foldl (indexSegment (M := M) dir) ∅

/-- The content of a segment, empty if there is none. -/
def segment (w : FileWAL M) (index : Nat) : Bytes := (w.dir.segments.lookup index).getD []

/-- `openSegment`: the file is created if it does not exist, and appended to. -/
def openSegment (index : Nat) (w : FileWAL M) : FileWAL M :=
  { w with
    dir := { w.dir with segments := w.dir.segments.insert index (w.segment index) }
    buf := []
    segmentIndex := index
    segmentSize := (w.segment index).length }

/-- `Start`. -/
def start (w : FileWAL M) : FileWAL M :=
  if w.started then w
  else
    let found := w.dir.findHighestSegmentIndex
    let minIndex := found.1.findLowestSegmentIndex
    let w : FileWAL M := { w with
      dir := found.1
      minIndex
      maxIndex := found.2
      heightIndex := buildIndex M found.1 minIndex found.2 }
    { w.openSegment found.2 with started := true }

/-- `flushAndSync`. -/
def flushAndSync (w : FileWAL M) : FileWAL M :=
  { w with
    dir := { w.dir with
      segments := w.dir.segments.insert w.segmentIndex (w.segment w.segmentIndex ++ w.buf) }
    buf := [] }

/-- `Stop`. -/
def stop (w : FileWAL M) : FileWAL M :=
  if w.started then { w.flushAndSync with started := false } else w

/-- `FlushAndSync`. -/
def flush (w : FileWAL M) : FileWAL M × Except WalError Unit :=
  if w.started then (w.flushAndSync, .ok ()) else (w, .error .closed)

/-! ## Writing -/

/-- `rotate`. -/
def rotate (w : FileWAL M) : FileWAL M :=
  { w.flushAndSync.openSegment (w.segmentIndex + 1) with maxIndex := w.segmentIndex + 1 }

/-- The rotation check in front of a write. -/
def rotateIfFull (w : FileWAL M) : FileWAL M :=
  if w.maxSegSize ≤ w.segmentSize then w.rotate else w

/-- `pruneHeightIndex`: the lowest heights go. -/
def pruneHeightIndex (heightIndex : GoMap Int Nat) : GoMap Int Nat :=
  let heights := heightIndex.keys.mergeSort
  (heights.take (heights.length - maxHeightIndexSize)).foldl (fun ix h => ix.erase h) heightIndex

/-- The end of a write: the record goes to the buffer, an EndHeight message to the index. -/
def append (m : M) (data : Bytes) (w : FileWAL M) : FileWAL M :=
  { w with
    buf := w.buf ++ frame M data
    segmentSize := w.segmentSize + (4 + data.length + 4)
    heightIndex :=
      if WalCodec.isEndHeight m then
        pruneHeightIndex (w.heightIndex.insert (WalCodec.height m) w.segmentIndex)
      else w.heightIndex }

/-- `Write`. -/
def write (m : M) (w : FileWAL M) : FileWAL M × Except WalError Unit :=
  if w.started then
    match WalCodec.marshal m with
    | none => (w.rotateIfFull, .error .marshalFailed)
    | some data => (w.rotateIfFull.append m data, .ok ())
  else (w, .error .closed)

/-- `WriteSync`: `Write`, and the buffer is flushed if that succeeded. -/
def writeSync (m : M) (w : FileWAL M) : FileWAL M × Except WalError Unit :=
  match w.write m with
  | (w, .ok ()) => (w.flushAndSync, .ok ())
  | (w, .error e) => (w, .error e)

/-! ## Searching -/

/-- `msg.Type == MsgTypeEndHeight && msg.Height == height`. -/
def endsHeight (height : Int) (m : M) : Bool :=
  WalCodec.isEndHeight m && WalCodec.height m == height

/-- `searchSegmentForEndHeight`; the reader is what is left of the segment. -/
def searchSegmentForEndHeight (w : FileWAL M) (index : Nat) (height : Int) :
    Seek Byte WalError :=
  match w.dir.segments.lookup index with
  | none => .missing
  | some bytes => (decoder M).seek (endsHeight height) bytes

/-- The fallback of `SearchForEndHeight`: the segments in order. -/
def scanSegments (height : Int) (w : FileWAL M) :
    List Nat → FileWAL M × Except WalError (Option Bytes)
  | [] => (w, .ok none)
  | index :: rest =>
    match w.searchSegmentForEndHeight index height with
    | .failed e => (w, .error e)
    | .found reader =>
      ({ w with heightIndex := w.heightIndex.insert height index }, .ok (some reader))
    | .missing => scanSegments height w rest

/-- `SearchForEndHeight`. -/
def searchForEndHeight (height : Int) (w : FileWAL M) :
    FileWAL M × Except WalError (Option Bytes) :=
  if w.started then
    let w := w.flushAndSync
    match w.heightIndex.lookup height with
    | none => w.scanSegments height (indices w.minIndex w.maxIndex)
    | some index =>
      match w.searchSegmentForEndHeight index height with
      | .failed e => (w, .error e)
      | .found reader => (w, .ok (some reader))
      | .missing => w.scanSegments height (indices w.minIndex w.maxIndex)
  else (w, .error .closed)

/-! ## Deleting -/

/-- `canDeleteSegment`. -/
def canDeleteSegment (w : FileWAL M) (index : Nat) (checkpointHeight : Int) :
    Except WalError Bool :=
  match w.dir.segments.lookup index with
  | none => .error (.openFailed index)
  | some bytes =>
    match (decoder M).read bytes with
    | (_, some e) => .error e
    | (msgs, none) =>
      .ok (decide ((msgs.map WalCodec.height).foldl max 0 ≤ checkpointHeight))

/-- The segments that `Checkpoint` decides to delete: from the lowest up to the first
that it cannot delete, never the current one. -/
def segmentsToDelete (w : FileWAL M) (checkpointHeight : Int) : List Nat :=
  (List.range' w.minIndex (w.maxIndex - w.minIndex)).takeWhile fun index =>
    w.canDeleteSegment index checkpointHeight = .ok true

/-- The removal of a segment, from the directory and from the index. -/
def deleteSegment (index : Nat) (w : FileWAL M) : FileWAL M :=
  { w with
    dir := { w.dir with segments := w.dir.segments.erase index }
    heightIndex := (w.heightIndex.keys.filter fun h => w.heightIndex.lookup h = some index).foldl
      (fun ix h => ix.erase h) w.heightIndex }

/-- The deletion loop of `Checkpoint`, which stops when a removal fails. -/
def deleteSegments (removes : Nat → Bool) :
    List Nat → FileWAL M → FileWAL M × Except WalError Unit
  | [], w => (w, .ok ())
  | index :: rest, w =>
    if removes index then deleteSegments removes rest (w.deleteSegment index)
    else (w, .error (.removeFailed index))

/-- `Checkpoint`; `removes` tells which segments the operating system removes. -/
def checkpoint (removes : Nat → Bool) (checkpointHeight : Int) (w : FileWAL M) :
    FileWAL M × Except WalError Unit :=
  if w.started then
    let segments := w.segmentsToDelete checkpointHeight
    match deleteSegments removes segments w with
    | (w, .error e) => (w, .error e)
    | (w, .ok ()) =>
      match segments.getLast? with
      | none => (w, .ok ())
      | some index => ({ w with minIndex := index + 1 }, .ok ())
  else (w, .error .closed)

end FileWAL

end Leaderberry.Wal
