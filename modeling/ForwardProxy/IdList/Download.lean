/-
ForwardProxy.IdList.Download — the chunked download of an id-list file
(`worker/download.rs`).

The CDN is asked for one bounded range after another. The first answer
fixes the size of the snapshot that is read; every later range ends
inside it. `downloadChunk` checks one answer, `chunkedStep` is the closure
of `try_unfold`, and `chunkedStream` is the stream: it asks `serve n` for
its `n`-th range, so a server may answer every request as it likes.

Numbers are `u64`. An addition or subtraction that Rust would let leave
the type is `addU64` or `subU64`, which fail with `overflow`; the
saturating ones are written out. A body arrives in pieces, none longer
than a Rust allocation.

How a request is built (the query parameter `range`, the headers) is not
modelled: `serve` gets the range.
-/
import Mathlib.Data.List.Basic
import ForwardProxy.IdList.Dictionary
import ForwardProxy.Text.Split

namespace ForwardProxy.IdList

open Text

inductive DownloadError where
  /-- `WorkerError::Http`. -/
  | http (message : String)
  | worker (error : WorkerError)
  | overflow
  deriving DecidableEq, Repr

/-! ## Numbers -/

def u64Max : Nat := 2 ^ 64 - 1

def addU64 (a b : Nat) : Except DownloadError Nat :=
  if a + b ≤ u64Max then .ok (a + b) else .error .overflow

def subU64 (a b : Nat) : Except DownloadError Nat :=
  if b ≤ a then .ok (a - b) else .error .overflow

/-- `u64::saturating_add`. -/
def saturatingAdd (a b : Nat) : Nat := min (a + b) u64Max

/-! ## Answers -/

/-- `Bytes`: Rust allocates at most `isize::MAX` bytes. -/
structure Bytes where
  data : List UInt8
  fits : data.length < 2 ^ 63

structure Response where
  status : Nat
  /-- The headers, where `to_str` reads them. -/
  contentRange : Option String := none
  contentEncoding : Option String := none
  contentLength : Option Nat := none
  pieces : List Bytes := []
  /-- The error the body breaks off with. -/
  fault : Option String := none

/-- What `send` gives: an error of the transport, or an answer. -/
abbrev Reply := Except String Response

/-- The whole body. -/
def Response.body (r : Response) : List UInt8 := r.pieces.flatMap (·.data)

/-- `content_range_starts_at`. -/
def contentRangeStartsAt (value : String) (expectedStart : Nat) : Bool :=
  (((value.toList.dropPrefix? "bytes ".toList).bind (splitOnce ['-'])).bind
    fun parts => parseU64 (String.ofList parts.1)) = some expectedStart

/-- The last byte and the total of a Content-Range. -/
def parseContentRange (value : String) : Option (Nat × Nat) :=
  ((value.toList.dropPrefix? "bytes ".toList).bind (splitOnce ['/'])).bind fun parts =>
    (splitOnce ['-'] parts.1).bind fun range =>
      (parseU64 (String.ofList range.2)).bind fun last =>
        (parseU64 (String.ofList parts.2)).map fun total => (last, total)

/-- The filter on a parsed Content-Range. -/
def rangeAccepted (value : String) (start stop last total : Nat) : Except DownloadError Bool :=
  if contentRangeStartsAt value start ∧ last < total ∧ start ≤ last then
    match subU64 total 1 with
    | .error e => .error e
    | .ok final => .ok (last = min stop final)
  else .ok false

/-- The length and the total that a status and its Content-Range promise.
Only a 206 promises them; a 200 is taken at the start of the file. -/
def expectedRange (r : Response) (start stop : Nat) :
    Except DownloadError (Option Nat × Option Nat) :=
  if r.status = 206 then
    let value := r.contentRange.getD ""
    match parseContentRange value with
    | none => .error (.worker (.invalidFile "unexpected Content-Range"))
    | some (last, total) =>
      match rangeAccepted value start stop last total with
      | .error e => .error e
      | .ok false => .error (.worker (.invalidFile "unexpected Content-Range"))
      | .ok true =>
        match subU64 last start with
        | .error e => .error e
        | .ok gap =>
          match addU64 gap 1 with
          | .error e => .error e
          | .ok len => .ok (some len, some total)
  else if r.status = 200 ∧ start = 0 then .ok (none, none)
  else .error (.worker .rangeIgnored)

/-- `eq_ignore_ascii_case`. -/
def eqIgnoreAsciiCase (a b : String) : Bool := a.toList.map Char.toLower = b.toList.map Char.toLower

def checkEncoding (r : Response) : Except DownloadError Unit :=
  match r.contentEncoding with
  | none => .ok ()
  | some encoding =>
    if eqIgnoreAsciiCase encoding "identity" then .ok ()
    else .error (.worker (.invalidFile "origin returned encoded bytes"))

/-- The loop over the body, with what has been read so far. -/
def readBody (limit : Nat) (fault : Option String) (body : List UInt8) :
    List Bytes → Except DownloadError (List UInt8)
  | [] =>
    match fault with
    | none => .ok body
    | some message => .error (.http message)
  | piece :: pieces =>
    match addU64 body.length piece.data.length with
    | .error e => .error e
    | .ok len =>
      if limit < len then .error (.worker .rangeIgnored)
      else readBody limit fault (body ++ piece.data) pieces

/-- The checks of `download_chunk` on an answer to the range from `start`
to `stop`. -/
def acceptChunk (r : Response) (start stop : Nat) :
    Except DownloadError (List UInt8 × Nat) :=
  if r.status < 200 ∨ 300 ≤ r.status then .error (.worker (.originStatus r.status))
  else
    match expectedRange r start stop with
    | .error e => .error e
    | .ok (expectedLen, total) =>
      match checkEncoding r with
      | .error e => .error e
      | .ok () =>
        match subU64 stop start with
        | .error e => .error e
        | .ok gap =>
          match addU64 gap 1 with
          | .error e => .error e
          | .ok limit =>
            if r.contentLength.any (limit < ·) then .error (.worker .rangeIgnored)
            else
              match readBody limit r.fault [] r.pieces with
              | .error e => .error e
              | .ok body =>
                if expectedLen.any (· ≠ body.length) then
                  .error (.worker (.invalidFile "truncated download chunk"))
                else .ok (body, total.getD body.length)

def downloadChunk (serve : Nat → Nat → Reply) (start stop : Nat) :
    Except DownloadError (List UInt8 × Nat) :=
  if stop < start then .error (.worker (.invalidTask "invalid download range"))
  else
    match serve start stop with
    | .error message => .error (.http message)
    | .ok r => acceptChunk r start stop

/-! ## The stream -/

def downloadChunkBytes : Nat := 4 * 1024 * 1024

structure StreamState where
  offset : Nat
  snapshotSize : Option Nat := none
  deriving DecidableEq, Repr

/-- The last byte of the next range. -/
def StreamState.stop (st : StreamState) (chunkBytes : Nat) : Except DownloadError Nat :=
  match subU64 chunkBytes 1 with
  | .error e => .error e
  | .ok step => .ok (min (saturatingAdd st.offset step) (st.snapshotSize.getD u64Max - 1))

/-- One turn of `try_unfold`: the end of the stream, or a chunk and the
state after it. -/
def chunkedStep (serve : Nat → Nat → Reply) (chunkBytes : Nat) (st : StreamState) :
    Except DownloadError (Option (List UInt8 × StreamState)) :=
  if st.snapshotSize.any (· ≤ st.offset) then .ok none
  else
    match st.stop chunkBytes with
    | .error e => .error e
    | .ok stop =>
      match downloadChunk serve st.offset stop with
      | .error e => .error e
      | .ok (chunk, total) =>
        match addU64 st.offset chunk.length with
        | .error e => .error e
        | .ok next => .ok (some (chunk, ⟨next, some (st.snapshotSize.getD total)⟩))

inductive StreamEnd where
  | running
  | finished
  | failed (error : DownloadError)
  deriving DecidableEq, Repr

/-- The first `fuel` turns of the stream from `st`, of which the next
request is the `n`-th: the chunks it yields and how it stands. -/
def chunkedStream (serve : Nat → Nat → Nat → Reply) (chunkBytes : Nat) :
    Nat → Nat → StreamState → List (List UInt8) × StreamEnd
  | 0, _, _ => ([], .running)
  | fuel + 1, n, st =>
    match chunkedStep (serve n) chunkBytes st with
    | .error e => ([], .failed e)
    | .ok none => ([], .finished)
    | .ok (some (chunk, st')) =>
      let rest := chunkedStream serve chunkBytes fuel (n + 1) st'
      (chunk :: rest.1, rest.2)

end ForwardProxy.IdList
