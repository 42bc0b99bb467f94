/-
ForwardProxy.IdList.Parser — the id-list file format
(`worker/parser.rs`) and what a file means.

A file is a log of lines `+member` and `-member`. The decoder buffers the
bytes after the last newline, so that only complete lines are reported,
each with the offset just after its newline. `completeLines` is the
`while let Some(newline)` loop of `push` on the buffered bytes.

`changes` and `replay` are not in the source. They say what a byte string
means: its complete, well-formed, non-blank lines in order, and the set
in which the last line of each member wins.
-/
import Mathlib.Algebra.GroupWithZero.Nat
import Mathlib.Data.Finset.Basic
import ForwardProxy.IdList.Schema

namespace ForwardProxy.IdList

structure FileChange where
  add : Bool
  member : String
  deriving DecidableEq, Repr

structure DecodedLine where
  change : Option FileChange
  endOffset : Nat
  deriving DecidableEq, Repr

/-! ## Lines -/

/-- `\n` and `\r`. -/
def newline : UInt8 := 10
def carriageReturn : UInt8 := 13

/-- The newline-terminated lines of a buffer, without their newlines, and
the bytes after the last newline. -/
def completeLines : List UInt8 → List (List UInt8) × List UInt8
  | [] => ([], [])
  | b :: bs =>
    if b = newline then ([] :: (completeLines bs).1, (completeLines bs).2)
    else
      match (completeLines bs).1 with
      | [] => ([], b :: (completeLines bs).2)
      | line :: lines => ((b :: line) :: lines, (completeLines bs).2)

/-- A byte as `{:02x}` prints it. -/
def hexByte (b : UInt8) : String :=
  String.ofList [Nat.digitChar (b.toNat / 16), Nat.digitChar (b.toNat % 16)]

/-- `parse_change_line`. -/
def parseChangeLine : List UInt8 → Except WorkerError FileChange
  | [] => .error (.invalidFile "empty line")
  | b :: member =>
    if b = '+'.toUInt8 ∨ b = '-'.toUInt8 then
      if member.isEmpty then .error (.invalidFile "line has an empty member")
      else
        match String.fromUTF8? ⟨member.toArray⟩ with
        | some m => .ok ⟨b = '+'.toUInt8, m⟩
        | none => .error (.invalidFile "member is not UTF-8")
    else .error (.invalidFile ("line has invalid prefix 0x" ++ hexByte b))

/-- A trailing `\r` is not part of the line. -/
def stripCr (line : List UInt8) : List UInt8 :=
  if line.getLast? = some carriageReturn then line.dropLast else line

/-- The change of one complete line; a blank line has none. -/
def decodeChange (line : List UInt8) : Except WorkerError (Option FileChange) :=
  if (stripCr line).isEmpty then .ok none else (parseChangeLine (stripCr line)).map some

/-- The lines of one `push`, the first of which starts at `offset`. -/
def decodeLines (offset : Nat) : List (List UInt8) → Except WorkerError (List DecodedLine)
  | [] => .ok []
  | line :: lines =>
    match decodeChange line with
    | .error e => .error e
    | .ok change =>
      match decodeLines (offset + line.length + 1) lines with
      | .error e => .error e
      | .ok decoded => .ok (⟨change, offset + line.length + 1⟩ :: decoded)

structure CompleteLineDecoder where
  pending : List UInt8
  nextOffset : Nat
  deriving DecidableEq, Repr

namespace CompleteLineDecoder

def new (start : Nat) : CompleteLineDecoder := ⟨[], start⟩

/-- The bytes the complete lines of a buffer take. -/
def consumed (lines : List (List UInt8)) : Nat := (lines.map fun line => line.length + 1).sum

def push (d : CompleteLineDecoder) (chunk : List UInt8) :
    Except WorkerError (List DecodedLine × CompleteLineDecoder) :=
  let split := completeLines (d.pending ++ chunk)
  match decodeLines d.nextOffset split.1 with
  | .error e => .error e
  | .ok decoded => .ok (decoded, ⟨split.2, d.nextOffset + consumed split.1⟩)

def hasPartialLine (d : CompleteLineDecoder) : Bool := !d.pending.isEmpty

end CompleteLineDecoder

/-- `partition_for`: `digest` is the first eight bytes of SHA-256 as a
big-endian number. -/
def partitionFor (digest : String → Nat) (member : String) (partitions : Nat) : Nat :=
  digest member % max partitions 1

/-! ## What a file means -/

/-- The change a line makes, if it is well formed and not blank. -/
def lineChange (line : List UInt8) : Option FileChange :=
  match decodeChange line with
  | .ok change => change
  | .error _ => none

/-- The changes of the complete lines of a byte string, in order. -/
def changes (bytes : List UInt8) : List FileChange :=
  (completeLines bytes).1.filterMap lineChange

/-- Apply one change to a set of members. -/
def FileChange.apply (s : Finset String) (c : FileChange) : Finset String :=
  if c.add then insert c.member s else s.erase c.member

/-- The set a sequence of changes leaves. -/
def replay (cs : List FileChange) : Finset String := cs.foldl FileChange.apply ∅

/-- The sign of the last line about `m`: `true` for `+m`, `false` for
`-m`, `none` if there is no line about `m`. -/
def lastSign (m : String) (cs : List FileChange) : Option Bool :=
  ((cs.filter (·.member = m)).getLast?).map (·.add)

end ForwardProxy.IdList
