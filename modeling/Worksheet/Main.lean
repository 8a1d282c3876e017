import Std.Time.Format
import Worksheet.CommandLine

/-! The program: it reads the files that the arguments name and writes what the command line answers. -/

namespace Worksheet.Program

/-- Bytes as a text. -/
def ofBytes (b : ByteArray) : Text := b.toList.map fun x => Char.ofNat x.toNat

/-- A text as bytes. -/
def toBytes (t : Text) : ByteArray := ByteArray.mk (t.map fun c => UInt8.ofNat c.toNat).toArray

/-- The contents of a file, if it can be read. -/
def read? (path : Text) : IO (Option Text) := do
  match String.fromUTF8? (toBytes path) with
  | none => return none
  | some path =>
    try
      return some (ofBytes (← IO.FS.readBinFile path))
    catch _ => return none

/-- The files that a request needs, with their names. -/
def readAll : List Text → IO (List (Text × Text))
  | [] => return []
  | p :: ps => do
    let rest ← readAll ps
    match ← read? p with
    | some t => return (p, t) :: rest
    | none => return rest

/-- The standard input up to its end. -/
partial def readInput (h : IO.FS.Stream) (read : ByteArray) : IO ByteArray := do
  let b ← h.read 65536
  if b.isEmpty then return read else readInput h (read ++ b)

/-- The present moment, and a random number. -/
def surroundings : IO Surroundings := do
  let t ← Std.Time.PlainDateTime.now
  let date : DateTime :=
    { year := t.date.year, month := t.date.month.val, day := t.date.day.val
      hour := t.time.hour.val, minute := t.time.minute.val, second := t.time.second.val }
  let draw := Binary.ofNat (← IO.rand 0 999999999) / 1e9
  return { now := Calendar.toNumber date, draw }

end Worksheet.Program

open Worksheet in
def main (arguments : List String) : IO UInt32 := do
  let arguments := arguments.map fun a => Program.ofBytes a.toUTF8
  let (input, files) ← match CommandLine.parse arguments with
    | .ok r => do
      let input ← if r.document = ['-'] then Program.readInput (← IO.getStdin) ByteArray.empty else pure ByteArray.empty
      pure (Program.ofBytes input, ← Program.readAll r.paths)
    | .error _ => pure ([], [])
  let outcome :=
    CommandLine.run arguments input (fun p => (files.find? (·.1 == p)).map (·.2)) (← Program.surroundings)
  (← IO.getStdout).write (Program.toBytes outcome.out)
  (← IO.getStderr).write (Program.toBytes outcome.err)
  return UInt32.ofNat outcome.exit
