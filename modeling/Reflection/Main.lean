import Reflection.CommandLine

namespace Reflection

def FileError.ofSystem : IO.Error → FileError
  | .noFileOrDirectory _ _ _ => .notFound
  | error => .failed (toString error)

def answer {α : Type} (action : IO α) : IO (Except FileError α) := do
  try return .ok (← action)
  catch error => return .error (.ofSystem error)

def printNotice (notice : Notice) : IO Unit :=
  IO.eprintln <| match notice.severity with
    | .error => notice.text
    | .warning => "[WARN] " ++ notice.text
    | .info => "[INFO] " ++ notice.text

def systemTime (path : Path) : IO Timestamp := do
  let time := (← (System.mkFilePath [path.text]).metadata).modified
  return time.sec * 1000000000 + time.nsec.toNat

def realPath (path : Path) : IO String := do
  return (← IO.FS.realPath path.text).toString

def sameSystemFile (first second : Path) : IO (Option Bool) := do
  try
    let _ ← systemTime first
    let _ ← systemTime second
    return some ((← realPath first) = (← realPath second))
  catch _ => return none

def Program.execute {α : Type} : Program α → IO α
  | done value => return value
  | modified path next => do (next (← answer (systemTime path))).execute
  | read path next => do (next (← answer (IO.FS.readBinFile path.text))).execute
  | write path text next => do (next (← answer (IO.FS.writeFile path.text text))).execute
  | sameFile first second next => do (next (← sameSystemFile first second)).execute
  | notify notice next => do
    printNotice notice
    next.execute

-- Milliseconds, written as seconds.
def seconds (milliseconds : Nat) : String :=
  let digits := Nat.toDigits 10 (milliseconds % 1000)
  toString (milliseconds / 1000) ++ "." ++
    String.ofList (List.replicate (3 - digits.length) '0' ++ digits)

end Reflection

open Reflection in
def main (arguments : List String) : IO UInt32 := do
  let started ← IO.monoMsNow
  let finish ← (CommandLine.run arguments).execute
  let elapsed := seconds ((← IO.monoMsNow) - started)
  IO.print finish.output
  match finish.elapsed with
  | .nowhere => pure ()
  | .afterOutput => IO.println elapsed
  | .amongNotices => IO.eprintln elapsed
  return finish.status.toUInt32
