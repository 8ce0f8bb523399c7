import XamlDoc.Command.Run

/-!
# The program

Runs the command on the disk: answers what it wants to know about files and prints its outcome.
-/

namespace XamlDoc.Command

partial def readAll (stream : IO.FS.Stream) (bytes : ByteArray) : IO ByteArray := do
  let more ← stream.read 65536
  if more.isEmpty then return bytes else readAll stream (bytes ++ more)

def workingNames : IO (List String) := do
  return (← IO.currentDir).components.filter (· ≠ "")

def diskPath : FileName → IO String
  | .given path => return path
  | .above levels name => do
    let names ← workingNames
    return String.join ((names.take (names.length - levels) ++ [name]).map ("/" ++ ·))

def orElse {α : Type} (other : α) (action : IO α) : IO α := action.catchExceptions fun _ => return other

def perform {α : Type} : Access α → IO α
  | .done a => return a
  | .askLevels next => do perform (next (← workingNames).length)
  | .isThere file next => do
    let path ← diskPath file
    perform (next (path ≠ "" && (← ((← IO.currentDir) / path).pathExists)))
  | .read file next => do
    let path ← diskPath file
    let bytes? ← orElse none (do return some (← IO.FS.readBinFile path).toList)
    perform (next bytes?)
  | .readInput next => do perform (next (← readAll (← IO.getStdin) .empty).toList)
  | .create path next => do
    let made ← orElse false (do
      IO.FS.writeFile path ""
      return true)
    perform (next made)
  | .write path text next => do perform (next (← IO.FS.writeFile path text))

end XamlDoc.Command

open XamlDoc.Command in
def main (arguments : List String) : IO UInt32 := do
  let outcome ← perform (run arguments)
  match outcome with
  | .usage => IO.eprintln usage
  | .failed f => IO.eprintln ("Error: " ++ f.message)
  | .printed text => IO.print text
  | .stored notice => IO.eprintln notice
  return outcome.code.toUInt32
