import DocQuery.Run

/-!
# The command

Reads the files of an invocation, runs it, and writes what the run shows.
-/

namespace DocQuery

/-- How the command is called. -/
def usage : String :=
  "Compile analyzed query trees into document queries\n\n"
    ++ "Usage: docquery [OPTIONS] <compile|check> [FILE]\n\n"
    ++ "  -v, --verbose              more numbers in a summary\n"
    ++ "  -f, --format <FORMAT>      json, pretty or text\n"
    ++ "      --no-color             no colors in text output\n"
    ++ "  -d, --dialect <FILE>       dialect file to start from\n"
    ++ "      --shape <SHAPE>        wire or criteria\n"
    ++ "      --count-style <STYLE>  pipeline or exists\n"
    ++ "      --like-style <STYLE>   regex or literal\n"
    ++ "  -h, --help                 this text\n"

/-- The bytes of a stream up to its end, after those that have been read. -/
partial def readAll (stream : IO.FS.Stream) (read : ByteArray) : IO ByteArray := do
  let chunk ← stream.read 65536
  if chunk.isEmpty then return read else readAll stream (read ++ chunk)

/-- The text of a file, or of standard input if no name is given. -/
def readText (file : Option String) : IO FileText := do
  try
    let bytes ← match file with
      | some name => IO.FS.readBinFile name
      | none => readAll (← IO.getStdin) .empty
    return FileText.ofBytes bytes
  catch
    | .noFileOrDirectory .. => return .error .notFound
    | .inappropriateType none .. => return .error .isDirectory
    | .inappropriateType (some _) .. => return .error .notDirectory
    | e => return .error (.system (toString e))

def runCommand (words : List String) : IO UInt32 := do
  match Invocation.ofWords words with
  | .error refusal =>
    if refusal = .help then IO.print usage else IO.eprint usage
    return refusal.exit.toUInt32
  | .ok invocation =>
    let dialectFile ← match invocation.settings.dialectFile with
      | some name => readText (some name)
      | none => pure (.error .notFound)
    let input ← readText invocation.file
    let result := invocation.run (← (← IO.getStdout).isTty) dialectFile input
    IO.print result.stdout
    IO.eprint result.stderr
    return result.exit.toUInt32

end DocQuery

def main (words : List String) : IO UInt32 := DocQuery.runCommand words
