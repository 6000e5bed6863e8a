import ClassOutline.Command.Run
/-
  ClassOutline.Main — the program: reads the files its command line names, and shows the
  report.
-/

namespace ClassOutline

open ClassOutline.Command

/-- The system's number for reading a directory as a file. -/
def directoryCode : UInt32 := 21

/-- What the file system holds under a path. -/
def loadFile (path : Text) : IO (Option Content) := do
  try
    let bytes ← IO.FS.readBinFile (String.ofList path)
    return some (.bytes bytes.data.toList)
  catch
    | .noFileOrDirectory .. => return none
    | .inappropriateType _ code _ => return if code == directoryCode then some .directory else none
    | e => throw e

/-- The files a command line names, each under its path. -/
def loadFiles (paths : List Text) : IO (List (Text × Content)) := do
  let found ← paths.mapM fun p => do return (← loadFile p).map fun c => (p, c)
  return found.filterMap id

end ClassOutline

open ClassOutline ClassOutline.Command in
def main (arguments : List String) : IO UInt32 := do
  let texts := arguments.map String.toList
  let paths := match parse texts with
    | .ok a => a.scope ++ [a.file]
    | .error _ => []
  let r := report (← loadFiles paths) texts
  IO.print (String.ofList r.output)
  if !r.complaint.isEmpty then IO.eprintln (String.ofList r.complaint)
  return r.exit.toUInt32
