import StrongLL.Json.CommandLine

/-!
# StrongLL.Main

The command that checks JSON files.
-/

open StrongLL

def readFile (path : String) : IO Json.FileContent := do
  try
    match String.fromUTF8? (← IO.FS.readBinFile path) with
    | some text => return .ok text
    | none => return Json.notUnicode
  catch
    | .noFileOrDirectory .. => return Json.noSuchFile
    | e => return .error (toString e)

def main (args : List String) : IO UInt32 := do
  let report ← match Json.Options.read? args with
    | none => pure Json.Report.usage
    | some options => do
      let files ← options.files.mapM fun path => do return (path, ← readFile path)
      pure (Json.Report.ofFiles options files)
  (← IO.getStdout).putStr (Json.Report.linesText report.output)
  (← IO.getStderr).putStr (Json.Report.linesText report.errors)
  return report.status.toUInt32
