import JvmClass.CommandLine

/-! The command line tool as a program: finds the files, prints the report and exits. -/

namespace JvmClass

/-- The paths of all files below a directory, which are left without the part up to it. -/
partial def filesBelow (directory inside : String) : IO (List String) := do
  let entries ← (← IO.FS.realPath directory).readDir
  let found ← entries.toList.mapM fun entry => do
    let path := directory ++ "/" ++ entry.fileName
    let inside := inside ++ entry.fileName
    if ← entry.path.isDir then filesBelow path (inside ++ "/") else return [inside]
  return found.flatten

def targetAt (path : String) : IO Target := do
  let here ← (some <$> IO.FS.realPath path).catchExceptions fun _ => return none
  match here with
  | none => return .directory []
  | some here =>
    if ← here.isDir then
      let files := (← filesBelow path "").filter fun file => (Target.className? file).isSome
      return .directory (← files.mapM fun file => do
        let source : String := path ++ "/" ++ file
        return (file, (← IO.FS.readBinFile source).toList))
    else
      let name := (Target.components path.toList).getLastD []
      return .file (String.ofList name) (← IO.FS.readBinFile path).toList

end JvmClass

open JvmClass in
def main (args : List String) : IO UInt32 := do
  let report ← match Arguments.parse? args with
    | none => pure Report.badArguments
    | some a => Report.ofTarget a <$> targetAt a.path
  IO.print report.text
  return report.status.toUInt32
