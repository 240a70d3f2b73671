import FeatureNet.CommandLine

namespace FeatureNet

namespace CommandLine

/-- Copies a named file onto the disk of the run, with the folders on the way to it. Where the file or a
folder is missing there is nothing to copy but the folders; what cannot be read for another reason is held
to be a folder. -/
def lookAt (disk : Disk) : Option Location → IO Disk
  | none => return disk
  | some l => do
    try
      let text ← IO.FS.readFile l.text
      return ((withFolders l.folder).write l text).2
    catch
      | .noFileOrDirectory .. =>
        try
          let _ ← IO.FS.realPath (if l.folder.text = "" then "." else l.folder.text)
          return withFolders l.folder
        catch _ => return disk
      | .inappropriateType _ 20 _ => return disk
      | _ => return withFolders l
where
  withFolders (l : Location) : Disk := (disk.makeFolders l).toOption.getD disk

/-- Writes a file whose text has changed, through its temporary file. -/
def keep (before after : Disk) (l : Location) : IO Unit := do
  match before.read l, after.read l with
  | .ok old, .ok text => if old ≠ text then replace text
  | .error _, .ok text => replace text
  | _, .error _ => return
where
  replace (text : String) : IO Unit := do
    IO.FS.writeFile l.temporary.text text
    IO.FS.rename l.temporary.text l.text

def named (name : String) : IO (Option Location) := do
  return (← IO.getEnv name).map Location.ofText

end CommandLine

end FeatureNet

open FeatureNet CommandLine

/-- Runs on the files that four environment variables name: NETWORK_PATH and REQUEST_PATH have to be set,
CONFIG_PATH and BLOCKED_PATH may be. -/
def main : IO UInt32 := do
  let inputs : Inputs := {
    config := ← named "CONFIG_PATH"
    network := ← named "NETWORK_PATH"
    request := ← named "REQUEST_PATH"
    blocked := ← named "BLOCKED_PATH" }
  let start := Disk.runningIn (.ofText (← IO.currentDir).toString)
  let disk ← [inputs.config, inputs.network, inputs.request, inputs.blocked].foldlM lookAt start
  let (result, after) := CommandLine.run inputs disk
  inputs.blocked.forM (keep disk after)
  match result with
  | .ok text =>
    IO.print text
    return 0
  | .error failure =>
    IO.eprintln failure.message
    return 1
