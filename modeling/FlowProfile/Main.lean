import FlowProfile.Command.Execute

/-! The command line. It reads the files that the command names, and writes those that changed. -/

open FlowProfile

/-- The directory of a path. -/
def parentOf (path : String) : String :=
  match path.toList.reverse.dropWhile (· != '/') with
  | [] => "."
  | rest => String.ofList rest.reverse

def canMake (path : String) : IO Bool := do
  try
    let _ ← IO.FS.realPath (parentOf path ++ "/.")
    return !path.isEmpty
  catch _ => return false

def readIfThere (path : String) : IO (Option (String × Bytes)) := do
  try return some (path, (← IO.FS.readBinFile path).toList)
  catch _ => return none

def main (args : List String) : IO UInt32 := do
  let environment ← IO.getEnv "COMMPROF_OUTPUT"
  let paths := ((Command.parse? args).map (Command.paths environment)).getD []
  let contents := Table.ofList (← paths.filterMapM readIfThere)
  let makeable ← paths.filterM canMake
  let ending := Command.invoke ⟨contents, makeable.contains⟩ environment args
  for path in paths.eraseDups do
    match ending.files.contents.get? path with
    | some bytes =>
      if contents.get? path ≠ some bytes then IO.FS.writeBinFile path ⟨bytes.toArray⟩
    | none => pure ()
  IO.print ending.stdout
  if let some message := ending.message then IO.eprintln s!"Error: {message}"
  return ending.status.toUInt32
