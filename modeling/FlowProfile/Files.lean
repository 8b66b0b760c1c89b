import FlowProfile.Graph.Json
import FlowProfile.Graph.Validate
import FlowProfile.Json.Reader
import FlowProfile.Price.Analyzer
import FlowProfile.Text.Utf8

/-! Programs, profiles and prices in files. A file that cannot be used is an error of its own. -/

namespace FlowProfile

structure Files where
  contents : Table Bytes
  /-- Paths at which a file may be made. -/
  canCreate : String → Bool

namespace Files

/-- One directory without any others in it. -/
def directory (contents : Table Bytes) : Files where
  contents := contents
  canCreate path := !path.isEmpty && !path.toList.contains '/' && !path.toList.contains '\x00'

def read (fs : Files) (path : String) : Outcome Bytes :=
  .ofOption .inaccessible (fs.contents.get? path)

def write (fs : Files) (path : String) (bytes : Bytes) : Outcome Files :=
  if (fs.contents.get? path).isSome || fs.canCreate path then
    .ok { fs with contents := fs.contents.set path bytes }
  else .fail .inaccessible

def append (fs : Files) (path : String) (bytes : Bytes) : Outcome Files :=
  fs.write path ((fs.contents.get? path).getD [] ++ bytes)

/-- A file of text. Bytes that are no text cannot be read. -/
def readText (fs : Files) (path : String) : Outcome String := do
  match Utf8.decode (← fs.read path) with
  | .ok cs => return String.ofList cs
  | .error _ => .fail .inaccessible

/-! ### Programs -/

/-- A document that is a program, although perhaps not a valid one. -/
def parseProgram (bytes : Bytes) : Outcome Program :=
  .ofOption .badDocument ((Json.readBytes bytes).bind Program.ofJson?)

def program (fs : Files) (path : String) : Outcome Program := do
  let bytes ← (fs.read path).within (.openModule path)
  let p ← (parseProgram bytes).within (.parseModule path)
  p.validate
  return p

/-! ### Profiles -/

def records (fs : Files) (path : String) : Outcome (List Record) := do
  let bytes ← (fs.read path).within (.readProfile path)
  (decodeRecords bytes).within (.decodeProfile path)

def appendRecords (fs : Files) (path : String) (records : List Record) : Outcome Files := do
  let bytes ← encodeRecords records
  (fs.append path bytes).within (.openProfile path)

def profile (fs : Files) (path : String) : Outcome Profile := do
  let records ← fs.records path
  (Profile.ofRecords records).within (.invalidProfile path)

/-- Merges the profile of a file into the one that is kept. -/
def mergeProfile (fs : Files) (path : String) : EStateM Failure Profile Unit :=
  match fs.profile path with
  | .ok p => (Profile.mergeInto p).adaptExcept (·.within (.mergeProfile path))
  | .error failure => throw failure

/-- The profiles of all files, of which there has to be one, merged into the first. -/
def profiles (fs : Files) : List String → Outcome Profile
  | [] => .fail .noProfiles
  | path :: paths => do .ofResult ((paths.forM fs.mergeProfile).run (← fs.profile path))

/-! ### Prices -/

def source (fs : Files) (kind : Price.Kind) (path : String) : Outcome Price.Source := do
  let text ← (fs.readText path).within (.readSource kind.name path)
  (Price.Source.parse kind text).within (.invalidSource kind.name path)

def ignored (fs : Files) : Option String → Outcome (List String)
  | none => .ok []
  | some path => do return Text.words (← (fs.readText path).within (.openIgnore path))

/-- A file for each kind, in order. Files that are left over do not matter. -/
def analyzer (fs : Files) (kinds : List Price.Kind) (paths : List String) (ignore : Option String)
    (verbose : Bool) : Outcome Price.Analyzer := do
  Outcome.require (kinds.length ≤ paths.length) (.tooFewFiles kinds.length paths.length)
  let ignore ← fs.ignored ignore
  let sources ← (kinds.zip paths).mapM fun (kind, path) => fs.source kind path
  return ⟨sources, ignore, verbose⟩

end Files

end FlowProfile
