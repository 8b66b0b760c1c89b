/-!
Command-line arguments. An option has a long name, perhaps a short one, and takes a
value or none. Options and other arguments may be mixed, until two hyphens end the options.
-/

namespace FlowProfile.Command

structure Flag where
  long : String
  short : Option Char
  takesValue : Bool
  /-- An option that may come more than once. -/
  repeats : Bool
deriving DecidableEq, Repr

/-- The options in their order, each with its value, and the arguments that are none. -/
structure Parsed where
  options : List (String × String)
  rest : List String
deriving DecidableEq, Repr

namespace Parsed

def empty : Parsed := ⟨[], []⟩

def add (p : Parsed) (name value : String) : Parsed :=
  { p with options := p.options ++ [(name, value)] }

def values (p : Parsed) (name : String) : List String :=
  (p.options.filter (·.1 == name)).map (·.2)

def value? (p : Parsed) (name : String) : Option String := (p.values name).head?

def has (p : Parsed) (name : String) : Bool := !(p.values name).isEmpty

end Parsed

/-- A lone hyphen is no option. -/
def isOption (arg : List Char) : Bool := arg.head? == some '-' && arg.length != 1

/-- What an argument says by itself: it is complete, or the next one is its value. -/
inductive Reading where
  | complete (p : Parsed)
  | awaits (p : Parsed) (name : String)

/-- An option of the form `--name` or `--name=value`. -/
def readLong? (flags : List Flag) (p : Parsed) (body : List Char) : Option Reading := do
  let name := String.ofList (body.takeWhile (· != '='))
  let flag ← flags.find? (·.long == name)
  match flag.takesValue, body.dropWhile (· != '=') with
  | true, [] => some (.awaits p name)
  | true, _ :: value => some (.complete (p.add name (String.ofList value)))
  | false, [] => some (.complete (p.add name ""))
  | false, _ => none

/-- Short options after one hyphen. The first that takes a value takes all that follows it. -/
def readShort? (flags : List Flag) (p : Parsed) : List Char → Option Reading
  | [] => some (.complete p)
  | c :: cs => do
    let flag ← flags.find? (·.short == some c)
    if flag.takesValue then
      match cs with
      | [] => some (.awaits p flag.long)
      | '=' :: value => some (.complete (p.add flag.long (String.ofList value)))
      | value => some (.complete (p.add flag.long (String.ofList value)))
    else readShort? flags (p.add flag.long "") cs

def readOption? (flags : List Flag) (p : Parsed) : List Char → Option Reading
  | '-' :: '-' :: body => readLong? flags p body
  | '-' :: body => readShort? flags p body
  | _ => none

def readArgs? (flags : List Flag) (p : Parsed) : List String → Option Parsed
  | [] => some p
  | arg :: args =>
    if arg = "--" then some { p with rest := p.rest ++ args }
    else if isOption arg.toList then
      match readOption? flags p arg.toList, args with
      | some (.complete p), args => readArgs? flags p args
      | some (.awaits p name), value :: args =>
        if isOption value.toList then none else readArgs? flags (p.add name value) args
      | _, _ => none
    else readArgs? flags { p with rest := p.rest ++ [arg] } args

/-- An option that does not repeat comes once at most. -/
def parseArgs? (flags : List Flag) (args : List String) : Option Parsed :=
  (readArgs? flags .empty args).filter fun p =>
    flags.all fun flag => flag.repeats || (p.values flag.long).length ≤ 1

/-- The pieces between commas, of which there is one at least. -/
def commaSeparated (s : String) : List String :=
  (s.toList.splitOnP (· == ',')).map String.ofList

end FlowProfile.Command
