import Stave.Decimal.Reader

/-!
# The command line

A command line names one of four actions and the file that it is done to.  Flags stand before or
after the name of the action; some of them take a value, which follows as the next argument or behind
an equals sign.
-/

namespace Stave.Program

/-- What the program is asked to do. -/
inductive Action
  /-- Show what each line compiles to. -/
  | compile (file : String) (json : Bool)
  /-- Show the flat text of a song document. -/
  | expand (file : String)
  /-- Write a sound file. -/
  | render (file output : String) (bpm : Option Float)
  /-- Play on the sound device. -/
  | play (file : String)

/-- A command line that has been understood. -/
structure Invocation where
  /-- The configuration file that is used instead of the usual one. -/
  config : Option String
  action : Action

/-- Why nothing is done. -/
inductive Refusal
  /-- The command line is wrong. -/
  | usage
  /-- It asks for help. -/
  | help
  /-- It asks for the version. -/
  | version
deriving DecidableEq, Repr

/-! ## Flags -/

/-- A flag. -/
structure Flag where
  name : String
  /-- The short form. -/
  letter : Option Char
  /-- Whether a value follows. -/
  valued : Bool

/-- The flags that are known everywhere. -/
def commonFlags : List Flag :=
  [⟨"verbose", some 'v', false⟩, ⟨"config", none, true⟩, ⟨"help", some 'h', false⟩]

/-- The flags that are known before the name of the action. -/
def leadingFlags : List Flag := ⟨"version", some 'V', false⟩ :: commonFlags

/-- The flags that are known after the name of an action; nothing for a name that is no action. -/
def actionFlags? : String → Option (List Flag)
  | "compile" => some (⟨"json", none, false⟩ :: commonFlags)
  | "expand" => some commonFlags
  | "render" => some (⟨"output", some 'o', true⟩ :: ⟨"bpm", none, true⟩ :: commonFlags)
  | "play" => some (⟨"bpm", none, true⟩ :: ⟨"no-loop", none, false⟩ :: commonFlags)
  | _ => none

/-- One thing that an argument says. -/
inductive Item
  | switch (name : String)
  | value (name text : String)
  | word (text : String)
  /-- An argument that says nothing that is known. -/
  | unknown

/-- The value that follows a flag as the next argument.  What looks like a flag is none. -/
def nextValue? : List String → Option String
  | [] => none
  | text :: _ =>
    match text.toList with
    | '-' :: _ :: _ => none
    | _ => some text

/-- What a flag with a value says when the value is the next argument, and that this argument is
used up. -/
def takeNext (name : String) (rest : List String) : List Item × Bool :=
  match nextValue? rest with
  | some text => ([.value name text], true)
  | none => ([.unknown], false)

/-- What a flag in its long form says. -/
def readLong (flags : List Flag) (text : List Char) (rest : List String) : List Item × Bool :=
  let name := String.ofList (text.takeWhile (· != '='))
  match flags.find? (fun f => f.name == name), text.dropWhile (· != '=') with
  | none, _ => ([.unknown], false)
  | some flag, [] => if flag.valued then takeNext name rest else ([.switch name], false)
  | some flag, _ :: value =>
    (if flag.valued then [.value name (String.ofList value)] else [.unknown], false)

/-- What a row of short forms says. -/
def readShort (flags : List Flag) (rest : List String) : List Char → List Item × Bool
  | [] => ([], false)
  | letter :: more =>
    match flags.find? (fun f => f.letter == some letter) with
    | none => ([.unknown], false)
    | some flag =>
      if flag.valued then
        match more with
        | [] => takeNext flag.name rest
        | '=' :: value => ([.value flag.name (String.ofList value)], false)
        | value => ([.value flag.name (String.ofList value)], false)
      else
        let (items, used) := readShort flags rest more
        (.switch flag.name :: items, used)

/-- What the arguments before the name of the action say, and the arguments from that name on. -/
def readLeading (flags : List Flag) : List String → List Item × List String
  | [] => ([], [])
  | argument :: rest =>
    let continue? (read : List Item × Bool) : List Item × List String :=
      match read, rest with
      | (items, true), _ :: more =>
        let (others, left) := readLeading flags more
        (items ++ others, left)
      | (items, _), rest =>
        let (others, left) := readLeading flags rest
        (items ++ others, left)
    match argument.toList with
    | ['-', '-'] => ([.unknown], [])
    | '-' :: '-' :: text => continue? (readLong flags text rest)
    | '-' :: letter :: more => continue? (readShort flags rest (letter :: more))
    | _ => ([], argument :: rest)

/-- What the arguments after the name of the action say.  Behind two dashes there are only words. -/
def readTrailing (flags : List Flag) : List String → List Item
  | [] => []
  | argument :: rest =>
    let continue? (read : List Item × Bool) : List Item :=
      match read, rest with
      | (items, true), _ :: more => items ++ readTrailing flags more
      | (items, _), rest => items ++ readTrailing flags rest
    match argument.toList with
    | ['-', '-'] => rest.map .word
    | '-' :: '-' :: text => continue? (readLong flags text rest)
    | '-' :: letter :: more => continue? (readShort flags rest (letter :: more))
    | _ => .word argument :: readTrailing flags rest

/-! ## What has been given -/

/-- What some arguments give. -/
structure Given where
  switches : List String
  values : List (String × String)
  words : List String

namespace Given

/-- Nothing. -/
def empty : Given := ⟨[], [], []⟩

/-- Whether a text can be the value of a flag: a tempo is a number, and a path is not empty. -/
def accepts (name text : String) : Bool :=
  if name = "bpm" then (Decimal.readFloat? text.toList).isSome else !text.isEmpty

/-- Adds one item.  Only the flag for more output may be given more than once. -/
def add (g : Given) : Item → Except Refusal Given
  | .unknown => throw .usage
  | .switch "help" => throw .help
  | .switch "version" => throw .version
  | .switch "verbose" => pure g
  | .switch name =>
    if g.switches.contains name then throw .usage else pure { g with switches := name :: g.switches }
  | .value name text =>
    if (g.values.lookup name).isSome || !accepts name text then throw .usage
    else pure { g with values := (name, text) :: g.values }
  | .word text =>
    if text.isEmpty || !g.words.isEmpty then throw .usage else pure { g with words := [text] }

/-- What some items give.  The first of them that is refused decides. -/
def ofItems (items : List Item) : Except Refusal Given := items.foldlM add empty

/-- The value of a flag. -/
def value? (g : Given) (name : String) : Option String := g.values.lookup name

/-- The tempo. -/
def bpm? (g : Given) : Option Float :=
  (g.value? "bpm").bind fun text => Decimal.readFloat? text.toList

end Given

/-- The action of a name, given what it needs. -/
def chooseAction (name : String) (g : Given) : Except Refusal Action :=
  match name, g.words, g.value? "output" with
  | "compile", [file], _ => pure (.compile file (g.switches.contains "json"))
  | "expand", [file], _ => pure (.expand file)
  | "render", [file], some output => pure (.render file output g.bpm?)
  | "play", [file], _ => pure (.play file)
  | _, _, _ => throw .usage

/-- Refuses a request for help, unless the help is about something that does not exist. -/
def helpAbout : List String → Refusal
  | [] => .help
  | [name] => if name = "help" || (actionFlags? name).isSome then .help else .usage
  | _ => .usage

/-- Understands a command line.  A configuration file that is named after the action counts more than
one named before it. -/
def Invocation.ofArguments (arguments : List String) : Except Refusal Invocation := do
  let (items, rest) := readLeading leadingFlags arguments
  let leading ← Given.ofItems items
  match rest with
  | [] => throw .usage
  | name :: rest =>
    if name = "help" then throw (helpAbout rest)
    match actionFlags? name with
    | none => throw .usage
    | some flags =>
      let trailing ← Given.ofItems (readTrailing flags rest)
      let action ← chooseAction name trailing
      return { config := (trailing.value? "config").or (leading.value? "config"), action }

end Stave.Program
