import Stave.Configuration
import Stave.Playback.Rendering
import Stave.Program.Arguments
import Stave.Program.Host
import Stave.Program.Listing
import Stave.Song.Arrangement

/-!
# The program

The program reads and writes files through a host, and says what is to be printed and with which code
it ends.
-/

namespace Stave.Program

/-- How the program ends. -/
structure Outcome where
  code : Nat
  output : String
  errors : String
deriving DecidableEq, Repr

namespace Outcome

/-- The end of a program that has done its work. -/
def success (output errors : String) : Outcome := ⟨0, output, errors⟩

/-- The end of a program that could not do its work, after it has said something else. -/
def failure (said message : String) : Outcome := ⟨1, "", said ++ "staffline: " ++ message ++ "\n"⟩

/-- The version of the program. -/
def version : String := "staffline 0.1.0\n"

/-- The end of a program that had nothing to do. -/
def refused : Refusal → Outcome
  | .usage => ⟨2, "", ""⟩
  | .help => success "" ""
  | .version => success version ""

end Outcome

variable {m : Type → Type} [Monad m]

/-- A step of the program, which may end it. -/
abbrev Step (m : Type → Type) := ExceptT Outcome m

/-- Ends the program where the host has failed. -/
def orFail {α : Type} (attempt : m (Except String α)) (describe : String → Outcome) : Step m α :=
  ExceptT.mk (attempt >>= fun result => pure (result.mapError describe))

/-- Reads a text. -/
def readText (host : Host m) (path : String) : Step m (List Char) := do
  let text ← orFail (host.readText path) fun reason =>
    .failure "" ("cannot read " ++ path ++ ": " ++ reason)
  return text.toList

/-- Reads the configuration that the command line names. -/
def namedConfiguration (host : Host m) (path : String) : Step m Configuration := do
  let text ← orFail (host.readText path) fun reason =>
    .failure "" ("failed to read " ++ path ++ ": " ++ reason)
  match Configuration.ofText text.toList with
  | .ok c => return c
  | .error _ => throw (.failure "" ("failed to parse " ++ path ++ ": malformed configuration"))

/-- Reads the user's own configuration.  One that cannot be used counts as none. -/
def userConfiguration (host : Host m) : Step m Configuration :=
  match host.userConfiguration with
  | none => pure Configuration.default
  | some path => do
    match ← host.readText path with
    | .error _ => return Configuration.default
    | .ok text => return (Configuration.ofText text.toList).toOption.getD Configuration.default

/-- Reads the files that some declarations point to. -/
def readDeclared (host : Host m) (declared : List Declaration) :
    Step m (List (String × Except String (List UInt8))) :=
  declared.filterMapM fun d =>
    match Address.ofUrl d.url with
    | .file path => do return some (path, ← host.readBytes path)
    | .download => pure none
    | .other => pure none

/-- A source that knows the files that have been read. -/
def sourceOf (files : List (String × Except String (List UInt8))) : Source :=
  Source.offline fun path => (files.lookup path).getD (.error "")

/-- Compiles a file. -/
def compileFile (host : Host m) (path : String) : Step m (Song.Compiled × Registry) := do
  return Song.Compiled.ofText (← readText host path) Registry.empty

/-- The tempo of a rendering: that of the command line, of the document or of the configuration. -/
def tempo (asked : Option Float) (compiled : Song.Compiled) (c : Configuration) : Float :=
  (asked.or compiled.overrides.bpm).getD c.bpm

/-- The warning about a silent channel. -/
def warning (channel : String) : String :=
  "warning: channel '" ++ channel ++ "' was silent: its sample failed to load\n"

/-- Renders a file. -/
def render (host : Host m) (c : Configuration) (path output : String) (bpm : Option Float) :
    Step m Outcome := do
  let (compiled, registry) ← compileFile host path
  let files ← readDeclared host compiled.composition.declarations
  match Rendering.ofComposition compiled.composition registry (tempo bpm compiled c)
    compiled.overrides.volumes compiled.overrides.voices c.audioSettings (sourceOf files) with
  | .error e => throw (.failure "" e.message)
  | .ok rendering =>
    let warnings := String.join (rendering.failed.map warning)
    orFail (host.writeBytes output rendering.file) fun reason =>
      .failure warnings ("cannot write " ++ output ++ ": " ++ reason)
    return .success "" warnings

/-- The flat text of a song document, which ends with a line feed. -/
def flatText (text : List Char) : String :=
  String.ofList (if text.getLast? = some '\n' then text else text ++ ['\n'])

/-- Does what has been asked for. -/
def perform (host : Host m) (c : Configuration) : Action → Step m Outcome
  | .compile file json => do
    let (compiled, _) ← compileFile host file
    return .success ((if json then jsonListing else listing) compiled.composition) ""
  | .expand file => do
    match Song.Arrangement.ofText? (← readText host file) with
    | none => throw (.failure "" "not a song document")
    | some arrangement => return .success (flatText arrangement.text) ""
  | .render file output bpm => render host c file output bpm
  | .play file => do
    let _ ← compileFile host file
    throw (.failure "" "no audio output device found")

/-- Runs the program. -/
def run (host : Host m) (arguments : List String) : m Outcome :=
  match Invocation.ofArguments arguments with
  | .error refusal => pure (.refused refusal)
  | .ok invocation => do
    let steps : Step m Outcome := do
      let c ← match invocation.config with
        | some path => namedConfiguration host path
        | none => userConfiguration host
      perform host c invocation.action
    match ← steps.run with
    | .ok outcome => return outcome
    | .error outcome => return outcome

end Stave.Program
