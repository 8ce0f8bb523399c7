import XamlDoc.Config.Basic
import XamlDoc.Data.Toml.Reader
import XamlDoc.Text.Bytes

/-!
# Loading a configuration

The file is named at the call, or it is the first file of the usual name in the working directory and
the directories around it, from the inside out. The choices of the call are made last and are not
checked.
-/

namespace XamlDoc.Config

def fileName : String := "xamd.toml"

def firstThere : List FileName → Access (Option FileName)
  | [] => .done none
  | file :: r => .isThere file fun
    | true => .done (some file)
    | false => firstThere r

/-- The nearest configuration file in the working directory and around it. -/
def discover : Access (Option FileName) :=
  .askLevels fun levels => firstThere ((List.range (levels + 1)).map (.above · fileName))

def ofText (source : FileName) (text : String) : Except ConfigError Config :=
  match (Data.Toml.read? text).bind Settings.decode with
  | none => .error .malformed
  | some settings => (settings.toConfig source).mapError .invalid

def ofBytes (source : FileName) (bytes? : Option (List UInt8)) : Except ConfigError Config :=
  match bytes?.bind Text.ofBytes? with
  | none => .error .unreadable
  | some text => ofText source text

def ofFile (file : FileName) : Access (Except ConfigError Config) :=
  .read file fun bytes? => .done (ofBytes file bytes?)

def stored (path? : Option String) : Access (Except ConfigError Config) :=
  match path? with
  | some path => .isThere (.given path) fun
    | true => ofFile (.given path)
    | false => .done (.error (.notFound path))
  | none => discover.bind fun
    | some file => ofFile file
    | none => .done (.ok standard)

/-- The configuration from the file at `path?`, or a file that is found, and the choices. -/
def load (path? : Option String) (choices : Choices) : Access (Except ConfigError Config) :=
  (stored path?).bind fun stored => .done (stored.map fun c => c.choose choices)

end XamlDoc.Config
