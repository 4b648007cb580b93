import PackageMigration.Profile
import PackageMigration.Text.Quoted
import PackageMigration.Text.Utf8
/-
  The words of a command line.

  * `modernSpelling`: the old spellings of options in the current ones.
  * `Reading`, `Reading.word?`: reading the words one by one.
  * `Arguments`, `parse?`: what the words ask for.
  * `profile?`, `logDirective`: profiles and log levels by name.
-/
namespace PackageMigration.CommandLine

/-! ## Words -/

/-- A word in the current spelling: options were once written with a single hyphen. -/
def modernSpelling (word : Bytes) : Bytes :=
  if word = bytes "-zipInMemory" then bytes "--zip-in-memory"
  else
    match Bytes.after? (bytes "-profile=") word, Bytes.after? (bytes "-logLevel=") word with
    | some value, _ => bytes "--profile=" ++ value
    | none, some value => bytes "--log-level=" ++ value
    | none, none => word

/-- The words in the current spelling. -/
def modernSpellings (words : List Bytes) : List Bytes := words.map modernSpelling

/-- The profile of a name, or a message that names them all. -/
def profile? (name : Bytes) : Except String Profile :=
  match Profile.ofName? (Text.ofBytes name) with
  | some p => .ok p
  | none =>
    .error ("unknown profile " ++ Text.quoted (Text.ofBytes name) ++ ", expected one of " ++
      ", ".intercalate (Profile.all.map Profile.name))

/-- The names of the log levels, in capitals, with the directive for each. -/
def logDirectives : List (List String × String) :=
  [(["FINEST", "FINER", "TRACE", "ALL"], "trace"), (["FINE", "DEBUG", "CONFIG"], "debug"),
    (["WARNING", "WARN"], "warn"), (["SEVERE", "ERROR"], "error"), (["OFF"], "off")]

/-- The directive for a log level, whatever its case; an unknown level is the usual one. -/
def logDirective (level : Bytes) : String :=
  match logDirectives.find? fun d => d.1.any fun n => Bytes.sameIgnoringCase (bytes n) level with
  | some d => d.2
  | none => "info"

/-! ## Reading -/

/-- What has a value on the command line. -/
inductive Setting where
  | profile
  | logLevel
  | rules
  | source
  | destination
  deriving DecidableEq, Repr

/-- A value that a setting can have. -/
def Setting.accepts (value : Bytes) : Setting → Bool
  | profile => (Profile.ofName? (Text.ofBytes value)).isSome
  | logLevel => true
  | rules | source | destination => value != []

/-- The setting of an option. -/
def Setting.ofOption? (name : Bytes) : Option Setting :=
  if name = bytes "profile" then some profile
  else if name = bytes "log-level" then some logLevel
  else if name = bytes "rules" then some rules
  else none

/-- Why a command line asks for no migration. -/
inductive Refusal where
  /-- The words make no sense. -/
  | usage
  /-- They ask for the help text. -/
  | help
  /-- They ask for the version. -/
  | version
  deriving DecidableEq, Repr

/-- What has been read of a command line. -/
structure Reading where
  /-- The settings with a value that they accept. -/
  given : List (Setting × Bytes)
  zipInMemory : Bool
  /-- The setting read last, whose value is yet to come or yet to be looked at. -/
  pending : Option (Setting × Option Bytes)
  /-- The number of operands. -/
  operands : Nat
  /-- Only operands may follow. -/
  optionsEnded : Bool
  deriving DecidableEq, Repr

namespace Reading

/-- Nothing has been read. -/
def empty : Reading := ⟨[], false, none, 0, false⟩

/-- One more setting. It may not be there already, and has to accept the value. -/
def give? (r : Reading) (s : Setting) (value : Bytes) : Except Refusal Reading :=
  if (r.given.lookup s).isSome || !s.accepts value then .error .usage
  else .ok { r with given := (s, value) :: r.given }

/-- The pending setting gets its value. -/
def settle? (r : Reading) : Except Refusal Reading :=
  match r.pending with
  | none => .ok r
  | some (_, none) => .error .usage
  | some (s, some value) => { r with pending := none }.give? s value

/-- One more operand: the source, then the destination. -/
def operand? (r : Reading) (word : Bytes) : Except Refusal Reading := do
  let r ← r.settle?
  match r.operands with
  | 0 => return { r with pending := some (.source, some word), operands := 1 }
  | 1 => return { r with pending := some (.destination, some word), operands := 2 }
  | _ => throw .usage

/-- A request for information, which ends the reading. -/
def inform? (r : Reading) (refusal : Refusal) : Except Refusal Reading := do
  let _ ← r.settle?
  throw refusal

/-- An option without a value. -/
def flag? (r : Reading) (name : Bytes) : Except Refusal Reading := do
  if name = bytes "help" then r.inform? .help
  else if name = bytes "version" then r.inform? .version
  else if name = bytes "zip-in-memory" then
    let r ← r.settle?
    if r.zipInMemory then throw .usage else return { r with zipInMemory := true }
  else throw .usage

/-- An option, with the value behind its equals sign if it has one. -/
def option? (r : Reading) (name : Bytes) (value : Option Bytes) : Except Refusal Reading := do
  match Setting.ofOption? name, value with
  | some s, some value => (← r.settle?).give? s value
  | some s, none => return { ← r.settle? with pending := some (s, none) }
  | none, some _ => throw .usage
  | none, none => r.flag? name

/-- Options of one letter, of which the first decides. -/
def letters? (r : Reading) (letters : Bytes) : Except Refusal Reading :=
  if letters.head? = some 0x68 then r.inform? .help
  else if letters.head? = some 0x56 then r.inform? .version
  else .error .usage

/-- One more word. A value that stands in a word of its own may not look like an option. -/
def word? (r : Reading) (word : Bytes) : Except Refusal Reading :=
  if r.optionsEnded then r.operand? word
  else if word = bytes "--" then .ok { r with optionsEnded := true }
  else
    match Bytes.after? (bytes "--") word, Bytes.after? (bytes "-") word with
    | some option, _ =>
      match Bytes.cutFirst? 0x3D option with
      | some (name, value) => r.option? name (some value)
      | none => r.option? option none
    | none, some (letter :: letters) => r.letters? (letter :: letters)
    | none, _ =>
      match r.pending with
      | some (s, none) => .ok { r with pending := some (s, some word) }
      | _ => r.operand? word

end Reading

/-! ## What the words ask for -/

/-- What a command line asks for. -/
structure Arguments where
  profile : Profile
  zipInMemory : Bool
  logLevel : Bytes
  /-- The path of a table to use instead of the profile's. -/
  rules : Option Bytes
  source : Bytes
  destination : Bytes
  deriving DecidableEq, Repr

/-- What was read asks for, if there are both operands. -/
def Reading.arguments? (r : Reading) : Except Refusal Arguments :=
  match r.given.lookup .source, r.given.lookup .destination with
  | some source, some destination =>
    .ok
      { profile :=
          ((r.given.lookup .profile).bind fun v => Profile.ofName? (Text.ofBytes v)).getD .default
        zipInMemory := r.zipInMemory
        logLevel := (r.given.lookup .logLevel).getD (bytes "INFO")
        rules := r.given.lookup .rules
        source
        destination }
  | _, _ => .error .usage

/-- What words in the current spelling ask for. -/
def parse? (words : List Bytes) : Except Refusal Arguments := do
  let r ← words.foldlM Reading.word? Reading.empty
  (← r.settle?).arguments?

end PackageMigration.CommandLine
