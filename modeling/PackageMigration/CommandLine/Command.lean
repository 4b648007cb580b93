import PackageMigration.CommandLine.Arguments
import PackageMigration.Mapping.Document
import PackageMigration.Migration.Basic
/-
  Running a command line.

  * `CommandLine.run`: the migration that arguments ask for.
  * `CommandLine.command`: all of it, from the words to the exit code.
-/
namespace PackageMigration.CommandLine

/-- Why the migration that was asked for failed. -/
inductive Failure where
  | rulesUnreadable (path : Bytes)
  | rulesInvalid (path : Bytes) (cause : Table.Error)
  | migration (source destination : Bytes) (cause : Migration.Error)
  deriving DecidableEq, Repr

def Failure.message : Failure → String
  | rulesUnreadable path => "Failed to read mapping table " ++ Text.ofBytes path
  | rulesInvalid path _ => "Invalid mapping table " ++ Text.ofBytes path
  | migration source destination _ =>
    "Failed to migrate " ++ Text.ofBytes source ++ " to " ++ Text.ofBytes destination

/-- The table in a file, which holds text. -/
def readTable? (path : Bytes) (fs : FileSystem) : Except Failure Table :=
  match (fs.read? path).filter Bytes.isText with
  | none => .error (.rulesUnreadable path)
  | some text => (Table.ofText? (Text.ofBytes text)).mapError (.rulesInvalid path)

/-- The table that arguments ask for instead of the profile's. -/
def customTable? (a : Arguments) (fs : FileSystem) : Except Failure (Option Table) :=
  match a.rules with
  | none => .ok none
  | some path => (readTable? path fs).map some

/-- The migration that arguments ask for. -/
def migration (a : Arguments) (table : Option Table) : Migration :=
  { Migration.new with
    source := some a.source
    destination := some a.destination
    profile := a.profile
    zipInMemory := a.zipInMemory
    customTable := table }

/-- Run the migration that arguments ask for. -/
def run (a : Arguments) (fs : FileSystem) : Except Failure Unit × FileSystem :=
  match customTable? a fs with
  | .error failure => (.error failure, fs)
  | .ok table =>
    let (_, outcome) := (migration a table).execute fs
    (outcome.run.result.mapError (.migration a.source a.destination), outcome.files)

/-- How a command ends. -/
inductive Ending where
  | succeeded
  /-- The help text or the version was asked for. -/
  | informed
  | misused
  | failed (failure : Failure)
  deriving DecidableEq, Repr

def Ending.exitCode : Ending → Nat
  | succeeded => 0
  | informed => 0
  | misused => 1
  | failed _ => 2

/-- Run a command line. -/
def command (words : List Bytes) (fs : FileSystem) : Ending × FileSystem :=
  match parse? (modernSpellings words) with
  | .error .usage => (.misused, fs)
  | .error _ => (.informed, fs)
  | .ok a =>
    match run a fs with
    | (.error failure, fs) => (.failed failure, fs)
    | (.ok (), fs) => (.succeeded, fs)

end PackageMigration.CommandLine
