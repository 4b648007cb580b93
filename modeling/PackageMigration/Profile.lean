import PackageMigration.Mapping.Table
/-
  The built-in tables. A profile is a named selection of packages that move from `javax` to
  `jakarta`.

  * `Profile`: `tomcat` covers what a servlet container needs, `ee` adds the rest of the platform.
  * `Profile.table`: its table.
  * `Profile.ofName?`: the profile of a name, whatever its case.
-/
namespace PackageMigration

/-- A built-in selection of packages. -/
inductive Profile where
  | tomcat
  | ee
  deriving DecidableEq, Repr

namespace Profile

/-- Every profile, in the order they are listed to a user. -/
def all : List Profile := [.tomcat, .ee]

/-- The profile used when none is chosen. -/
def default : Profile := .tomcat

instance : Inhabited Profile := ⟨default⟩

def name : Profile → String
  | .tomcat => "TOMCAT"
  | .ee => "EE"

/-- The profile of a name, whatever the case of its ASCII letters. -/
def ofName? (s : String) : Option Profile :=
  all.find? fun p => Bytes.sameIgnoringCase (bytes p.name) (bytes s)

/-- What is said of a name that no profile has. -/
def unknownMessage : String := "Matching variant not found"

/-- The packages below a moving one that belong to the platform's own library and stay. -/
def held : List String := ["annotation.processing", "transaction.xa"]

/-- The packages that a servlet container needs. -/
def servletPackages : List String :=
  ["annotation", "ejb", "el", "mail", "persistence", "security.auth.message", "servlet",
    "transaction", "websocket"]

/-- The packages of the rest of the platform. -/
def platformPackages : List String :=
  ["activation", "batch", "decorator", "enterprise", "faces", "inject", "interceptor", "jms",
    "json", "jws", "resource", "security.enterprise", "security.jacc", "validation", "ws.rs",
    "xml.bind", "xml.soap", "xml.ws"]

/-- The packages that a profile moves. -/
def packages : Profile → List String
  | .tomcat => servletPackages
  | .ee => servletPackages ++ platformPackages

/-- The rule that moves a package of `javax` to `jakarta`. -/
def move (package : String) : Rule :=
  ⟨bytes "javax." ++ bytes package, bytes "jakarta." ++ bytes package⟩

def rules (p : Profile) : List Rule :=
  held.map (fun package => .exclusion (bytes "javax." ++ bytes package)) ++ p.packages.map move

theorem firstFault_rules (p : Profile) : Table.firstFault [] p.rules = none := by
  cases p <;> decide +kernel

/-- The table of a profile. -/
def table (p : Profile) : Table :=
  Table.build p.rules p.firstFault_rules (by simp [rules, held])

end Profile

end PackageMigration
