import PackageMigration.Archive.Stash
import PackageMigration.ClassFile.Conversion
import PackageMigration.Container.Basic
import PackageMigration.Entry.Kind
import PackageMigration.Migration.Run
/-
  What is to become of the entries of an archive.

  * `Plan`: an entry, its new name and its new content.
  * `convertPayload?`: the content of an entry with its mapped names replaced.
  * `hold`: a converted content put away.
  * `Scan`, `Scan.addEntry?`, `scanItems`: the plans of all entries, as far as they have been read.
-/
namespace PackageMigration.Archive

open Migration (Error Event Run)

/-- What is to become of the content of an entry. -/
inductive Content where
  | kept
  | converted (held : Held)
  /-- The entry is left out. -/
  | dropped
  deriving DecidableEq, Repr

def Content.isConverted : Content → Bool
  | converted _ => true
  | _ => false

/-- What is to become of an entry. -/
structure Plan where
  entry : Container.Entry
  /-- Its name in the migrated archive. -/
  target : Bytes
  kind : EntryKind
  content : Content
  deriving DecidableEq, Repr

/-- The entry gets a new name. -/
def Plan.isRenamed (p : Plan) : Bool := p.target != p.entry.name

/-- How an entry of an archive is called. -/
def entryLabel (label name : Bytes) : Bytes := label ++ bytes "!/" ++ name

/-- How archives in archives are migrated: by label and content, to the new content if anything in them
changes. -/
abbrev Nested := Bytes → Bytes → Except Error (Option Bytes)

/-- The content of an entry with its mapped names replaced, or none if it holds no mapped name. -/
def convertPayload? (nested : Nested) (t : Table) (kind : EntryKind) (label payload : Bytes) :
    Except Error (Option Bytes) :=
  match kind with
  | .classBinary => (t.convertClass? payload).mapError (.classFormat label)
  | .sourceText | .serviceRegistration => .ok (t.convert? payload)
  | .nestedArchive => nested label payload
  | .directory | .manifest | .signature | .passthrough => .ok none

/-- What is to become of the content of an entry, and the stash after its converted content, if there is
one, is put away. -/
def hold (stash : Stash) : Option Bytes → Content × Stash
  | none => (.kept, stash)
  | some payload =>
    let (held, stash) := stash.put payload
    (.converted held, stash)

/-- Some entry comes to have this name. -/
def isTaken (plans : List Plan) (name : Bytes) : Bool := plans.any fun p => p.target == name

/-- The plans for the entries read so far, the last one first, and what their contents are put away
in. -/
structure Scan where
  plans : List Plan
  stash : Stash

namespace Scan

/-- The plan for one more entry. No two entries may come to have the same name; of directories the
first one is enough. -/
def addEntry? (nested : Nested) (t : Table) (label : Bytes) (s : Scan) (e : Container.Entry) :
    Except Error Scan :=
  let ⟨plans, stash⟩ := s
  let route := t.route e.name e.data
  let target := route.renamed.getD e.name
  match convertPayload? nested t route.kind (entryLabel label e.name) e.data with
  | .error cause => .error cause
  | .ok converted =>
    let (content, stash) := hold stash converted
    if isTaken plans target then
      if route.kind = .directory then .ok ⟨⟨e, target, route.kind, .dropped⟩ :: plans, stash⟩
      else .error (.entryRepeated label target)
    else .ok ⟨⟨e, target, route.kind, content⟩ :: plans, stash⟩

/-- The plan for one more entry as it was found. -/
def addItem? (nested : Nested) (t : Table) (label : Bytes) (s : Scan) :
    Container.Item → Except Error Scan
  | .unsupported => .error (.unreadableArchive label)
  | .damaged name => .error (.damagedEntry (entryLabel label name))
  | .entry e => s.addEntry? nested t label e

end Scan

/-- The plans for the entries after the first `done` ones, of `total`. Each is reported. -/
def scanItems (nested : Nested) (t : Table) (label : Bytes) (total : Nat) :
    Nat → Scan → List Container.Item → Run Scan
  | _, s, [] => pure s
  | done, s, item :: items => do
    let s ← Run.ofExcept (s.addItem? nested t label item)
    Run.report (.converting (done + 1) total)
    scanItems nested t label total (done + 1) s items

end PackageMigration.Archive
