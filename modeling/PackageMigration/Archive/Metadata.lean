import PackageMigration.Archive.Plan
import PackageMigration.Manifest.Printer
import PackageMigration.Manifest.Repair
/-
  The manifest and the signatures of an archive, once all its entries are planned. The plans come with
  the last entry first.

  * `repairOf`: what became of the entries.
  * `Verdict`, `verdict?`: whether the archive changes, and its manifest then.
  * `withMetadata`: the plans with the new manifest and without signatures.
-/
namespace PackageMigration.Archive

open Migration (Error)

/-- The version of this program, which marks the archives it migrated. -/
def version : String := "0.1.0"

/-- What became of the planned entries. -/
def repairOf (plans : List Plan) : Manifest.Repair where
  changed name := plans.any fun p => p.content.isConverted && p.entry.name == name
  renamed name := (plans.find? fun p => p.isRenamed && p.entry.name == name).map Plan.target
  signed := plans.any fun p => p.kind == .signature

/-- The content or the name of some entry changes. -/
def anyConverted (plans : List Plan) : Bool := plans.any fun p => p.content.isConverted || p.isRenamed

/-- Whether an archive changes. -/
inductive Verdict where
  | unchanged
  /-- It does, and this is its new manifest, if it has one. -/
  | changed (manifest : Option Bytes)
  deriving DecidableEq, Repr

/-- The manifest of an archive, written out for the migrated archive. -/
def repairedManifest (plans : List Plan) (m : Manifest) : Bytes :=
  (m.repair (repairOf plans) (bytes version)).bytes

/-- Whether an archive changes: an entry does, or a value of its last manifest. A manifest that cannot
be read is an error only if an entry changes. -/
def verdict? (t : Table) (label : Bytes) (plans : List Plan) : Except Error Verdict :=
  match plans.find? fun p => p.kind == .manifest with
  | none => .ok (if anyConverted plans then .changed none else .unchanged)
  | some p =>
    match Manifest.parse? p.entry.data with
    | .error cause =>
      if anyConverted plans then .error (.manifest label cause) else .ok .unchanged
    | .ok m =>
      match m.convertValues? t with
      | some m => .ok (.changed (some (repairedManifest plans m)))
      | none =>
        .ok (if anyConverted plans then .changed (some (repairedManifest plans m)) else .unchanged)

/-- The plans with another content for the last manifest. -/
def withManifest (manifest : Bytes) : List Plan → List Plan
  | [] => []
  | p :: ps =>
    if p.kind = .manifest then { p with content := .converted (.inMemory manifest) } :: ps
    else p :: withManifest manifest ps

/-- The plan, but a signature is left out. -/
def withoutSignature (p : Plan) : Plan :=
  if p.kind = .signature then { p with content := .dropped } else p

/-- The plans with the new manifest, if there is one, and without signatures. -/
def withMetadata (manifest : Option Bytes) (plans : List Plan) : List Plan :=
  let plans := plans.map withoutSignature
  match manifest with
  | none => plans
  | some s => withManifest s plans

end PackageMigration.Archive
