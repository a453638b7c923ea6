import LocaleTidy.FileTree.Operations
import LocaleTidy.ProjectError

/-!
# Catalogs in files

A catalog is saved through a temporary file beside its own: that file is written first and then
takes the place of the old one, so that a failure leaves the old one as it was.
-/

namespace LocaleTidy

namespace Catalog

def load (tree : FileTree) (path : Path) : Except ProjectError Catalog := do
  let text ← (tree.readText path).mapError (.unreadableCatalog path)
  (parse text).mapError (.malformedCatalog path)

/-- The temporary file beside a file. -/
def temporaryFor (path : Path) : Path :=
  path.withFileName (path.fileName?.getD "" ++ ".tmp")

/-- The calls to the system while a catalog is saved, each with the error with which the system
refuses it, if it does. A call that is refused changes nothing. -/
structure Refusals where
  write : Option FileError
  /-- To look up the permission bits of the target. -/
  look : Option FileError
  setMode : Option FileError
  rename : Option FileError
  remove : Option FileError

def Refusals.none : Refusals := ⟨.none, .none, .none, .none, .none⟩

def unlessRefused {α : Type} (refusal : Option FileError) (result : Except FileError α) :
    Except FileError α :=
  match refusal with
  | some error => .error error
  | none => result

theorem unlessRefused_map {α β : Type} (refusal : Option FileError) (result : Except FileError α)
    (f : α → β) : unlessRefused refusal (result.map f) = (unlessRefused refusal result).map f := by
  cases refusal <;> rfl

/-- Lets the temporary file take over the permission bits of the target, if that is there. -/
def inheritMode (refusals : Refusals) (tree : FileTree) (temporary target : Path) :
    Except FileError FileTree :=
  match unlessRefused refusals.look (tree.modeOf target) with
  | .ok mode => unlessRefused refusals.setMode (tree.setMode temporary mode)
  | .error _ => .ok tree

/-- The tree after a temporary file is given up. -/
def discard (refusals : Refusals) (tree : FileTree) (temporary : Path) : FileTree :=
  (unlessRefused refusals.remove (tree.remove temporary)).toOption.getD tree

/-- Moves the temporary file over the target with the target's permission bits. If that fails,
the temporary file is removed again. -/
def replace (refusals : Refusals) (tree : FileTree) (temporary target : Path) :
    Except FileError Unit × FileTree :=
  match inheritMode refusals tree temporary target with
  | .error error => (.error error, discard refusals tree temporary)
  | .ok tree =>
      match unlessRefused refusals.rename (tree.rename temporary target) with
      | .error error => (.error error, discard refusals tree temporary)
      | .ok tree => (.ok (), tree)

/-- Saves the catalog to a file, with the system refusing some of the calls. -/
def saveAmid (refusals : Refusals) (catalog : Catalog) (tree : FileTree) (path : Path) :
    Except ProjectError Unit × FileTree :=
  let temporary := temporaryFor path
  match unlessRefused refusals.write (tree.writeText temporary catalog.toText) with
  | .error error => (.error (.unwritten temporary error), tree)
  | .ok written =>
      let (result, tree) := replace refusals written temporary path
      (result.mapError (.unreplaced path), tree)

def save (catalog : Catalog) (tree : FileTree) (path : Path) :
    Except ProjectError Unit × FileTree :=
  saveAmid .none catalog tree path

end Catalog

def FileTree.backUp (tree : FileTree) (source backup : Path) : Except ProjectError FileTree :=
  (tree.copy source backup).mapError (.notBackedUp source backup)

end LocaleTidy
