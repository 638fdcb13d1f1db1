import DocumentAccess.Access.Selection
import DocumentAccess.Filter.Native
import DocumentAccess.Filter.Touched
import DocumentAccess.Settings

/-!
# Update plans

Planning an update checks the paths of its filter for reading and those of its command for updating.

* `UpdatePlan`, `UpdatePlan.build` — the plan of an update.
* `UpdatePlan.refusal?` — the denial that keeps it from being carried out.
-/

namespace DocumentAccess

structure UpdatePlan where
  model : String
  filter : Value
  command : Value
  readPaths : List String
  updatePaths : List String
  deniedRead : List String
  deniedUpdate : List String

namespace UpdatePlan

/-- The plan of an update, given the index of its model. -/
def assemble (model : String) (find command : Value) (levels : Levels) (index : AccessIndex) :
    UpdatePlan :=
  let filter := Filter.toNative (Filter.normalize find)
  let readPaths := Filter.paths filter
  let updatePaths := Update.paths command
  { model := model
    filter := filter
    command := command
    readPaths := readPaths
    updatePaths := updatePaths
    deniedRead := index.denied readPaths .read levels.read
    deniedUpdate := index.denied updatePaths .update levels.update }

/-- Plans an update of the documents of a model that match a filter. -/
def build (catalog : Catalog) (model : String) (find command : Value) (levels : Levels) :
    Except Refusal UpdatePlan :=
  match catalog.index model with
  | .error error => .error (.schema error)
  | .ok index => .ok (assemble model find command levels index)

/-- What planning an update reports. -/
def notices (catalog : Catalog) (model : String) (find : Value) : List Notice :=
  match catalog.index model with
  | .error _ => []
  | .ok _ => Filter.notices (Filter.normalize find)

/-- The filter may be read. -/
def readAllowed (plan : UpdatePlan) : Bool :=
  plan.deniedRead.isEmpty

/-- The command may be applied. -/
def updateAllowed (plan : UpdatePlan) : Bool :=
  plan.deniedUpdate.isEmpty

/-- The denial of a plan: that of reading comes first. -/
def refusal? (plan : UpdatePlan) : Option Refusal :=
  if !plan.readAllowed then some (.accessDenied .read plan.model plan.deniedRead)
  else if !plan.updateAllowed then some (.accessDenied .update plan.model plan.deniedUpdate)
  else none

def toValue (plan : UpdatePlan) : Value :=
  Value.ofMembers
    [("model", .string plan.model), ("filter", plan.filter), ("command", plan.command),
      ("read_paths", .ofStrings plan.readPaths), ("update_paths", .ofStrings plan.updatePaths),
      ("denied_read", .ofStrings plan.deniedRead),
      ("denied_update", .ofStrings plan.deniedUpdate)]

end UpdatePlan

end DocumentAccess
