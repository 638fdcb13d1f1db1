import DocumentAccess.Access.Selection
import DocumentAccess.Filter.Native
import DocumentAccess.Filter.Touched
import DocumentAccess.Plan.Request
import DocumentAccess.Plan.Store
import DocumentAccess.Settings

/-!
# Read plans

Planning a read makes its filter native, collects the paths it touches and checks all against the
index of the model at the caller's levels, without reaching for a store.  Planning fails for an unknown
model, a reference without a target, or a page that is too large; what the caller may not do is noted
in the plan.

* `Validity` — which checks passed.
* `ReadPlan`, `ReadPlan.build` — the plan of a request.
* `ReadPlan.refusal?` — the denial that keeps a plan from being carried out.
* `ReadPlan.findQuery` — what the store is asked.
-/

namespace DocumentAccess

/-- Which checks passed; `select` is about the selection as it was asked for, and `update` is there when
an update was checked. -/
structure Validity where
  read : Bool
  create : Bool
  delete : Bool
  select : Bool
  populate : Bool
  update : Option Bool
  deriving DecidableEq

def Validity.toValue (valid : Validity) : Value :=
  Value.ofMembers
    [("read", .bool valid.read), ("create", .bool valid.create), ("delete", .bool valid.delete),
      ("select", .bool valid.select), ("populate", .bool valid.populate),
      ("update", .ofOption .bool valid.update)]

structure ReadPlan where
  model : String
  filter : Value
  readPaths : List String
  deniedPaths : List String
  select : String
  populate : List Populate
  sort : String
  skip : Nat
  limit : Nat
  valid : Validity
  complexity : Filter.Complexity

namespace ReadPlan

/-- The selection of a request without blanks at its ends; empty when there is none. -/
def requestedSelect (request : ReadRequest) : String :=
  (request.select.map Text.trim).getD ""

/-- The request selects nothing, or only what may be read. -/
def selectAllowed (index : AccessIndex) (select : String) (level : Nat) : Bool :=
  select.isEmpty || index.canSelect select level

/-- The selection that is carried out: the requested one if it is allowed and there is one, otherwise
everything that may be read. -/
def effectiveSelect (index : AccessIndex) (select : String) (level : Nat) : String :=
  if !select.isEmpty && index.canSelect select level then select else index.projectionText level

/-- A populate entry next to the index of the model that its reference points to. -/
structure Related where
  entry : Populate
  index : AccessIndex

/-- The entries of a request with the indexes they are checked against. -/
def related (catalog : Catalog) (model : String) : List Populate → Except SchemaError (List Related)
  | [] => .ok []
  | entry :: rest =>
    match catalog.relatedIndex model entry.path with
    | .error error => .error error
    | .ok index =>
      match related catalog model rest with
      | .error error => .error error
      | .ok entries => .ok (⟨entry, index⟩ :: entries)

/-- The populate entries of a request. -/
def entries (request : ReadRequest) : List Populate :=
  match request.populate with
  | some value => Populate.parse value
  | none => []

/-- The sort order of a request; the identifier decides when none is given. -/
def sortOf (request : ReadRequest) : String :=
  match request.sort with
  | some sort => if Text.isBlankText sort then Path.identifier else sort
  | none => Path.identifier

/-- The page size of a request. -/
def limitOf (settings : Settings) (request : ReadRequest) : Nat :=
  request.limit.getD settings.limit

/-- The plan of a request, given the index of its model and its populate entries with theirs. -/
def assemble (settings : Settings) (model : String) (request : ReadRequest) (levels : Levels)
    (index : AccessIndex) (related : List Related) : ReadPlan :=
  let portable := Filter.normalize request.find
  let filter := Filter.toNative portable
  let readPaths := Filter.paths filter
  let deniedPaths := index.denied readPaths .read levels.read
  let select := requestedSelect request
  { model := model
    filter := filter
    readPaths := readPaths
    deniedPaths := deniedPaths
    select := effectiveSelect index select levels.read
    populate := related.map fun r => r.index.resolve r.entry levels.read
    sort := sortOf request
    skip := request.skip.getD 0
    limit := limitOf settings request
    valid :=
      { read := deniedPaths.isEmpty
        create := index.canCreate levels.create
        delete := index.canDelete levels.delete
        select := selectAllowed index select levels.read
        populate := related.all fun r => r.index.canPopulate r.entry levels.read
        update := none }
    complexity := Filter.complexity portable }

/-- Plans a read of a model. -/
def build (catalog : Catalog) (settings : Settings) (model : String) (request : ReadRequest)
    (levels : Levels) : Except Refusal ReadPlan :=
  match catalog.index model with
  | .error error => .error (.schema error)
  | .ok index =>
    if settings.readLimit < limitOf settings request then
      .error (.limitExceeded (limitOf settings request) settings.readLimit)
    else match related catalog model (entries request) with
      | .error error => .error (.schema error)
      | .ok related => .ok (assemble settings model request levels index related)

/-- What planning a read reports: what making its filter native does, and a selection that was
replaced. -/
def notices (catalog : Catalog) (settings : Settings) (model : String) (request : ReadRequest)
    (levels : Levels) : List Notice :=
  match catalog.index model with
  | .error _ => []
  | .ok index =>
    if settings.readLimit < limitOf settings request then []
    else
      let select := requestedSelect request
      Filter.notices (Filter.normalize request.find) ++
        if selectAllowed index select levels.read then []
        else
          [⟨.warn, .selectionNarrowed,
            [("model", model), ("select", select), ("level", Decimal.natural levels.read)]⟩]

/-- The denial of a plan: paths of the filter that may not be read come first, then populate entries. -/
def refusal? (plan : ReadPlan) : Option Refusal :=
  if !plan.valid.read then some (.accessDenied .read plan.model plan.deniedPaths)
  else if !plan.valid.populate then
    some (.accessDenied .read plan.model (plan.populate.map Populate.path))
  else none

/-- What the store is asked. -/
def findQuery (plan : ReadPlan) : FindQuery :=
  ⟨plan.filter, plan.select, plan.sort, plan.skip, plan.limit, plan.populate⟩

def toValue (plan : ReadPlan) : Value :=
  Value.ofMembers
    [("model", .string plan.model), ("filter", plan.filter),
      ("read_paths", .ofStrings plan.readPaths), ("denied_paths", .ofStrings plan.deniedPaths),
      ("select", .string plan.select),
      ("populate", .array (plan.populate.map Populate.toValue)), ("sort", .string plan.sort),
      ("skip", .ofNat plan.skip), ("limit", .ofNat plan.limit), ("valid", plan.valid.toValue),
      ("complexity", plan.complexity.toValue)]

end ReadPlan

end DocumentAccess
