import DocumentAccess.Path

/-!
# Operator keys

Keys of a filter or an update command are fields or operators.  The portable spelling of an operator
begins with `_$`, the native one with `$`.

* `FilterKey.ofKey` — what a key means in a filter.
* `UpdateKey.ofKey` — what a key means in an update command.
* `isDrillWrapper` — keys whose object speaks about the field they stand under.
* `portableName?` — the name behind the portable mark.
-/

namespace DocumentAccess

/-- The name of an operator in its portable spelling. -/
def portableName? (key : String) : Option String :=
  match key.toList with
  | '_' :: '$' :: name => some (String.ofList name)
  | _ => none

/-- The name of an operator in its native spelling. -/
def nativeName? (key : String) : Option String :=
  match key.toList with
  | '$' :: name => some (String.ofList name)
  | _ => none

/-! ## Filters -/

inductive Comparison where
  | eq | ne | gt | gte | lt | lte | within | notWithin | exists | size | all | type | mod
  deriving DecidableEq

namespace Comparison

def native : Comparison → String
  | .eq => "$eq"
  | .ne => "$ne"
  | .gt => "$gt"
  | .gte => "$gte"
  | .lt => "$lt"
  | .lte => "$lte"
  | .within => "$in"
  | .notWithin => "$nin"
  | .exists => "$exists"
  | .size => "$size"
  | .all => "$all"
  | .type => "$type"
  | .mod => "$mod"

/-- The comparison that a portable name spells. -/
def ofName? : String → Option Comparison
  | "eq" => some .eq
  | "ne" => some .ne
  | "gt" => some .gt
  | "gte" => some .gte
  | "lt" => some .lt
  | "lte" => some .lte
  | "in" => some .within
  | "nin" => some .notWithin
  | "exists" => some .exists
  | "size" => some .size
  | "all" => some .all
  | "type" => some .type
  | "mod" => some .mod
  | _ => none

/-- The comparison of dates that a portable name spells. -/
def ofDateName? : String → Option Comparison
  | "dgt" => some .gt
  | "dgte" => some .gte
  | "dlt" => some .lt
  | "dlte" => some .lte
  | "deq" => some .eq
  | "dne" => some .ne
  | _ => none

end Comparison

inductive Logical where
  | and | or | nor | not
  deriving DecidableEq

namespace Logical

def native : Logical → String
  | .and => "$and"
  | .or => "$or"
  | .nor => "$nor"
  | .not => "$not"

/-- The connective that a portable name spells. -/
def ofName? : String → Option Logical
  | "and" => some .and
  | "or" => some .or
  | "nor" => some .nor
  | "not" => some .not
  | _ => none

end Logical

/-- What a key means in a filter. -/
inductive FilterKey where
  | comparison (comparison : Comparison)
  | dateComparison (comparison : Comparison)
  | regex
  | logical (connective : Logical)
  | elemMatch
  | script
  /-- A key in native spelling other than a script. -/
  | native
  /-- A portable mark in front of an unknown name. -/
  | unrecognized
  | field
  deriving DecidableEq

namespace FilterKey

/-- The meaning of the name behind a portable mark. -/
def ofName (name : String) : FilterKey :=
  match Comparison.ofName? name with
  | some c => .comparison c
  | none =>
    match Comparison.ofDateName? name with
    | some c => .dateComparison c
    | none =>
      match Logical.ofName? name with
      | some c => .logical c
      | none =>
        if name = "regex" then .regex
        else if name = "elemMatch" then .elemMatch
        else if name = "where" then .script
        else .unrecognized

/-- What a key means in a filter. -/
def ofKey (key : String) : FilterKey :=
  if key = "$where" then .script
  else match portableName? key with
    | some name => ofName name
    | none => if (nativeName? key).isSome then .native else .field

end FilterKey

/-- The keys whose object speaks about the elements of the field they stand under. -/
def isDrillWrapper (key : String) : Bool :=
  key = "$elemMatch" || key = "_$elemMatch" || key = "_$do_"

/-! ## Update commands -/

/-- The addressing keys of an update argument. -/
def whereKey : String := "_$where_"
def doKey : String := "_$do_"
def indexKey : String := "_$index_"

inductive Verb where
  | set | inc | push | pull | addToSet
  deriving DecidableEq

namespace Verb

def native : Verb → String
  | .set => "$set"
  | .inc => "$inc"
  | .push => "$push"
  | .pull => "$pull"
  | .addToSet => "$addToSet"

def ofName? : String → Option Verb
  | "set" => some .set
  | "inc" => some .inc
  | "push" => some .push
  | "pull" => some .pull
  | "addToSet" => some .addToSet
  | _ => none

end Verb

/-- What a key means in an update command. -/
inductive UpdateKey where
  | verb (verb : Verb)
  | unknownVerb
  | whereAddress
  | doAddress
  | indexAddress
  | field
  deriving DecidableEq

namespace UpdateKey

/-- What a key means in an update command; verbs may be spelt either way. -/
def ofKey (key : String) : UpdateKey :=
  if key = whereKey then .whereAddress
  else if key = doKey then .doAddress
  else if key = indexKey then .indexAddress
  else match (portableName? key).or (nativeName? key) with
    | some name =>
      match Verb.ofName? name with
      | some v => .verb v
      | none => .unknownVerb
    | none => .field

end UpdateKey

end DocumentAccess
