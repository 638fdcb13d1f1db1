import DocumentAccess.Calendar.Reading
import DocumentAccess.Journal
import DocumentAccess.Operator

/-!
# Filters in native operators

A filter arrives with portable operators and leaves with native ones.  Objects are walked; any other
value is a literal and stays as it is, lists included unless a portable logical operator holds them.

* `Filter.walked` — the members that the walk meets, in order, each before those inside it.
* `Filter.toNative` — the native filter; of two keys with one native spelling the later one stays.
* `Filter.complexity` — how many operators of each kind the walk meets.
* `Filter.notices` — what the walk reports: dropped scripts, and dates that are none.
-/

namespace DocumentAccess.Filter

/-! ## Operands -/

/-- The pattern of a regular expression: the member `value` or else `val` of an object, or the operand
itself. -/
def regexPattern : Value → Value
  | .object members =>
    ((Keyed.find? "value" members).or (Keyed.find? "val" members)).getD .null
  | operand => operand

/-- The flags of a regular expression: the member `flags` or else `options` of an object, if it is a
text that is not empty. -/
def regexFlags? : Value → Option String
  | .object members =>
    match (Keyed.find? "flags" members).or (Keyed.find? "options" members) with
    | some (.string flags) => if flags.isEmpty then none else some flags
    | _ => none
  | _ => none

/-- The native members of a regular expression. -/
def regexMembers (operand : Value) : List (String × Value) :=
  ("$regex", regexPattern operand) ::
    match regexFlags? operand with
    | some flags => [("$options", .string flags)]
    | none => []

/-- The operand of a date comparison: the instant it names, or itself when it names none. -/
def dateOperand (operand : Value) : Value :=
  match Instant.ofValue? operand with
  | some instant => instant.toValue
  | none => operand

/-! ## Native spelling -/

mutual

/-- The native filter of a portable one. -/
def toNative : Value → Value
  | .object members => Value.ofMembers (nativeMembers members)
  | literal => literal

/-- The native members of an object's members, in their order. -/
def nativeMembers : List (String × Value) → List (String × Value)
  | [] => []
  | (key, operand) :: rest =>
    (match FilterKey.ofKey key with
      | .field | .native => [(key, toNative operand)]
      | .comparison c => [(c.native, toNative operand)]
      | .dateComparison c => [(c.native, dateOperand operand)]
      | .regex => regexMembers operand
      | .logical c => [(c.native, toNativeGroup operand)]
      | .elemMatch => [("$elemMatch", toNative operand)]
      | .script => []
      | .unrecognized => [(key, operand)]) ++ nativeMembers rest

/-- The operand of a logical operator: a list of filters, or one. -/
def toNativeGroup : Value → Value
  | .array items => .array (toNativeItems items)
  | .object members => Value.ofMembers (nativeMembers members)
  | literal => literal

def toNativeItems : List Value → List Value
  | [] => []
  | item :: rest => toNative item :: toNativeItems rest

end

/-- A filter of null asks for every document. -/
def normalize : Value → Value
  | .null => .object []
  | filter => filter

/-! ## The walk -/

mutual

/-- The members that the walk meets, in order. -/
def walked : Value → List (String × Value)
  | .object members => walkedMembers members
  | _ => []

def walkedMembers : List (String × Value) → List (String × Value)
  | [] => []
  | (key, operand) :: rest =>
    (key, operand) ::
      (match FilterKey.ofKey key with
        | .field | .native | .comparison _ | .elemMatch => walked operand
        | .logical _ => walkedGroup operand
        | .dateComparison _ | .regex | .script | .unrecognized => []) ++ walkedMembers rest

def walkedGroup : Value → List (String × Value)
  | .array items => walkedItems items
  | .object members => walkedMembers members
  | _ => []

def walkedItems : List Value → List (String × Value)
  | [] => []
  | item :: rest => walked item ++ walkedItems rest

end

/-! ## Complexity -/

/-- Operators of a filter, counted by kind; `logical` counts each connective and each filter in its
list. -/
structure Complexity where
  regex : Nat
  logical : Nat
  comparison : Nat
  date : Nat
  dropped : Nat
  deriving DecidableEq

namespace Complexity

def zero : Complexity := ⟨0, 0, 0, 0, 0⟩

def add (a b : Complexity) : Complexity :=
  ⟨a.regex + b.regex, a.logical + b.logical, a.comparison + b.comparison, a.date + b.date,
    a.dropped + b.dropped⟩

/-- The sum of all counts. -/
def total (c : Complexity) : Nat :=
  c.regex + c.logical + c.comparison + c.date + c.dropped

/-- What one walked member counts for. -/
def ofMember (member : String × Value) : Complexity :=
  match FilterKey.ofKey member.1 with
  | .regex => { zero with regex := 1 }
  | .logical _ =>
    match member.2 with
    | .array items => { zero with logical := 1 + items.length }
    | _ => { zero with logical := 1 }
  | .comparison _ => { zero with comparison := 1 }
  | .dateComparison _ => { zero with date := 1 }
  | .script => { zero with dropped := 1 }
  | .elemMatch | .native | .unrecognized | .field => zero

def toValue (c : Complexity) : Value :=
  Value.ofMembers
    [("regex", .ofNat c.regex), ("logical", .ofNat c.logical), ("comparison", .ofNat c.comparison),
      ("date", .ofNat c.date), ("dropped", .ofNat c.dropped)]

end Complexity

/-- The operators that a walk over the filter meets. -/
def complexity (filter : Value) : Complexity :=
  (walked filter).foldl (fun sum member => sum.add (Complexity.ofMember member)) Complexity.zero

/-! ## Notices -/

/-- A script is dropped, and a date operand that names no instant is passed on. -/
def memberNotice? (member : String × Value) : Option Notice :=
  match FilterKey.ofKey member.1 with
  | .script => some ⟨.warn, .scriptTokenDropped, [("key", member.1)]⟩
  | .dateComparison _ =>
    if (Instant.ofValue? member.2).isSome then none
    else some ⟨.warn, .dateCoercionFailed, [("key", member.1), ("value", member.2.text)]⟩
  | _ => none

/-- What making a filter native reports. -/
def notices (filter : Value) : List Notice :=
  (walked filter).filterMap memberNotice?

end DocumentAccess.Filter
