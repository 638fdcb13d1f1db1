import DocumentAccess.Access.Populate

/-!
# Document stores

Documents are kept by a store that is reached through four operations.  Finding and counting leave the
store as it is; saving and removing give its next state, also when they fail.

* `FindQuery` — what a store is asked to find, in native operators.
* `Store` — the operations, over a type of states.
* `StoreCall` — a record of one use.
-/

namespace DocumentAccess

/-- A find request in native operators; a limit of 0 means no bound. -/
structure FindQuery where
  filter : Value
  projection : String
  sort : String
  skip : Nat
  limit : Nat
  populate : List Populate

namespace FindQuery

/-- All documents that match a filter, whole and unsorted. -/
def matching (filter : Value) : FindQuery :=
  ⟨filter, "", "", 0, 0, []⟩

def toValue (query : FindQuery) : Value :=
  Value.ofMembers
    [("filter", query.filter), ("projection", .string query.projection),
      ("sort", .string query.sort), ("skip", .ofNat query.skip), ("limit", .ofNat query.limit),
      ("populate", .array (query.populate.map Populate.toValue))]

end FindQuery

/-- The operations of a store with states of type `σ`; a failure carries its text. -/
structure Store (σ : Type) where
  find : σ → String → FindQuery → Except String (List Value)
  count : σ → String → Value → Except String Nat
  save : σ → String → Value → Except String Value × σ
  remove : σ → String → Value → Except String Nat × σ

/-- One use of a store. -/
inductive StoreCall where
  | find (model : String) (query : FindQuery)
  | count (model : String) (filter : Value)
  | save (model : String) (document : Value)
  | remove (model : String) (filter : Value)

end DocumentAccess
