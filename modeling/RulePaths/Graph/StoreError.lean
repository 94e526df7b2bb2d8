import RulePaths.Diagnostic
import RulePaths.Graph.Record

/-!
# Why a store call fails
-/

namespace RulePaths

/-- The reasons why a store does not do what it is asked. -/
inductive StoreError where
  /-- A directory or file of the store cannot be used. -/
  | fileSystem (reason : String)
  /-- The file of the store holds no tables. -/
  | database (reason : String)
  /-- The bytes of a stored record do not make a record. -/
  | malformedRecord (reason : String)
  /-- No node or edge has this name. -/
  | notFound (key : String)
  /-- There is already a node of this kind with this key. -/
  | alreadyExists (kind : NodeKind) (key : String)
  /-- The node or edge with this name was committed by an earlier transaction. -/
  | immutable (key : String)
  /-- The transaction was given up. -/
  | aborted (reason : String)
deriving DecidableEq, Inhabited

namespace StoreError

/-- The sentence that reports the error. -/
def message : StoreError → String
  | .fileSystem reason => "I/O error: " ++ reason
  | .database reason => "redb transaction error: " ++ reason
  | .malformedRecord reason => "serialization error: " ++ reason
  | .notFound key => "key not found: " ++ key
  | .alreadyExists kind key =>
    "unique constraint violated: " ++ kind.text ++ " with id \"" ++ key ++ "\" already exists"
  | .immutable key => key ++ " is already committed and cannot be modified"
  | .aborted reason => "transaction aborted: " ++ reason

/-- The code of the kind of error. -/
def code : StoreError → String
  | .fileSystem _ => "rulegraph::store::io"
  | .database _ => "rulegraph::store::redb"
  | .malformedRecord _ => "rulegraph::store::serde"
  | .notFound _ => "rulegraph::store::not_found"
  | .alreadyExists .. => "rulegraph::store::unique_violation"
  | .immutable _ => "rulegraph::store::immutable"
  | .aborted _ => "rulegraph::store::aborted"

/-- What to do about the error. -/
def help : StoreError → String
  | .fileSystem _ =>
    "A filesystem operation failed. Check that the data directory exists, has correct " ++
    "permissions, and that the disk is not full."
  | .database _ =>
    "The embedded database encountered a transaction error. The transaction was rolled back; " ++
    "retrying the whole call is safe."
  | .malformedRecord _ =>
    "Failed to serialize or deserialize a stored record. The data file may have been written " ++
    "by an incompatible version."
  | .notFound _ =>
    "The referenced node or edge does not exist in the store or the current transaction."
  | .alreadyExists .. =>
    "Node ids are unique per kind. Look the node up instead of creating it."
  | .immutable _ =>
    "Properties can only be set on nodes and edges created in the same transaction. Committed " ++
    "rule graph records are never rewritten."
  | .aborted _ => "The transaction was rolled back and left no changes behind."

/-- The error, explained. -/
def diagnostic (e : StoreError) : Diagnostic :=
  ⟨e.message, e.code, some e.help, []⟩

end StoreError

end RulePaths
