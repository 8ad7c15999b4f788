import RoleMining.Settings.Complaint

/-!
# Failures

Why an operation gives no answer. A cause is named for the input that is at fault; `message` words
it.
-/
namespace RoleMining

/-- What is wrong with a delimited text file. -/
inductive TableFault where
  /-- No line holds any data. -/
  | empty
  /-- A quote is left open, or a row is too long. -/
  | malformed
  | notUtf8
  | missingAssignmentColumns (path : String) (columns : List String)
  | missingIdentityColumn (path column : String)
  /-- Two columns have the name of an identifier column once blanks are stripped. -/
  | repeatedColumn
  /-- Two columns have the name of the weight column once blanks are stripped. -/
  | repeatedWeightColumn
  | infiniteWeight

inductive Failure where
  | configuration (complaints : List Complaint)
  /-- A number is too large for double precision, or is infinite where an integer is needed. -/
  | numberTooLarge
  /-- A required input is absent. -/
  | missing (input : String)
  | weightTooSmall (weight : Number) (oid : String)
  /-- A pair in a list of pairs has the wrong number of elements. -/
  | pairLength (index length : Nat)
  /-- A value of the wrong type stands where an object or a list is needed. -/
  | wrongType
  /-- The value has no fields. -/
  | noFields
  | unknownStatus
  /-- Not-a-number, or a text that spells no integer, stands where an integer is needed. -/
  | notInteger
  /-- An integer has more digits than a numeral may have. -/
  | numeralTooLong
  /-- A value nests deeper than the stack has room for. -/
  | nestedTooDeep
  | recordsRequired
  | recordsNotList
  | recordNotObject (index : Nat)
  | rolesNotList (index : Nat)
  | recordWeightNotInteger (index : Nat)
  | unknownProperty
  | noSuchPosition
  | missingFiles (names : List String)
  | table (fault : TableFault)
  /-- The bytes of a settings file are no text. -/
  | notText
  | notJson
  | fileNotFound
  | usage
  | missingVariable (name : String)

namespace Failure

def configurationError (complaint : Complaint) : Failure := .configuration [complaint]

/-- The wording of a failure that the program itself finds; empty for one that is only named. -/
def message : Failure → String
  | .configuration complaints => "; ".intercalate (complaints.map Complaint.message)
  | .missing input => input ++ " must not be None"
  | .weightTooSmall weight oid =>
    "weight=" ++ weight.toText ++ " for " ++ oid ++ " must be >=1"
  | .pairLength index length =>
    "dictionary update sequence element #" ++ Text.ofInt index ++ " has length " ++
      Text.ofInt length ++ "; 2 is required"
  | .recordsRequired => "records are required"
  | .recordsNotList => "records must be a list"
  | .recordNotObject index =>
    "records[" ++ Text.ofInt index ++ "] must be an object with an 'oid'"
  | .rolesNotList index => "records[" ++ Text.ofInt index ++ "].roles must be a list"
  | .recordWeightNotInteger index =>
    "records[" ++ Text.ofInt index ++ "].weight must be an integer"
  | .missingFiles names => "Missing required files: " ++ ", ".intercalate names
  | .table (.missingAssignmentColumns path columns) =>
    path ++ ": missing required columns " ++ ", ".intercalate columns
  | .table (.missingIdentityColumn path column) =>
    path ++ ": missing required column " ++ column
  | .usage => "Usage: python worker.py mine|cluster"
  | .missingVariable name => "Missing required environment variable: " ++ name
  | _ => ""

/-- Whether the fault is one of the values that the input holds, so that a request with it is
answered as a bad request. -/
def isBadValue : Failure → Bool
  | .configuration _ | .missing _ | .weightTooSmall .. | .pairLength .. | .unknownStatus
  | .notInteger | .numeralTooLong | .recordsRequired | .recordsNotList | .recordNotObject _
  | .rolesNotList _ | .recordWeightNotInteger _ | .missingFiles _ | .notText | .notJson
  | .table .empty | .table .malformed | .table .notUtf8 | .table .infiniteWeight
  | .table (.missingAssignmentColumns ..) | .table (.missingIdentityColumn ..) => true
  | _ => false

end Failure
end RoleMining
