import RoleMining.Json.Basic

/-!
# Complaints about settings

What is wrong with a setting, as a cause. `Complaint.message` is the only place that words it.
-/
namespace RoleMining

inductive Complaint where
  | required (field : String)
  | sectionRequired (name : String)
  | optionsRequired
  | notNumber (field : String) (value : Json)
  | notListed (field : String) (value : Json) (listed : List String)
  | tooLow (field : String) (value bound : Number) (reason : String)
  | tooHigh (field : String) (value bound : Number) (reason : String)
  | outside (field : String) (value : Number) (reason : String)
  | tooFewClusters (bound : Number)
  | tooManyClusters (bound : Number) (reason : String)
  | notPositive (field : String) (value : Json)
  | notShare (field : String) (value : Json)
  | bandReversed (low high : Number)
  | boundsReversed (low high : Number)
  | unsupported (what : String) (value : Json)
  | environmentNotInteger (name text : String)
  | notObject (name : String)

namespace Complaint

/-- The listed words in parentheses, as a message shows a closed choice. -/
def choice (listed : List String) : String :=
  "(" ++ ", ".intercalate (listed.map Text.quoted) ++ ")"

def message : Complaint → String
  | .required field => field ++ " is required"
  | .sectionRequired name => name ++ " configuration is required"
  | .optionsRequired => "detection options are required"
  | .notNumber field value => field ++ "=" ++ value.quoted ++ " must be a number"
  | .notListed field value listed =>
    field ++ "=" ++ value.quoted ++ " must be one of " ++ choice listed
  | .tooLow field value bound reason =>
    field ++ "=" ++ value.toText ++ " below " ++ bound.toText ++ ": " ++ reason
  | .tooHigh field value bound reason =>
    field ++ "=" ++ value.toText ++ " above " ++ bound.toText ++ ": " ++ reason
  | .outside field value reason => field ++ "=" ++ value.toText ++ ": " ++ reason
  | .tooFewClusters bound => "max_clusters_per_member < " ++ bound.toText
  | .tooManyClusters bound reason =>
    "max_clusters_per_member > " ++ bound.toText ++ ": " ++ reason
  | .notPositive field value => field ++ "=" ++ value.shown ++ " must be >=1"
  | .notShare field value => field ++ "=" ++ value.shown ++ " must be in [0, 1]"
  | .bandReversed low high =>
    "min_frequency=" ++ low.toText ++ " > max_frequency=" ++ high.toText ++
      ": min_frequency must not exceed max_frequency"
  | .boundsReversed low high =>
    "min_frequency=" ++ low.toText ++ " > max_frequency=" ++ high.toText
  | .unsupported what value => "Unsupported " ++ what ++ " type: " ++ value.typeName
  | .environmentNotInteger name text => name ++ "=" ++ Text.quoted text ++ " is not an integer"
  | .notObject name => name ++ " must be an object"

end Complaint
end RoleMining
