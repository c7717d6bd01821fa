import PropContract.Json.Record

namespace PropContract

inductive QuoteStyle where
  | single
  | double
  deriving DecidableEq, Repr, Inhabited

namespace QuoteStyle

def mark : QuoteStyle → Char
  | single => '\''
  | double => '"'

def ofText? : String → Option QuoteStyle
  | "single" => some single
  | "double" => some double
  | _ => none

end QuoteStyle

structure ValidatorOptions where
  sortProps : Bool := false
  includeComments : Bool := false
  includeDocs : Bool := true
  quotes : QuoteStyle := .single
  importedName : String := "PropTypes"
  comment : Option String := none
  deriving DecidableEq, Repr, Inhabited

namespace ValidatorOptions

def given? {α : Type} (decode : Json → Option α) (fallback : α) : Option Json → Option α
  | none => some fallback
  | some value => decode value

def ofFields? (variant : Json → Option String) : List (Option Json) → Option ValidatorOptions
  | [sortProps, includeComments, includeDocs, quotes, importedName, comment] => do
    pure {
      sortProps := ← given? Json.asBool? false sortProps
      includeComments := ← given? Json.asBool? false includeComments
      includeDocs := ← given? Json.asBool? true includeDocs
      quotes := ← given? (fun j => (variant j).bind QuoteStyle.ofText?) .single quotes
      importedName := ← given? Json.asString? "PropTypes" importedName
      comment := ← Json.optional? Json.asString? comment }
  | _ => none

def fieldNames : List String :=
  ["sortProps", "includeComments", "includeJsdoc", "quoteStyle", "importedName", "comment"]

def ofJson? (value : Json) : Option ValidatorOptions := do
  ofFields? Json.asVariant? (← Json.fields? fieldNames 0 value)

def ofMembers? (members : List (String × Json)) : Option ValidatorOptions := do
  ofFields? Json.asInnerVariant? (← Json.fields? fieldNames 0 (.object members))

end ValidatorOptions

end PropContract
