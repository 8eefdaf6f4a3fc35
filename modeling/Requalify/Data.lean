/-!
Untyped values, as settings are written in a file or a message, and how typed values are read from them.
A record may be written as a table of named fields or as a list of its fields in order.
-/

namespace Requalify

inductive Data where
  | null
  /-- A number or a truth value, which no setting uses. -/
  | scalar
  | date
  | text (value : String)
  | list (items : List Data)
  | table (entries : List (String × Data))
  deriving Inhabited

namespace Data

def text? : Data → Option String
  | .text value => some value
  | _ => none

def list? : Data → Option (List Data)
  | list items => some items
  | _ => none

def value? (entries : List (String × Data)) (name : String) : Option Data :=
  (entries.find? (·.1 == name)).map (·.2)

def listOf? {α : Type} (read : Data → Option α) (data : Data) : Option (List α) :=
  data.list?.bind (·.mapM read)

def texts? (data : Data) : Option (List String) :=
  data.listOf? text?

/-- The fields of a record that are given. A date counts as a table without any known field, and
`exact` refuses a list with more items than the record has fields. -/
def fields? (exact : Bool) (names : List String) : Data → Option (List (Option Data))
  | table entries => some (names.map (value? entries))
  | list items =>
      if exact && names.length < items.length then none
      else some ((List.range names.length).map (items[·]?))
  | date => some (names.map fun _ => none)
  | _ => none

/-- A field that may be left out. -/
def optional? {α : Type} (field : Option Data) (fallback : α) (read : Data → Option α) : Option α :=
  match field with
  | none => some fallback
  | some data => read data

end Data

end Requalify
