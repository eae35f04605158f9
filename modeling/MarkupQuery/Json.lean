namespace MarkupQuery

/-- A JSON value; a number is kept as it is written. -/
inductive Json where
  | null
  | boolean (value : Bool)
  | number (written : String)
  | text (value : String)
  | array (items : List Json)
  | object (members : List (String × Json))

namespace Json

instance : Inhabited Json := ⟨null⟩

abbrev Members := List (String × Json)

def insert (key : String) (value : Json) : Members → Members
  | [] => [(key, value)]
  | (k, v) :: rest =>
    if k == key then (k, value) :: rest else (k, v) :: insert key value rest

/-- Appends an item to the array under a name, which is made if it is missing. -/
def push (key : String) (item : Json) : Members → Members
  | [] => [(key, array [item])]
  | (k, v) :: rest =>
    if k == key then
      match v with
      | array items => (k, array (items ++ [item])) :: rest
      | _ => (k, v) :: rest
    else (k, v) :: push key item rest

end Json

end MarkupQuery
