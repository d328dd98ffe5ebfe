namespace QuorumLedger.Toml

-- How a table came to be, which settles what may still be added to it.
inductive TableOrigin where
  -- by a header of its own
  | header
  -- as a part of the path of another header
  | implied
  -- by a dotted key
  | dotted
  -- in braces
  | inline
  deriving DecidableEq

-- Of floats and of dates and times only the kind is kept.
inductive Value where
  | string (text : String)
  | integer (n : Int)
  | float
  | boolean (b : Bool)
  | dateTime
  | array (items : List Value)
  | table (origin : TableOrigin) (entries : List (String × Value))
  -- the tables of one `[[header]]`
  | tables (items : List (List (String × Value)))

abbrev Entries := List (String × Value)

namespace Entries

def find? (key : String) : Entries → Option Value
  | [] => none
  | (k, v) :: rest => if k = key then some v else find? key rest

-- A known key keeps its place, a new one comes last.
def put (key : String) (value : Value) : Entries → Entries
  | [] => [(key, value)]
  | (k, v) :: rest => if k = key then (k, value) :: rest else (k, v) :: put key value rest

def erase (key : String) (entries : Entries) : Entries :=
  entries.filter fun e => !decide (e.1 = key)

end Entries

end QuorumLedger.Toml
