import QuorumLedger.CommandLine.Parameter
import QuorumLedger.Text.Escape
import QuorumLedger.Text.Similarity

namespace QuorumLedger.CommandLine

inductive UsageError where
  | invalidValue (parameter : Parameter) (value reason : String)
  | missingValue (parameter : Parameter)
  -- a value for a parameter that takes none, and whether no setting was given before it
  | needlessValue (parameter : Parameter) (value : String) ( isAlone : Bool)
  | repeated (parameter : Parameter)
  | unexpected (argument : String)
  -- a parameter that does not exist, though one of a similar name may
  | unknown (name : String) (similar : Option Parameter) (given : List Parameter)

-- A name is similar to another one when they are at least this alike.
def similarEnough : Float := 0.7

-- The parameter whose name is most like a word, and the last of those.
def similarFrom (word : List Char) (best : Option Parameter) (least : Float) :
    List Parameter → Option Parameter
  | [] => best
  | p :: rest =>
    let likeness := Text.Similarity.similarity word p.name.toList
    if similarEnough < likeness && least ≤ likeness then similarFrom word (some p) likeness rest
    else similarFrom word best least rest

def similar? (name : String) : Option Parameter :=
  similarFrom name.toList none 0 Parameter.all

namespace UsageError

open Text.Escape (bold)

-- The name of a parameter as it is given.
def long (name : String) : String := bold ("--" ++ name)

def headline : UsageError → String
  | invalidValue p value reason => s!"invalid value '{bold value}' for '{bold p.shown}': {reason}"
  | missingValue p => s!"a value is required for '{bold p.shown}' but none was supplied"
  | needlessValue p value _ =>
    s!"unexpected value '{bold value}' for '{bold p.shown}' found; no more were expected"
  | repeated p => s!"the argument '{bold p.shown}' cannot be used multiple times"
  | unexpected argument => s!"unexpected argument '{bold argument}' found"
  | unknown name _ _ => s!"unexpected argument '{long name}' found"

-- A parameter that may have been meant.
def tip? : UsageError → Option String
  | unknown _ (some p) _ =>
    some ("  " ++ bold "tip:" ++ s!" a similar argument exists: '{long p.name}'")
  | _ => none

-- How the program is called, where an argument does not belong. Beside a parameter that was given a
-- needless value, the settings given stand for all of them.
def usage? : UsageError → Option String
  | needlessValue p _ true => some (usage [p.shown])
  | needlessValue p _ false => some (usage [p.shown, Parameter.anySetting])
  | repeated _ => some (usage [])
  | unexpected _ => some (usage [])
  | unknown _ _ given => some (usage (given.map Parameter.shown))
  | _ => none

def text (e : UsageError) : String :=
  String.intercalate "\n\n"
    ([bold "error:" ++ " " ++ e.headline] ++ e.tip?.toList ++
      (e.usage?.map fun call => bold "Usage:" ++ " " ++ bold call).toList ++
      ["For more information, try '" ++ long "help" ++ "'."])

def lines (e : UsageError) : List String :=
  (Text.split '\n' (Text.Escape.strip e.text.toList)).map String.ofList

end UsageError

end QuorumLedger.CommandLine
