import JsonShape.Definition.Error

namespace JsonShape

inductive GenerateError
  | ungeneratable (definition reason : String)
  -- The definition was met again with these names on the way, and nothing could be picked instead.
  | requiredCycle (definition : String) (seen : List String)
deriving DecidableEq

namespace GenerateError

def isRequiredCycle : GenerateError → Bool
  | requiredCycle .. => true
  | ungeneratable .. => false

-- The names on the way with the one that was met again behind them.
def chain? : GenerateError → Option (List String)
  | requiredCycle definition seen => some (seen ++ [definition])
  | ungeneratable .. => none

def message : GenerateError → String
  | ungeneratable definition reason =>
    s!"Unable to generate a value for '{definition}': {reason}"
  | requiredCycle definition seen =>
    let chain := chainText (seen ++ [definition])
    s!"Unable to generate a value for '{definition}': Definition includes a required cycle:\n{chain}\n" ++
      "If you'd like to avoid throwing when this occurs, pass a value to return " ++
      "when this occurs to the 'onRequiredCycle' option."

end GenerateError

end JsonShape
