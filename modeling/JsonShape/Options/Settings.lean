import JsonShape.Model
import JsonShape.Options.Record

namespace JsonShape

def ReturnAs.format : Format ReturnAs :=
  .enumeration [("message", .message), ("map", .map)]

def ValidateOptions.format : Format ValidateOptions :=
  .record "ValidateOptions" {}
    [.of "ignoreExtraneousKeys" .flag fun ignoreExtraneousKeys o => { o with ignoreExtraneousKeys },
     .of "returnAs" (.optional ReturnAs.format) fun returnAs o => { o with returnAs }]

-- A `null` for cycles is a value like any other.
def GenerateOptions.format : Format GenerateOptions :=
  .record "GenerateOptions" {} [.of "onRequiredCycle" .value fun value _ => ⟨some value⟩]

-- A filter is written as the text that names have to contain.
def Filter.format : Format Filter :=
  (Format.text "a string").map Filter.contains

def ReferencesOptions.format : Format ReferencesOptions :=
  .record "ReferencesOptions" {}
    [.of "asUnorderedList" .flag fun asUnorderedList o => { o with asUnorderedList },
     .of "asList" .flag fun asList o => { o with asList },
     .of "filter" (.optional Filter.format) fun filter o => { o with filter },
     .of "transitive" .flag fun transitive o => { o with transitive }]

def ModelOptions.format : Format ModelOptions :=
  .record "ModelOptions" {}
    [.of "typespace" (.optional .value) fun typespace o => { o with typespace },
     .of "validate" ValidateOptions.format fun validate o => { o with validate },
     .of "generate" GenerateOptions.format fun generate o => { o with generate }]

end JsonShape
