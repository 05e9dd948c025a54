import JsonShape.Node.Basic

namespace JsonShape

namespace Node

mutual

def same : Node → Node → Bool
  | primitive k, primitive l => k = l
  | literal k, literal l => k = l
  | reference m, reference n => m = n
  | list m, list n => same m n
  | tuple ms, tuple ns => sameAll ms ns
  | union ms, union ns => sameAll ms ns
  | optional m, optional n => same m n
  | struct ms, struct ns => ms.length = ns.length && sameFields ms ns
  | _, _ => false

def sameAll : List Node → List Node → Bool
  | [], [] => true
  | m :: ms, n :: ns => same m n && sameAll ms ns
  | _, _ => false

-- Does the second list hold every member of the first one?
def sameFields : List (String × Node) → List (String × Node) → Bool
  | [], _ => true
  | (key, m) :: ms, ns =>
    match ns.lookup key with
    | some n => same m n && sameFields ms ns
    | none => false

end

end Node

end JsonShape
