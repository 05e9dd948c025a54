import JsonShape.Typespace.Traversal

namespace JsonShape

inductive Visit
  | reference (name : String) (inside : List Visit)
  | alternative (hasMore : Bool) (inside : List Visit)

-- What a visit meets. Visits are counted as they start.
inductive VisitEvent
  | node (node : Node) (seen : List String) (count : Nat)
  | cycle (node : Node) (cycle : Cycle) (count : Nat)
  | unresolved (name : String) (count : Nat)
  -- The names on the way behind a visit.
  | left (seen : List String)

-- The events of the visits so far, and how many have been made.
abbrev VisitLog := List VisitEvent × Nat

namespace Visit

-- What following a name meets.
def event (name : String) (seen : List String) (count : Nat) : Step → VisitEvent
  | .node node _ => .node node seen count
  | .cycle node cycle => .cycle node cycle count
  | .unresolved => .unresolved name count

-- Goes on behind a visit, with a look at the names on the way.
def leave (next : VisitLog → Traversal VisitLog) (log : VisitLog) : Traversal VisitLog :=
  .look fun seen => next (log.1 ++ [.left seen], log.2)

mutual

-- The traversal that makes a visit and goes on behind it.
def traversal (next : VisitLog → Traversal VisitLog) (log : VisitLog) : Visit → Traversal VisitLog
  | reference name inside =>
    let visit step := .look fun seen =>
      traversalAll .done (log.1 ++ [event name seen (log.2 + 1) step], log.2 + 1) inside
    .call (.reference name visit) (leave next)
  | alternative hasMore inside =>
    .call (.alternative hasMore (traversalAll .done (log.1, log.2 + 1) inside)) (leave next)

def traversalAll (next : VisitLog → Traversal VisitLog) (log : VisitLog) :
    List Visit → Traversal VisitLog
  | [] => next log
  | visit :: rest => visit.traversal (fun log => traversalAll next log rest) log

end

def runAll (space : Declarations) (ctx : Context) (count : Nat) (visits : List Visit) : VisitLog :=
  ((traversalAll .done ([], count) visits).run space ctx).1

end Visit

end JsonShape
