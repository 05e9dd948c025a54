import JsonShape.Typespace.Context

namespace JsonShape

mutual

-- What is done with a context: it ends with a result, looks at the names on the way, or makes a call and goes
-- on with what that gave.
inductive Traversal (α : Type)
  | done (result : α)
  | look (next : List String → Traversal α)
  | call (call : Call α) (next : α → Traversal α)

inductive Call (α : Type)
  | reference (name : String) (visit : Step → Traversal α)
  | alternative (hasMore : Bool) (body : Traversal α)

end

namespace Step

-- The context in which a step is visited. Only a new name changes it.
def enter (ctx : Context) : Step → Context
  | node _ inside => inside
  | cycle .. | unresolved => ctx

-- Takes back what the step changed in a context: the last name on the way, if the step added one.
def leave (ctx : Context) : Step → Context
  | node .. => { ctx with seen := ctx.seen.dropLast }
  | cycle .. | unresolved => ctx

end Step

-- Takes back what one member of a union changed in a context.
def Context.retract (ctx : Context) (hasMore : Bool) : Context :=
  if hasMore then { ctx with escapes := ctx.escapes - 1 } else ctx

mutual

-- The result of a traversal, and the context that it leaves behind.
def Traversal.run (space : Declarations) (ctx : Context) : Traversal α → α × Context
  | .done result => (result, ctx)
  | .look next => (next ctx.seen).run space ctx
  | .call call next =>
    let (result, behind) := call.run space ctx
    (next result).run space behind

def Call.run (space : Declarations) (ctx : Context) : Call α → α × Context
  | .reference name visit =>
    let step := ctx.reference space name
    let (result, behind) := (visit step).run space (step.enter ctx)
    (result, step.leave behind)
  | .alternative hasMore body =>
    let (result, behind) := body.run space (ctx.alternative hasMore)
    (result, behind.retract hasMore)

end

end JsonShape
