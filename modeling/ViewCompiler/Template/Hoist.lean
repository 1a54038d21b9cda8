import ViewCompiler.Expression.Accessor
import ViewCompiler.Names
import ViewCompiler.Template.Visible

/-!
# Reading a path once

An accessor call that occurs more than once is evaluated once: its value is bound to a local
variable ahead of the occurrences, and the variable takes their place. Calls on the variables of a
loop are bound at the start of each iteration, all other calls ahead of the whole tree.

A loop assigns its variables anew, so a name is *shadowed* wherever a loop may have assigned it
since the place where the call would be bound. Only calls on names that are not shadowed are
replaced. Embedded host statements may assign anything; with such statements in a tree nothing is
bound ahead of it. The slots of components are trees of their own and are not entered.
-/

namespace ViewCompiler.Template

open Expression (DottedPath accessor)

/-! ## Shadowed names -/

mutual

/-- The variables that the loops in a node assign, outside of slots. -/
def Node.rebound : Node → List String
  | .loop head _ body => head.names ++ rebound body
  | .conditional branches => branchesRebind branches
  | .existence _ body => rebound body
  | _ => []

/-- The variables that the loops in nodes assign, outside of slots. A loop leaves its variables
assigned. -/
def rebound : List Node → List String
  | [] => []
  | node :: nodes => node.rebound ++ rebound nodes

/-- The variables that the loops in branches assign, outside of slots. -/
def branchesRebind : List Branch → List String
  | [] => []
  | ⟨_, body⟩ :: branches => rebound body ++ branchesRebind branches
end

/-! ## The expressions of a tree -/

/-- An expression of a tree and the names that are shadowed there. -/
structure Site where
  shadowed : List String
  expression : String

mutual

/-- The expressions of a node, in order, each with the names shadowed there. -/
def Node.sites (shadowed : List String) : Node → List Site
  | .echo expression _ => [⟨shadowed, expression⟩]
  | .conditional branches => branchSites shadowed branches
  | .loop head bindings body =>
    let inner := head.names ++ rebound body ++ shadowed
    ⟨shadowed, head.collection⟩ :: bindings.map (⟨inner, ·.value⟩) ++ sites inner body
  | .existence expression body => ⟨shadowed, expression⟩ :: sites shadowed body
  | .flag _ expression => [⟨shadowed, expression⟩]
  | .component _ attributes _ _ =>
    (attributes.filterMap Attribute.expression?).map (⟨shadowed, ·⟩)
  | _ => []

/-- The expressions of nodes, in order. The names that a node assigns are shadowed after it. -/
def sites (shadowed : List String) : List Node → List Site
  | [] => []
  | node :: nodes => node.sites shadowed ++ sites (node.rebound ++ shadowed) nodes

/-- The expressions of branches, in order. No branch shadows anything for another. -/
def branchSites (shadowed : List String) : List Branch → List Site
  | [] => []
  | ⟨condition, body⟩ :: branches =>
    condition.toList.map (⟨shadowed, ·⟩) ++ sites shadowed body ++ branchSites shadowed branches
end

mutual

/-- A node with every expression changed, by a function that knows the names shadowed there. -/
def Node.mapSites (f : Site → String) (shadowed : List String) : Node → Node
  | .echo expression escaped => .echo (f ⟨shadowed, expression⟩) escaped
  | .conditional branches => .conditional (mapBranchSites f shadowed branches)
  | .loop head bindings body =>
    let inner := head.names ++ rebound body ++ shadowed
    .loop { head with collection := f ⟨shadowed, head.collection⟩ }
      (bindings.map fun b => { b with value := f ⟨inner, b.value⟩ }) (mapSites f inner body)
  | .existence expression body => .existence (f ⟨shadowed, expression⟩) (mapSites f shadowed body)
  | .flag kind expression => .flag kind (f ⟨shadowed, expression⟩)
  | .component tag attributes content slots =>
    .component tag (attributes.map (·.mapExpression fun e => f ⟨shadowed, e⟩)) content slots
  | node => node

/-- Nodes with every expression changed. -/
def mapSites (f : Site → String) (shadowed : List String) : List Node → List Node
  | [] => []
  | node :: nodes => node.mapSites f shadowed :: mapSites f (node.rebound ++ shadowed) nodes

/-- Branches with every expression changed. -/
def mapBranchSites (f : Site → String) (shadowed : List String) : List Branch → List Branch
  | [] => []
  | ⟨condition, body⟩ :: branches =>
    ⟨condition.map fun e => f ⟨shadowed, e⟩, mapSites f shadowed body⟩ ::
      mapBranchSites f shadowed branches
end

/-! ## Hoisting repeated calls -/

/-- Which calls may be hoisted: a test of the variable and the names shadowed at the call. -/
abbrev Wanted := (name : String) → (shadowed : List String) → Bool

/-- The calls that may be hoisted, in order, with repetitions. -/
def wantedCalls (wanted : Wanted) (nodes : List Node) : List DottedPath :=
  (sites [] nodes).flatMap fun site =>
    (accessor.all site.expression).filter fun call =>
      wanted (String.ofList call.name) site.shadowed

/-- The calls that occur more than once, in the order of their first occurrence. -/
def repeated (calls : List DottedPath) : List DottedPath :=
  calls.eraseDups.filter fun call => 1 < calls.count call

/-- The base of the name for the value of a call: the variable and the path, dots as
underscores. -/
def hoistBase (call : DottedPath) : String :=
  "__" ++ String.ofList call.name ++ "_" ++
    String.ofList (call.path.map fun c => if c = '.' then '_' else c)

/-- A call and the name of the variable that holds its value. -/
structure Hoist where
  call : DottedPath
  name : String

/-- The local variable of a hoist. -/
def Hoist.binding (h : Hoist) : Binding := ⟨h.name, String.ofList h.call.call⟩

/-- Names for the values of calls, one after the other. -/
def nameCalls (taken : Names) : List DottedPath → List Hoist × Names
  | [] => ([], taken)
  | call :: calls =>
    let (name, taken) := reserve (hoistBase call) taken
    let (hoists, taken) := nameCalls taken calls
    (⟨call, name⟩ :: hoists, taken)

/-- A call as written, or the variable that holds its value if it is hoisted and may be
replaced. -/
def replaceCall (wanted : Wanted) (hoists : List Hoist) (shadowed : List String)
    (call : DottedPath) : List Char :=
  if wanted (String.ofList call.name) shadowed then
    match hoists.find? (·.call = call) with
    | some hoist => '$' :: hoist.name.toList
    | none => call.call
  else call.call

/-- The tree with the repeated calls among those wanted replaced, their local variables, and the
names taken afterwards. -/
def hoistRepeated (wanted : Wanted) (nodes : List Node) (taken : Names) :
    List Node × List Binding × Names :=
  match repeated (wantedCalls wanted nodes) with
  | [] => (nodes, [], taken)
  | call :: calls =>
    let (hoists, taken) := nameCalls taken (call :: calls)
    let replace (site : Site) : String :=
      accessor.respell (replaceCall wanted hoists site.shadowed) site.expression
    (mapSites replace [] nodes, hoists.map Hoist.binding, taken)

/-! ## Deduplication -/

/-- The calls on a loop's own variables, where no inner loop shadows them. -/
def ownCalls (head : LoopHead) : Wanted := fun name shadowed =>
  head.names.contains name && !shadowed.contains name

/-- The calls on names that no loop shadows. -/
def freeCalls : Wanted := fun name shadowed => !shadowed.contains name

mutual

/-- A node whose loops bind repeated calls on their own variables, inner loops first. -/
def Node.dedupLoops : Node → StateM Names Node
  | .conditional branches => return .conditional (← dedupBranches branches)
  | .existence expression body => return .existence expression (← dedupLoops body)
  | .loop head bindings body => do
    let body ← dedupLoops body
    if runsHost body then return .loop head bindings body
    else
      let (body, new, taken) := hoistRepeated (ownCalls head) body (← get)
      set taken
      return .loop head (bindings ++ new) body
  | node => return node

/-- Nodes whose loops bind repeated calls on their own variables once for each iteration. -/
def dedupLoops : List Node → StateM Names (List Node)
  | [] => return []
  | node :: nodes => return (← node.dedupLoops) :: (← dedupLoops nodes)

/-- Branches whose loops bind repeated calls on their own variables. -/
def dedupBranches : List Branch → StateM Names (List Branch)
  | [] => return []
  | ⟨condition, body⟩ :: branches =>
    return ⟨condition, ← dedupLoops body⟩ :: (← dedupBranches branches)
end

/-- The tree with repeated calls on free names bound ahead of it, and their local variables. -/
def dedupTop (nodes : List Node) : StateM Names (List Node × List Binding) := do
  if runsHost nodes then return (nodes, [])
  else
    let (nodes, bindings, taken) := hoistRepeated freeCalls nodes (← get)
    set taken
    return (nodes, bindings)

/-- The tree with all repeated calls bound, and the local variables ahead of it. -/
def dedup (nodes : List Node) : StateM Names (List Node × List Binding) := do
  dedupTop (← dedupLoops nodes)

end ViewCompiler.Template
