import ViewCompiler.Template.Node

/-!
# What a tree prints

Every node but text is written as a tag of the host language, and the host language drops one line
end directly after a tag. So the text that a tree prints is not the text it holds: one line end is
lost after every node that is no text, and at the start of every body. `visible` takes those line
ends away, so that the forms that do not use tags print the same.

Beside it stand the questions that decide between the forms: whether a tree prints text, runs host
statements, or has no control flow.
-/

namespace ViewCompiler.Template

/-! ## Line ends after tags -/

/-- The text without one line end at its start. -/
def dropLineEnd (s : String) : String :=
  match s.toList with
  | '\r' :: '\n' :: cs => String.ofList cs
  | '\n' :: cs => String.ofList cs
  | _ => s

/-- Text as it is printed, directly after a tag or not; empty text is no node. -/
def visibleText (afterTag : Bool) (content : String) : List Node :=
  let printed := if afterTag then dropLineEnd content else content
  if printed = "" then [] else [.text printed]

mutual

/-- A node other than text as it is printed: its bodies start directly after a tag. -/
def Node.visible : Node → Node
  | .conditional branches => .conditional (visibleBranches branches)
  | .loop head bindings body => .loop head bindings (visible true body)
  | .existence expression body => .existence expression (visible true body)
  | node => node

/-- Nodes as they are printed, directly after a tag or not. -/
def visible (afterTag : Bool) : List Node → List Node
  | [] => []
  | .text content :: nodes => visibleText afterTag content ++ visible false nodes
  | node :: nodes => node.visible :: visible true nodes

/-- Branches as they are printed. -/
def visibleBranches : List Branch → List Branch
  | [] => []
  | ⟨condition, body⟩ :: branches => ⟨condition, visible true body⟩ :: visibleBranches branches
end

/-! ## Text and host statements outside slots -/

mutual

/-- The node is or holds text, outside of slots. -/
def Node.printsText : Node → Bool
  | .text _ => true
  | .conditional branches => branchesPrintText branches
  | .loop _ _ body => printsText body
  | .existence _ body => printsText body
  | _ => false

/-- Some node is or holds text, outside of slots. -/
def printsText : List Node → Bool
  | [] => false
  | node :: nodes => node.printsText || printsText nodes

/-- Some branch holds text, outside of slots. -/
def branchesPrintText : List Branch → Bool
  | [] => false
  | ⟨_, body⟩ :: branches => printsText body || branchesPrintText branches
end

mutual

/-- The node is or holds host statements, outside of slots. -/
def Node.runsHost : Node → Bool
  | .host _ echo => !echo
  | .conditional branches => branchesRunHost branches
  | .loop _ _ body => runsHost body
  | .existence _ body => runsHost body
  | _ => false

/-- Some node is or holds host statements, outside of slots. -/
def runsHost : List Node → Bool
  | [] => false
  | node :: nodes => node.runsHost || runsHost nodes

/-- Some branch holds host statements, outside of slots. -/
def branchesRunHost : List Branch → Bool
  | [] => false
  | ⟨_, body⟩ :: branches => runsHost body || branchesRunHost branches
end

/-- The nodes are text, comments and interpolations only. -/
def isFlat (nodes : List Node) : Bool :=
  nodes.all fun node => node.isText || node.isComment || node.isInterpolation

end ViewCompiler.Template
