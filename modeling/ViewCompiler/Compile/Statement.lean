import ViewCompiler.Compile.Expression

/-!
# Trees as statements

The statements that append what a tree prints to an output variable. The tree is taken as it is
printed, without the line ends that tags would swallow.
-/

namespace ViewCompiler.Compile

open Template Php

mutual

/-- A node as a statement. -/
def statementOf (slot : SlotCompiler) (path : String) : Node → Emit Stmt
  | .comment content => return .comment content
  | .host code false => return .host code
  | .conditional branches => return .conditional (← branchesStatements slot path branches)
  | .loop head bindings body => return .loop head bindings (← statements slot path body)
  | .existence expression body => return .existence expression (← statements slot path body)
  | .flag kind expression => return .flag kind expression
  | node => return .append (← interpolation slot path node)

/-- Nodes as statements. -/
def statements (slot : SlotCompiler) (path : String) : List Node → Emit (List Stmt)
  | [] => return []
  | node :: nodes => return (← statementOf slot path node) :: (← statements slot path nodes)

/-- Branches as statements. -/
def branchesStatements (slot : SlotCompiler) (path : String) :
    List Branch → Emit (List StmtBranch)
  | [] => return []
  | ⟨condition, body⟩ :: branches =>
    return ⟨condition, ← statements slot path body⟩ :: (← branchesStatements slot path branches)
end

end ViewCompiler.Compile
