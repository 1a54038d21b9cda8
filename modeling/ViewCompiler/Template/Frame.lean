import ViewCompiler.Template.Lexeme

/-!
# Open constructs

While a template is read, the constructs that are not closed yet form a stack of frames. A frame
knows how it was written, so that a construct that is never closed can be printed as text around
what it holds. Text children next to each other are always one child, and no child is empty text.
-/

namespace ViewCompiler.Template

/-! ## Children -/

/-- A child of an open construct: a finished node, or a finished named slot that waits for its
component to close. A slot remembers how its tags were written. -/
inductive Child where
  | node (node : Node)
  | slot (name opening : String) (body : List Node) (closing : String)

/-- The child that is a piece of text. -/
def Child.text (content : String) : Child := .node (.text content)

/-- Adds text that is not empty to the last child if that is text, else as a new child. -/
def addText (content : String) : List Child → List Child
  | [] => [.text content]
  | [.node (.text before)] => [.text (before ++ content)]
  | child :: children => child :: addText content children

/-- Adds a child at the end. -/
def addChild (children : List Child) : Child → List Child
  | .node (.text content) => if content = "" then children else addText content children
  | child => children ++ [child]

/-- Adds children at the end, one after the other. -/
def addChildren (children new : List Child) : List Child := new.foldl addChild children

/-- The nodes among children. -/
def nodesOf (children : List Child) : List Node :=
  children.filterMap fun child =>
    match child with
    | .node node => some node
    | .slot .. => none

/-- The named slots among children. -/
def slotsOf (children : List Child) : List NamedSlot :=
  children.filterMap fun child =>
    match child with
    | .node _ => none
    | .slot name _ body _ => some ⟨name, body⟩

/-- A child where its component is text: a slot becomes its body between its tags as written. -/
def Child.unwrapped : Child → List Child
  | .node value => [.node value]
  | .slot _ opening body closing => .text opening :: body.map Child.node ++ [.text closing]

/-! ## Frames -/

/-- A branch of a conditional that is not closed yet. -/
structure Arm where
  condition : Option String
  raw : String
  children : List Child

/-- What a frame will be when it closes. -/
inductive Construct where
  /-- A conditional, with the branches before the current one, the current condition, and whether
  the alternative was started. -/
  | conditional (finished : List Arm) (condition : Option String) (hasElse : Bool)
  | loop (head : LoopHead)
  | existence (expression : String)
  | component (tag : String) (attributes : List Attribute)
  | slot (name : String)

/-- An open construct: what it is, how its last opening lexeme was written, and the children since
then. -/
structure Frame where
  construct : Construct
  raw : String
  children : List Child

namespace Frame

/-- The frame of a construct that was just opened. -/
def ofOpening (opening : Opening) (raw : String) : Frame :=
  match opening with
  | .conditional condition => ⟨.conditional [] (some condition) false, raw, []⟩
  | .loop head => ⟨.loop head, raw, []⟩
  | .existence expression => ⟨.existence expression, raw, []⟩
  | .component tag attributes => ⟨.component tag attributes, raw, []⟩

/-- The branches of a frame; a construct other than a conditional has one. -/
def arms (frame : Frame) : List Arm :=
  match frame.construct with
  | .conditional finished condition _ => finished ++ [⟨condition, frame.raw, frame.children⟩]
  | _ => [⟨none, frame.raw, frame.children⟩]

/-- The children that a frame leaves when it is never closed: its opening lexemes as text, with its
children between them. A component has its slots back as they were written. -/
def unwrapped (frame : Frame) : List Child :=
  match frame.construct with
  | .component .. => .text frame.raw :: frame.children.flatMap Child.unwrapped
  | _ => frame.arms.flatMap fun arm => .text arm.raw :: arm.children

/-- The content of a component's default slot: its children without the named slots. -/
def defaultContent (children : List Child) : List Node :=
  nodesOf (addChildren [] ((nodesOf children).map Child.node))

/-- The finished child, for a frame whose closing lexeme is `closing`. -/
def close (frame : Frame) (closing : String) : Child :=
  match frame.construct with
  | .conditional .. =>
    .node (.conditional (frame.arms.map fun arm => ⟨arm.condition, nodesOf arm.children⟩))
  | .loop head => .node (.loop head [] (nodesOf frame.children))
  | .existence expression => .node (.existence expression (nodesOf frame.children))
  | .component tag attributes =>
    .node (.component tag attributes (defaultContent frame.children)
      (collectBy NamedSlot.name (slotsOf frame.children)))
  | .slot name => .slot name frame.raw (nodesOf frame.children) closing

/-- The frame is the component that a closing tag names. -/
def isComponent (tag : String) (frame : Frame) : Bool :=
  match frame.construct with
  | .component name _ => name == tag
  | _ => false

/-- The frame goes on with another branch, if it is a conditional that has no alternative yet. A
branch without a condition is the alternative. -/
def branch? (frame : Frame) (condition : Option String) (raw : String) : Option Frame :=
  match frame.construct with
  | .conditional finished current false =>
    let finished := finished ++ [⟨current, frame.raw, frame.children⟩]
    some ⟨.conditional finished condition condition.isNone, raw, []⟩
  | _ => none

/-- A closing directive closes the frame. -/
def closedBy (frame : Frame) (closing : Closing) : Bool :=
  match closing, frame.construct with
  | .conditional, .conditional .. | .loop, .loop _ | .existence, .existence _ => true
  | _, _ => false

/-- The frame can hold named slots. -/
def takesSlots (frame : Frame) : Bool :=
  match frame.construct with
  | .component .. => true
  | _ => false

/-- The frame is a named slot. -/
def isSlot (frame : Frame) : Bool :=
  match frame.construct with
  | .slot _ => true
  | _ => false

end Frame

end ViewCompiler.Template
