import ViewCompiler.Template.Frame
import ViewCompiler.Template.Lexemes

/-!
# From lexemes to the tree

The lexemes of a template are entered one after the other into a stack of open constructs. A
construct is closed by a lexeme of its own kind, a component by the closing tag of its name. A
lexeme that fits nowhere becomes text, and so does the opening of a construct that is never closed.
The only failure is a closing directive whose name, in lower case, is the name of none.
-/

namespace ViewCompiler.Template

/-! ## The state of a reading -/

/-- What has been read: the children at the top level and the open constructs, innermost first. -/
structure Reading where
  root : List Child
  frames : List Frame

/-- Why a template cannot be parsed. -/
inductive ParseError where
  /-- A closing directive was reached whose name in lower case closes nothing. -/
  | unknownCloser (name : String)

/-- The name in question, in quotes. -/
def ParseError.message : ParseError → String
  | unknownCloser name => "'" ++ name ++ "'"

namespace Reading

/-- Nothing has been read. -/
def start : Reading := ⟨[], []⟩

/-- Adds children to the innermost construct. -/
def add (new : List Child) (r : Reading) : Reading :=
  match r.frames with
  | [] => { r with root := addChildren r.root new }
  | frame :: frames =>
    { r with frames := { frame with children := addChildren frame.children new } :: frames }

/-- Adds text to the innermost construct. -/
def addText (content : String) (r : Reading) : Reading := r.add [.text content]

/-- Opens a construct. -/
def push (frame : Frame) (r : Reading) : Reading := { r with frames := frame :: r.frames }

/-- Gives up the innermost construct: what it holds goes to the construct around it. -/
def abandon (r : Reading) : Reading :=
  match r.frames with
  | [] => r
  | frame :: frames => { r with frames := frames }.add frame.unwrapped

/-- Gives up the `n` innermost constructs. -/
def abandonMany : Nat → Reading → Reading
  | 0, r => r
  | n + 1, r => abandonMany n r.abandon

/-- Closes the innermost construct. -/
def close (closing : String) (r : Reading) : Reading :=
  match r.frames with
  | [] => r
  | frame :: frames => { r with frames := frames }.add [frame.close closing]

/-- The innermost construct, if it has a property. -/
def top? (test : Frame → Bool) (r : Reading) : Option Frame := r.frames.head?.filter test

/-- Goes on with another branch of the innermost conditional; elsewhere the lexeme is text. -/
def branch (condition : Option String) (raw : String) (r : Reading) : Reading :=
  match r.frames with
  | [] => r.addText raw
  | frame :: frames =>
    match frame.branch? condition raw with
    | some next => { r with frames := next :: frames }
    | none => r.addText raw

/-- Closes the innermost component of a name, giving up what is open inside it; without such a
component the tag is text. -/
def closeTag (tag raw : String) (r : Reading) : Reading :=
  match r.frames.findIdx? (·.isComponent tag) with
  | some n => (r.abandonMany n).close raw
  | none => r.addText raw

/-- Closes the innermost construct if it has a property; elsewhere the lexeme is text. -/
def closeIf (test : Frame → Bool) (raw : String) (r : Reading) : Reading :=
  if (r.top? test).isSome then r.close raw else r.addText raw

/-- Enters one lexeme. -/
def step (r : Reading) (lexeme : Lexeme) : Except ParseError Reading :=
  match lexeme.saying with
  | .text => .ok (r.addText lexeme.raw)
  | .node node => .ok (r.add [.node node])
  | .opening construct => .ok (r.push (.ofOpening construct lexeme.raw))
  | .branch condition => .ok (r.branch condition lexeme.raw)
  | .closing (.unknown name) => .error (.unknownCloser name)
  | .closing construct => .ok (r.closeIf (·.closedBy construct) lexeme.raw)
  | .slotOpening name =>
    if (r.top? Frame.takesSlots).isSome then .ok (r.push ⟨.slot name, lexeme.raw, []⟩)
    else .ok (r.addText lexeme.raw)
  | .slotClosing => .ok (r.closeIf Frame.isSlot lexeme.raw)
  | .tagClosing tag => .ok (r.closeTag tag lexeme.raw)

/-- The nodes at the top level after everything that is still open is given up. -/
def finish (r : Reading) : List Node := nodesOf (r.abandonMany r.frames.length).root

end Reading

/-! ## Parsing -/

/-- Parses a template. -/
def parse (template : String) : Except ParseError (List Node) := do
  let reading ← (lexemes template).foldlM Reading.step .start
  return reading.finish

end ViewCompiler.Template
