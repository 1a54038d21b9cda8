import ViewCompiler.Php.Printer
import ViewCompiler.Proofs.Template.Running

/-!
# Running the code that is written

What the PHP trees do when they are executed: which tests they make, which elements loops run over,
which variables they assign on the way, and what they print, each as an `Act`. Expressions are
pure: they print nothing themselves and assign nothing, and neither does the rendering of a
component, which gets the strings that its slots yield.

Two rules of PHP are stated here independently of the compiler. A closure sees the variables that
it captures and those that are the same in every scope, and nothing else; an arrow function sees
all. And of the text after a tag one line end is not printed, where all the text up to the next tag
counts, so in markup the text is held back until a tag or the end of the body comes (`execMarkup`).
-/

namespace ViewCompiler.Php

open Template (Store Binding LoopHead uncapturable dropLineEnd slotName flagText)

/-- The variable that statements append to. -/
def outputVariable : String := "__out"

/-- The variable that holds the elements of a loop that is mapped. -/
def itemsVariable : String := "__items"

/-! ## Machines -/

/-- The PHP that the code runs on: the host language of the templates, and what else the code asks
of it. -/
structure Machine extends Template.Host where
  /-- The value of a variable that is not assigned. -/
  unset : Value
  /-- A string as a value. -/
  ofText : String → Value
  /-- The content of a slot, from the value of its variable: what a closure gives, or the value. -/
  slotText : Value → String
  /-- What a component prints: from its class, its props, the strings that its named slots yield,
  and the string that its default slot yields. A prop is a flag, a string or a value. -/
  render : String → List (String × Option (String ⊕ Value)) → List (String × String) →
    Option String → String
  /-- A value that a loop can run over, with finitely many elements. -/
  isCollection : Value → Bool
  /-- The array of the elements of a collection, with its keys or with numbers. -/
  toArray : Bool → Value → Value

namespace Machine

/-- The rules of PHP that the compiler relies on. -/
structure Lawful (machine : Machine) : Prop where
  /-- A string is printed as it is. -/
  shown_ofText : ∀ text, machine.shown (machine.ofText text) = text
  /-- A loop over a false value has no elements. -/
  elements_of_false : ∀ v, machine.holds v = false → machine.elements v = []
  /-- The empty array is a collection without elements. -/
  isCollection_empty : machine.isCollection (machine.value "[]" []) = true
  elements_empty : machine.elements (machine.value "[]" []) = []
  /-- The array of a collection whose keys are all different has the same elements. -/
  elements_toArray : ∀ v, machine.isCollection v = true →
    ((machine.elements v).map Prod.fst).Nodup → machine.elements (machine.toArray true v) =
      machine.elements v
  /-- The array without the keys has the same values. -/
  values_toArray : ∀ v, machine.isCollection v = true →
    (machine.elements (machine.toArray false v)).map Prod.snd = (machine.elements v).map Prod.snd

/-- A machine whose values are lists of strings: an expression has the value of its variable if it
mentions one only, and all host statements print the same. -/
def ofLists (performed : String) : Machine where
  Value := List String
  value _ mentions :=
    match mentions with
    | [(_, v)] => v
    | _ => []
  holds v := !v.isEmpty
  isPresent v := !v.isEmpty
  shown := String.join
  escaped := String.join
  elements v := v.map fun text => ([text], [text])
  component _ _ _ _ _ := ""
  perform _ s := (performed, s)
  unset := []
  ofText text := [text]
  slotText := String.join
  render className props slots content :=
    className ++ String.join (props.map fun p =>
        match p.2 with
        | none => ""
        | some (.inl text) => text
        | some (.inr v) => String.join v) ++
      String.join (slots.map Prod.snd) ++ content.getD ""
  isCollection _ := true
  toArray _ v := v

/-- The machine of lists is lawful, whatever host statements do. -/
theorem lawful_ofLists (performed : String) : (ofLists performed).Lawful where
  shown_ofText text := by
    show String.join [text] = text
    rw [String.join_cons, String.join_nil, String.append_empty]
  elements_of_false v h := by
    match v with
    | [] => rfl
  isCollection_empty := rfl
  elements_empty := rfl
  elements_toArray _ _ _ := rfl
  values_toArray _ _ := rfl

/-- The variables of a closure when it is called: the captured ones, and those that are the same in
every scope. -/
def closed (machine : Machine) (uses : List String) (s : Store machine.Value) :
    Store machine.Value :=
  fun x => if x ∈ uses ∨ x ∈ uncapturable then s x else machine.unset

/-- Assigns the parameters of a mapping function for one element, in order. -/
def pass (machine : Machine) (head : LoopHead) (element : machine.Value × machine.Value)
    (s : Store machine.Value) : Store machine.Value :=
  let s :=
    match head.key with
    | some key => Function.update s key element.1
    | none => s
  Function.update s head.item element.2

end Machine

/-! ## Acts -/

/-- A step of a run that can be observed. -/
inductive Act (α : Type) where
  /-- Literal text is printed. -/
  | literal (text : String)
  /-- A value is printed through the escaping function. -/
  | escaped (value : α)
  /-- A value is printed. -/
  | raw (value : α)
  /-- The content of the default slot is printed. -/
  | slot (text : String)
  | component (className : String) (text : String)
  /-- A boolean attribute is printed. -/
  | fragment (text : String)
  /-- A condition is tested. -/
  | test (condition : String) (holds : Bool)
  /-- It is tested whether an expression is not empty. -/
  | presence (expression : String) (isPresent : Bool)
  /-- A loop turns to an element, a key and a value. -/
  | element (key item : α)
  /-- A local variable of a loop is assigned. -/
  | assign (name : String) (value : α)
  /-- Host statements print. -/
  | host (text : String)

section Running

variable (machine : Machine)

/-- What an act prints. -/
def Act.text : Act machine.Value → String
  | .literal text | .slot text | .component _ text | .fragment text | .host text => text
  | .escaped v => machine.escaped v
  | .raw v => machine.shown v
  | .test .. | .presence .. | .element .. | .assign .. => ""

/-- What acts print, one after the other. -/
def output (acts : List (Act machine.Value)) : String := String.join (acts.map (Act.text machine))

/-- What a run does, and the variables afterwards. -/
abbrev Exec := Store machine.Value → List (Act machine.Value) × Store machine.Value

namespace Exec

variable {machine} {α : Type}

/-- Acts without assigning a variable. -/
def acting (acts : Store machine.Value → List (Act machine.Value)) : Exec machine :=
  fun s => (acts s, s)

/-- Nothing is done. -/
def skip : Exec machine := acting fun _ => []

/-- One run after the other. -/
def andThen (first second : Exec machine) : Exec machine := fun s =>
  ((first s).1 ++ (second (first s).2).1, (second (first s).2).2)

/-- One run for each element of a list, one after the other. -/
def forEach (once : α → Exec machine) : List α → Exec machine
  | [] => skip
  | a :: as => (once a).andThen (forEach once as)

/-- A test, and then one of two runs. -/
def branch (test : Store machine.Value → Bool) (act : Bool → Act machine.Value)
    (first second : Exec machine) : Exec machine := fun s =>
  ((act (test s)) :: (if test s then first s else second s).1,
    (if test s then first s else second s).2)

end Exec

/-! ## Parts that both forms of code have -/

/-- Local variables are assigned one after the other. -/
def execLocals : List Binding → Exec machine
  | [] => Exec.skip
  | b :: bs => Exec.andThen
    (fun s => ([.assign b.name (machine.eval b.value s)], machine.bind b s)) (execLocals bs)

/-- A loop turns to an element: its variables and its local variables are assigned. -/
def execElement (head : LoopHead) (locals : List Binding)
    (element : machine.Value × machine.Value) : Exec machine :=
  Exec.andThen (fun s => ([.element element.1 element.2], machine.assign head element s))
    (execLocals machine locals)

/-- A loop: its collection is evaluated once. -/
def execLoop (head : LoopHead) (locals : List Binding) (body : Exec machine) : Exec machine :=
  fun s => Exec.forEach (fun element => (execElement machine head locals element).andThen body)
    (machine.elements (machine.eval head.collection s)) s

/-- A condition is tested; an alternative without a condition is not. -/
def execBranch (condition : Option String) (body rest : Exec machine) : Exec machine :=
  match condition with
  | none => body
  | some e => Exec.branch (fun s => machine.holds (machine.eval e s)) (.test e) body rest

/-- A body for when an expression is not empty. -/
def execPresence (expression : String) (body : Exec machine) : Exec machine :=
  Exec.branch (fun s => machine.isPresent (machine.eval expression s)) (.presence expression) body
    Exec.skip

/-- Host statements are performed; what they print is printed if it is anything. -/
def execHost (code : String) : Exec machine := fun s =>
  (if (machine.perform code s).1 = "" then [] else [.host (machine.perform code s).1],
    (machine.perform code s).2)

/-- A text that follows a tag or other text is printed if it is not empty. -/
def literalActs (text : String) : List (Act machine.Value) :=
  if text = "" then [] else [.literal text]

/-- The value of a prop; a flag has none. -/
def PropValue.argument (s : Store machine.Value) : PropValue → Option (String ⊕ machine.Value)
  | .flag => none
  | .expression code => some (.inr (machine.eval code s))
  | .literal content => some (.inl content)

/-- What is appended to the output variable. -/
def appending (acts : List (Act machine.Value)) (s : Store machine.Value) : Store machine.Value :=
  Function.update s outputVariable
    (machine.ofText (machine.shown (s outputVariable) ++ output machine acts))

/-! ## Expressions, slots, statements and markup -/

mutual

/-- What is printed where the value of an expression is. -/
def Expr.acts (s : Store machine.Value) : Expr → List (Act machine.Value)
  | .literal content => literalActs machine content
  | .code code | .operand code | .asString code => [.raw (machine.eval code s)]
  | .escaped code => [.escaped (machine.eval code s)]
  | .slotValue | .slotString => [.slot (machine.slotText (s slotName))]
  | .concat parts => actsOfAll s parts
  | .component className props slots content =>
    [.component className (machine.render className
      (props.map fun p => (p.name, p.value.argument machine s)) (slotYields s slots)
      (contentYield s content))]

/-- What is printed where the values of expressions are, one after the other. -/
def actsOfAll (s : Store machine.Value) : List Expr → List (Act machine.Value)
  | [] => []
  | value :: values => value.acts s ++ actsOfAll s values

/-- The strings that named slots yield. -/
def slotYields (s : Store machine.Value) : List SlotArgument → List (String × String)
  | [] => []
  | ⟨name, value⟩ :: slots => (name, value.yield s) :: slotYields s slots

/-- The string that a default slot yields, if there is one. -/
def contentYield (s : Store machine.Value) : Option SlotCode → Option String
  | none => none
  | some value => some (value.yield s)

/-- The string that the value of a slot yields. -/
def SlotCode.yield (s : Store machine.Value) : SlotCode → String
  | .literal content => content
  | .expression value => output machine (value.acts s)
  | .statements uses locals body =>
    machine.shown ((execStatements body (Function.update
      (machine.bindAll locals (machine.closed uses s)) outputVariable (machine.ofText ""))).2
        outputVariable)
  | .buffered uses locals body =>
    output machine (execMarkup (dropLineEnd ∘ afterTag) "" body
      (machine.bindAll locals (machine.closed uses s))).1

/-- What a statement does. -/
def Stmt.exec : Stmt → Exec machine
  | .comment _ => Exec.skip
  | .host code => if statement code = "" then Exec.skip else execHost machine (statement code)
  | .append value => fun s => (value.acts s, appending machine (value.acts s) s)
  | .conditional branches => execStmtBranches branches
  | .loop head locals body => execLoop machine head locals (execStatements body)
  | .existence expression body => execPresence machine expression (execStatements body)
  | .flag kind expression => execBranch machine (some expression)
      (fun s => ([.fragment (flagText kind)], appending machine [.fragment (flagText kind)] s))
      Exec.skip

/-- What statements do, one after the other. -/
def execStatements : List Stmt → Exec machine
  | [] => Exec.skip
  | s :: rest => s.exec.andThen (execStatements rest)

/-- The first branch whose condition holds. -/
def execStmtBranches : List StmtBranch → Exec machine
  | [] => Exec.skip
  | ⟨condition, body⟩ :: branches =>
    execBranch machine condition (execStatements body) (execStmtBranches branches)

/-- What a tag does. -/
def Markup.exec : Markup → Exec machine
  | .text content => Exec.acting fun _ => literalActs machine content
  | .comment _ => Exec.skip
  | .host code => execHost machine code
  | .echo value => Exec.acting fun s => value.acts s
  | .conditional branches => execMarkupBranches branches
  | .loop head locals body => execLoop machine head locals (execMarkup dropLineEnd "" body)
  | .existence expression body =>
    execPresence machine expression (execMarkup dropLineEnd "" body)
  | .flag kind expression => execBranch machine (some expression)
      (Exec.acting fun _ => [.fragment (flagText kind)]) Exec.skip

/-- What markup does: `held` is the text since the last tag, of which `printed` is printed. -/
def execMarkup (printed : String → String) (held : String) : List Markup → Exec machine
  | [] => Exec.acting fun _ => literalActs machine (printed held)
  | .text content :: parts => execMarkup printed (held ++ content) parts
  | part :: parts =>
    (Exec.acting fun _ => literalActs machine (printed held)).andThen
      (part.exec.andThen (execMarkup dropLineEnd "" parts))

/-- The first branch whose condition holds. -/
def execMarkupBranches : List MarkupBranch → Exec machine
  | [] => Exec.skip
  | ⟨condition, body⟩ :: branches =>
    execBranch machine condition (execMarkup dropLineEnd "" body) (execMarkupBranches branches)
end

/-! ## Slots and units -/

/-- What is done when the string that the value of a slot yields is asked for. -/
def SlotCode.acts (s : Store machine.Value) : SlotCode → List (Act machine.Value)
  | .literal content => literalActs machine content
  | .expression value => value.acts machine s
  | .statements uses locals body =>
    (execStatements machine body (Function.update
      (machine.bindAll locals (machine.closed uses s)) outputVariable (machine.ofText ""))).1
  | .buffered uses locals body =>
    (execMarkup machine (dropLineEnd ∘ afterTag) "" body
      (machine.bindAll locals (machine.closed uses s))).1

namespace LoopMap

/-- The array that is mapped; a false collection has no elements. -/
def items (map : LoopMap) (s : Store machine.Value) : machine.Value :=
  let collection := machine.eval map.head.collection s
  machine.toArray map.head.key.isSome
    (if machine.holds collection then collection else machine.value "[]" [])

/-- The variables that the mapping function sees. Without local variables it is an arrow
function. -/
def outside (map : LoopMap) (s : Store machine.Value) : Store machine.Value :=
  if map.locals.isEmpty then s else machine.closed map.uses s

/-- The variables in the mapping function for one element. -/
def entered (map : LoopMap) (s : Store machine.Value) (element : machine.Value × machine.Value) :
    Store machine.Value :=
  machine.bindAll map.locals (machine.pass map.head element (map.outside machine s))

/-- What is printed for a mapped loop. -/
def acts (map : LoopMap) (s : Store machine.Value) : List (Act machine.Value) :=
  let s := Function.update s itemsVariable (map.items machine s)
  map.before.toList.flatMap (literalActs machine) ++
    (machine.elements (s itemsVariable)).flatMap
      (fun element => map.value.acts machine (map.entered machine s element)) ++
    map.after.toList.flatMap (literalActs machine)

end LoopMap

/-- What the body of a unit does. Markup that is buffered starts on the line after a tag. -/
def UnitBody.acts (s : Store machine.Value) : UnitBody → List (Act machine.Value)
  | .value expression => expression.acts machine s
  | .mapping map => map.acts machine s
  | .buffered body => (execMarkup machine (dropLineEnd ∘ ("\n" ++ ·)) "" body s).1

/-- The string that the body of a unit yields. -/
def UnitBody.yield (body : UnitBody) (s : Store machine.Value) : String :=
  output machine (body.acts machine s)

/-- The act prints something. -/
def Act.prints : Act machine.Value → Bool
  | .test .. | .presence .. | .element .. | .assign .. => false
  | _ => true

end Running

end ViewCompiler.Php
