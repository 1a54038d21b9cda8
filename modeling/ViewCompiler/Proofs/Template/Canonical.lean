import ViewCompiler.Proofs.Template.Tokens
import ViewCompiler.Proofs.Text.Blank

/-!
# Printing a tree

`written` prints a tree as a template, in one way for each kind of node. `Canonical` says which
trees are what the parser makes of such a text: no text is empty or next to other text, no text,
expression or name holds what would end or start another lexeme, and what is trimmed by the parser
is trimmed. Which texts may start the alternative of a conditional is a parameter, because a text
there can go on with the keyword before it.
-/

namespace ViewCompiler.Template

open Text (isBlank IsTrimmed foldedWord?)
open Expression (IsGroup StopsAt isIdentifier isWordChar)

/-! ## Printing -/

/-- A text between blanks. -/
def padded (s : String) : List Char := ' ' :: (s.toList ++ [' '])

/-- A directive with arguments. -/
def writtenDirective (keyword : String) (arguments : List Char) : List Char :=
  '@' :: (keyword.toList ++ '(' :: (arguments ++ [')']))

/-- The variables of a loop. -/
def LoopHead.writtenNames (head : LoopHead) : List Char :=
  match head.key with
  | some key => '$' :: (key.toList ++ (" => $".toList ++ head.item.toList))
  | none => '$' :: head.item.toList

/-- The arguments of a loop. -/
def LoopHead.written (head : LoopHead) : List Char :=
  head.collection.toList ++ (" as ".toList ++ head.writtenNames)

/-- An attribute in a tag. -/
def Attribute.written (a : Attribute) : List Char :=
  match a.value with
  | some value => a.spelling.toList ++ '=' :: '"' :: (value.toList ++ ['"'])
  | none => a.spelling.toList

/-- The attributes of a tag, each behind a blank. -/
def writtenAttributes (attributes : List Attribute) : List Char :=
  attributes.flatMap fun a => ' ' :: a.written

/-- What opens a branch of a conditional. -/
def writtenBranch (first : Bool) : Option String → List Char
  | some condition => writtenDirective (if first then "if" else "elseif") condition.toList
  | none => "@else".toList

mutual

/-- A node as a template. -/
def Node.written : Node → List Char
  | .text content => content.toList
  | .comment content => "\x7b\x7b--".toList ++ (padded content ++ "--\x7d\x7d".toList)
  | .echo expression false =>
    "\x7b\x7b\x7b".toList ++ (padded expression ++ "\x7d\x7d\x7d".toList)
  | .echo expression true => "\x7b\x7b".toList ++ (padded expression ++ "\x7d\x7d".toList)
  | .host code false => "<?php".toList ++ (padded code ++ "?>".toList)
  | .host code true => "<?=".toList ++ (padded code ++ "?>".toList)
  | .conditional branches => writtenBranches true branches ++ "@endif".toList
  | .loop head _ body => writtenDirective "each" head.written ++
    (written body ++ "@endeach".toList)
  | .existence expression body =>
    writtenDirective "has" expression.toList ++ (written body ++ "@endhas".toList)
  | .flag kind expression => writtenDirective kind expression.toList
  | .component tag attributes content slots =>
    let opening := "<x-".toList ++ (tag.toList ++ writtenAttributes attributes)
    if content.isEmpty && slots.isEmpty then opening ++ " />".toList
    else
      opening ++ '>' :: (writtenSlots slots ++
        (written content ++ ("</x-".toList ++ (tag.toList ++ ['>']))))

/-- Nodes as a template. -/
def written : List Node → List Char
  | [] => []
  | node :: nodes => node.written ++ written nodes

/-- The branches of a conditional, all or those after the first. -/
def writtenBranches (first : Bool) : List Branch → List Char
  | [] => []
  | ⟨condition, body⟩ :: branches =>
    writtenBranch first condition ++ (written body ++ writtenBranches false branches)

/-- Named slots. -/
def writtenSlots : List NamedSlot → List Char
  | [] => []
  | ⟨name, body⟩ :: slots =>
    "<x-slot:".toList ++ (name.toList ++ '>' :: (written body ++
      ("</x-slot>".toList ++ writtenSlots slots)))
end

/-! Each kind of node as a template, so that no proof unfolds the recursion. -/

section Written

variable (nodes body content : List Node) (branches : List Branch) (slots : List NamedSlot)
variable (expression name tag : String)

/-- Text is written as it is. -/
@[simp] theorem written_text : (Node.text expression).written = expression.toList := rfl

/-- How a comment is written. -/
@[simp] theorem written_comment :
    (Node.comment expression).written =
      "\x7b\x7b--".toList ++ (padded expression ++ "--\x7d\x7d".toList) := rfl

/-- How a raw echo is written. -/
@[simp] theorem written_echo_false :
    (Node.echo expression false).written =
      "\x7b\x7b\x7b".toList ++ (padded expression ++ "\x7d\x7d\x7d".toList) := rfl

/-- How an escaped echo is written. -/
@[simp] theorem written_echo_true :
    (Node.echo expression true).written =
      "\x7b\x7b".toList ++ (padded expression ++ "\x7d\x7d".toList) := rfl

/-- How host code is written. -/
@[simp] theorem written_host_false :
    (Node.host expression false).written =
      "<?php".toList ++ (padded expression ++ "?>".toList) := rfl

/-- How an echo of host code is written. -/
@[simp] theorem written_host_true :
    (Node.host expression true).written = "<?=".toList ++ (padded expression ++ "?>".toList) := rfl

/-- A conditional is its branches and a closing directive. -/
@[simp] theorem written_conditional :
    (Node.conditional branches).written = writtenBranches true branches ++ "@endif".toList := rfl

/-- A loop is its head, its body and a closing directive. -/
@[simp] theorem written_loop (head : LoopHead) (bindings : List Binding) :
    (Node.loop head bindings body).written =
      writtenDirective "each" head.written ++ (written body ++ "@endeach".toList) := rfl

/-- An existence check is its directive, its body and a closing directive. -/
@[simp] theorem written_existence :
    (Node.existence expression body).written =
      writtenDirective "has" expression.toList ++ (written body ++ "@endhas".toList) := rfl

/-- A flag is a directive with its expression. -/
@[simp] theorem written_flag :
    (Node.flag name expression).written = writtenDirective name expression.toList := rfl

/-- A component without content is one self-closing tag, any other a pair of tags around its slots
and content. -/
@[simp] theorem written_component (attributes : List Attribute) :
    (Node.component tag attributes content slots).written =
      if content.isEmpty && slots.isEmpty then
        "<x-".toList ++ (tag.toList ++ writtenAttributes attributes) ++ " />".toList
      else
        "<x-".toList ++ (tag.toList ++ writtenAttributes attributes) ++ '>' ::
          (writtenSlots slots ++
            (written content ++ ("</x-".toList ++ (tag.toList ++ ['>'])))) := rfl

/-- No nodes are written as nothing. -/
@[simp] theorem written_nil : written [] = [] := rfl

/-- Nodes are written one after the other. -/
@[simp] theorem written_cons (node : Node) :
    written (node :: nodes) = node.written ++ written nodes := rfl

/-- No branches are written as nothing. -/
@[simp] theorem writtenBranches_nil (first : Bool) : writtenBranches first [] = [] := rfl

/-- A branch is its directive and its body, in front of the later branches. -/
@[simp] theorem writtenBranches_cons (first : Bool) (condition : Option String) :
    writtenBranches first (⟨condition, body⟩ :: branches) =
      writtenBranch first condition ++ (written body ++ writtenBranches false branches) := rfl

/-- No slots are written as nothing. -/
@[simp] theorem writtenSlots_nil : writtenSlots [] = [] := rfl

/-- A slot is a pair of tags around its body, in front of the later slots. -/
@[simp] theorem writtenSlots_cons :
    writtenSlots (⟨name, body⟩ :: slots) =
      "<x-slot:".toList ++ (name.toList ++ '>' :: (written body ++
        ("</x-slot>".toList ++ writtenSlots slots))) := rfl

end Written

/-! ## Canonical trees -/

/-- The text can be the arguments of a directive. -/
structure IsArgument (cs : List Char) : Prop where
  trimmed : IsTrimmed cs
  ne_nil : cs ≠ []
  group : IsGroup cs

/-- Nothing in the text starts a lexeme. -/
structure IsLiteral (cs : List Char) : Prop where
  ne_nil : cs ≠ []
  notMem : '@' ∉ cs ∧ '\x7b' ∉ cs
  notInfix : ¬ "<?".toList <:+: cs ∧ ¬ "<x-".toList <:+: cs ∧ ¬ "</x-".toList <:+: cs

/-- Every lexeme starts with one of three characters. -/
theorem isLiteral_of_notMem {cs : List Char} (hne : cs ≠ [])
    (h : '@' ∉ cs ∧ '\x7b' ∉ cs ∧ '<' ∉ cs) : IsLiteral cs := by
  have hnone : ∀ mark : List Char, '<' ∈ mark → ¬ mark <:+: cs :=
    fun mark hmark hin => h.2.2 (hin.subset hmark)
  exact ⟨hne, ⟨h.1, h.2.1⟩, hnone _ (by decide), hnone _ (by decide), hnone _ (by decide)⟩

/-- The head of a loop that can be read back. The item's name stands at the end of the arguments,
where blanks are trimmed. -/
structure LoopHead.Canonical (head : LoopHead) : Prop where
  collection : IsArgument head.collection.toList
  key : ∀ key ∈ head.key, isIdentifier key.toList = true
  item : isIdentifier head.item.toList = true
  item_getLast : ∀ c ∈ head.item.toList.getLast?, isBlank c = false

/-- An attribute that can be read back. -/
structure Attribute.Canonical (a : Attribute) : Prop where
  name : ∃ c rest, a.name.toList = c :: rest ∧ isWordChar c = true ∧
    ∀ d ∈ rest, isNameChar d = true
  value : ∀ value ∈ a.value, '"' ∉ value.toList

/-- The text that nodes start with, if they start with text. -/
def startText : List Node → Option String
  | .text content :: _ => some content
  | _ => none

/-- The nodes may follow the node: no text next to text, and no letter, digit or underscore next to
a closing directive. -/
def Node.Precedes (node : Node) (nodes : List Node) : Prop :=
  ∀ content ∈ startText nodes,
    match node with
    | .text _ => False
    | .conditional _ | .loop .. | .existence .. => StopsAt isWordChar content.toList
    | _ => True

/-- The first branch of a conditional has a condition. -/
def StartsWithCondition : List Branch → Prop
  | ⟨some _, _⟩ :: _ => True
  | _ => False

section Canonical

variable (allowed : String → Prop)

mutual

/-- The node can be read back; `allowed` are the texts that may start an alternative. -/
def Node.Canonical : Node → Prop
  | .text content => IsLiteral content.toList
  | .comment content => IsTrimmed content.toList ∧ ¬ "--\x7d\x7d".toList <:+: content.toList
  | .echo expression _ =>
    IsTrimmed expression.toList ∧ expression ≠ "" ∧ '\n' ∉ expression.toList ∧
      ¬ "\x7d\x7d".toList <:+: expression.toList
  | .host code _ => IsTrimmed code.toList ∧ ¬ "?>".toList <:+: code.toList
  | .conditional branches => StartsWithCondition branches ∧ CanonicalBranches branches
  | .loop head bindings body => head.Canonical ∧ bindings = [] ∧ Canonical body
  | .existence expression body => IsArgument expression.toList ∧ Canonical body
  | .flag kind expression =>
    kind ∈ ["checked", "selected", "disabled"] ∧ IsArgument expression.toList
  | .component tag attributes content slots =>
    isTagName tag.toList = true ∧ tag ≠ "slot" ∧ (∀ a ∈ attributes, a.Canonical) ∧
      (attributes.map fun a => (a.bound, a.name)).Nodup ∧ Canonical content ∧
      CanonicalSlots slots ∧ (slots.map NamedSlot.name).Nodup

/-- The nodes can be read back. -/
def Canonical : List Node → Prop
  | [] => True
  | node :: nodes => node.Canonical ∧ node.Precedes nodes ∧ Canonical nodes

/-- The branches can be read back. Only the last one may be the alternative. -/
def CanonicalBranches : List Branch → Prop
  | [] => True
  | ⟨some condition, body⟩ :: branches =>
    IsArgument condition.toList ∧ Canonical body ∧ CanonicalBranches branches
  | ⟨none, body⟩ :: branches =>
    branches = [] ∧ Canonical body ∧ ∀ content ∈ startText body, allowed content

/-- The named slots can be read back. -/
def CanonicalSlots : List NamedSlot → Prop
  | [] => True
  | ⟨name, body⟩ :: slots =>
    isSlotName name.toList = true ∧ Canonical body ∧ CanonicalSlots slots
end

end Canonical

/-- The text does not go on with the word before it. -/
def StartsApart (cs : List Char) : Prop := StopsAt isWordChar cs

/-- The text does not start with `if` in some case and a parenthesis: behind the keyword of an
alternative that would be a condition. -/
def NoCondition (cs : List Char) : Prop :=
  ∀ found rest, foldedWord? ['i', 'f'] cs = some (found, rest) →
    (rest.dropWhile isBlank).head? ≠ some '('

/-- The text stays text behind the keyword of an alternative. -/
def StaysText (content : String) : Prop := StartsApart content.toList ∧ NoCondition content.toList

end ViewCompiler.Template
