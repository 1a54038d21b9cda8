import Mathlib.Logic.Function.Basic
import ViewCompiler.Template.Scope
import ViewCompiler.Template.Visible

/-!
# Running a tree

What a tree prints and which variables it assigns, for a host language of which only little is
known: an expression has a value that depends on its text and on the values of the variables it
mentions, and there are a test, a printed form and a list of elements of every value. A loop
evaluates its collection once, and assigns its variables and then its local variables for each
element; they keep their last values.

`Relates pre post` compares two runs: from stores that `pre` relates they print the same and leave
stores that `post` relates. It is proved of a tree from what is known of its parts.
-/

namespace ViewCompiler.Template

open Expression (mentioned)

/-! ## The host language -/

/-- The values of the variables. -/
abbrev Store (α : Type) := String → α

/-- An attribute of a component when the component is rendered: a text, or the value of an
expression. -/
structure Argument (α : Type) where
  bound : Bool
  name : String
  value : Option (String ⊕ α)

/-- The language around the templates. -/
structure Host where
  Value : Type
  /-- The value of an expression, from its text and from the variables that it mentions, in order,
  with their values. -/
  value : String → List (String × Value) → Value
  /-- A condition with this value holds. -/
  holds : Value → Bool
  /-- A value is not empty. -/
  isPresent : Value → Bool
  /-- A value as it is printed. -/
  shown : Value → String
  /-- A value as it is printed through the escaping function. -/
  escaped : Value → String
  /-- The elements of a collection, each with its key. -/
  elements : Value → List (Value × Value)
  /-- What a component prints: from its tag, its attributes, the content of its slots, and the
  variables that are free in this content, with their values. -/
  component : String → List (Argument Value) → List Node → List NamedSlot →
    List (String × Value) → String
  /-- What host statements print and how they change the variables. -/
  perform : String → Store Value → String × Store Value

namespace Host

variable (host : Host)

/-- Variables with their values. -/
def lookup (s : Store host.Value) (names : List String) : List (String × host.Value) :=
  names.map fun x => (x, s x)

/-- The value of an expression. -/
def eval (expression : String) (s : Store host.Value) : host.Value :=
  host.value expression (host.lookup s (mentioned expression))

/-- What an echo prints; the content of the default slot is never escaped. -/
def print (expression : String) (escaped : Bool) (v : host.Value) : String :=
  if escaped && !Node.isSlotEcho expression then host.escaped v else host.shown v

/-- Assigns the variables of a loop for one element, the item before the key. -/
def assign (head : LoopHead) (element : host.Value × host.Value) (s : Store host.Value) :
    Store host.Value :=
  let s := Function.update s head.item element.2
  match head.key with
  | some key => Function.update s key element.1
  | none => s

/-- Assigns a local variable. -/
def bind (b : Binding) (s : Store host.Value) : Store host.Value :=
  Function.update s b.name (host.eval b.value s)

/-- Assigns local variables one after the other. -/
def bindAll (bindings : List Binding) (s : Store host.Value) : Store host.Value :=
  bindings.foldl (fun s b => host.bind b s) s

/-- An attribute when its component is rendered. -/
def argument (s : Store host.Value) (a : Attribute) : Argument host.Value :=
  ⟨a.bound, a.name, a.value.map fun v => if a.bound then .inr (host.eval v s) else .inl v⟩

end Host

/-- A host language with two values: a value is marked if it was made from a marked one. A marked
value holds, is printed, and is a collection with one element. -/
abbrev Host.marking : Host where
  Value := Bool
  value _ names := names.any (·.2)
  holds := id
  isPresent := id
  shown v := if v then "1" else ""
  escaped v := if v then "1" else ""
  elements v := if v then [(v, v)] else []
  component _ _ _ _ _ := ""
  perform _ s := ("", s)

/-! ## Runs -/

/-- What is printed and which values the variables have afterwards. -/
abbrev Run (host : Host) := Store host.Value → String × Store host.Value

namespace Run

variable {host : Host} {α : Type}

/-- Prints a text and assigns nothing. -/
def print (text : Store host.Value → String) : Run host := fun s => (text s, s)

/-- Prints nothing and changes the variables. -/
def change (f : Store host.Value → Store host.Value) : Run host := fun s => ("", f s)

/-- One run after the other. -/
def andThen (first second : Run host) : Run host := fun s =>
  ((first s).1 ++ (second (first s).2).1, (second (first s).2).2)

/-- One run for each element of a list, one after the other. -/
def forEach (once : α → Run host) : List α → Run host
  | [] => print fun _ => ""
  | a :: as => (once a).andThen (forEach once as)

/-- One of two runs, by a test. -/
def choose (test : Store host.Value → Bool) (first second : Run host) : Run host := fun s =>
  if test s then first s else second s

end Run

section Running

variable (host : Host)

mutual

/-- What a node does when it is run. -/
def Node.run : Node → Run host
  | .text content => Run.print fun _ => content
  | .comment _ => Run.print fun _ => ""
  | .echo expression escaped =>
    Run.print fun s => host.print expression escaped (host.eval expression s)
  | .host code true => Run.print fun s => host.shown (host.eval code s)
  | .host code false => host.perform code
  | .conditional branches => runBranches branches
  | .loop head bindings body => fun s =>
    Run.forEach (fun element =>
      (Run.change fun s => host.bindAll bindings (host.assign head element s)).andThen (run body))
      (host.elements (host.eval head.collection s)) s
  | .existence expression body =>
    Run.choose (fun s => host.isPresent (host.eval expression s)) (run body)
      (Run.print fun _ => "")
  | .flag kind expression =>
    Run.print fun s => if host.holds (host.eval expression s) then flagText kind else ""
  | .component tag attributes content slots =>
    Run.print fun s => host.component tag (attributes.map (host.argument s)) content slots
      (host.lookup s (reads [] content ++ slotsRead [] slots))

/-- Nodes are run in order. -/
def run : List Node → Run host
  | [] => Run.print fun _ => ""
  | node :: nodes => (node.run).andThen (run nodes)

/-- The first branch whose condition holds is run; a branch without a condition always is. -/
def runBranches : List Branch → Run host
  | [] => Run.print fun _ => ""
  | ⟨condition, body⟩ :: branches =>
    Run.choose (fun s => condition.all fun e => host.holds (host.eval e s)) (run body)
      (runBranches branches)
end

end Running

/-! ## Comparing two runs -/

section Relates

variable {host : Host} {α : Type}
variable {pre mid post : Store host.Value → Store host.Value → Prop}

/-- From stores that are related by `pre`, both runs print the same and leave stores that are
related by `post`. -/
def Relates (pre post : Store host.Value → Store host.Value → Prop) (r r' : Run host) : Prop :=
  ∀ s s', pre s s' → (r s).1 = (r' s').1 ∧ post (r s).2 (r' s').2

/-- Less is known before and more is known afterwards. -/
theorem Relates.mono {pre' post' : Store host.Value → Store host.Value → Prop} {r r' : Run host}
    (h : Relates pre post r r') (hpre : ∀ s s', pre' s s' → pre s s')
    (hpost : ∀ s s', post s s' → post' s s') : Relates pre' post' r r' := fun s s' hs =>
  ⟨(h s s' (hpre s s' hs)).1, hpost _ _ (h s s' (hpre s s' hs)).2⟩

/-- Two runs that print the same text. -/
theorem relates_print {text text' : Store host.Value → String}
    (h : ∀ s s', pre s s' → text s = text' s') :
    Relates pre pre (Run.print text) (Run.print text') := fun s s' hs => ⟨h s s' hs, hs⟩

/-- Two changes of the variables. -/
theorem relates_change {f f' : Store host.Value → Store host.Value}
    (h : ∀ s s', pre s s' → post (f s) (f' s')) :
    Relates pre post (Run.change f) (Run.change f') := fun s s' hs => ⟨rfl, h s s' hs⟩

/-- Runs after one another. -/
theorem Relates.andThen {r₁ r₁' r₂ r₂' : Run host} (h₁ : Relates pre mid r₁ r₁')
    (h₂ : Relates mid post r₂ r₂') : Relates pre post (r₁.andThen r₂) (r₁'.andThen r₂') := by
  intro s s' hs
  obtain ⟨hout₁, hmid⟩ := h₁ s s' hs
  obtain ⟨hout₂, hpost⟩ := h₂ _ _ hmid
  refine ⟨?_, hpost⟩
  show _ ++ _ = _ ++ _
  rw [hout₁, hout₂]

/-- Runs for the elements of a list, if each keeps what is known. -/
theorem relates_forEach {once once' : α → Run host} (h : ∀ a, Relates pre pre (once a) (once' a))
    (as : List α) : Relates pre pre (Run.forEach once as) (Run.forEach once' as) := by
  induction as with
  | nil => exact relates_print fun _ _ _ => rfl
  | cons a as ih => exact (h a).andThen ih

/-- One of two runs, by tests with the same outcome. -/
theorem relates_choose {test test' : Store host.Value → Bool} {r₁ r₁' r₂ r₂' : Run host}
    (htest : ∀ s s', pre s s' → test s = test' s') (h₁ : Relates pre post r₁ r₁')
    (h₂ : Relates pre post r₂ r₂') :
    Relates pre post (Run.choose test r₁ r₂) (Run.choose test' r₁' r₂') := by
  intro s s' hs
  simp only [Run.choose, htest s s' hs]
  split
  · exact h₁ s s' hs
  · exact h₂ s s' hs

end Relates

end ViewCompiler.Template
