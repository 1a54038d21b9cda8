import Mathlib.Data.List.Chain
import ViewCompiler.Proofs.Keyed
import ViewCompiler.Proofs.Template.Canonical
import ViewCompiler.Proofs.Template.Reading
import ViewCompiler.Proofs.Template.Tidy

/-!
# Well-formed trees

What the passes after parsing may rely on: `WellFormed` says of a tree that no text is empty or
beside other text, that expressions are trimmed and not empty, that a conditional starts with a
condition and ends at its alternative, that a loop names its variables and binds nothing yet, and
that no component is a slot, at every level of the tree. Whatever is given up on the way, parsing
gives such a tree (`wellFormed_of_parse`): a lexeme says what is well formed
(`Spelling.wellFormed`), and entering a lexeme keeps all children of a reading well formed
(`Reading.WellFormed.step`). How an open construct was written is known from
`Reading.Reads`.
-/

namespace ViewCompiler.Template

open Text (isBlank trim IsTrimmed isTrimmed_trim)
open Expression (isIdentifier)

/-! ## Well-formed trees -/

/-- The text of an expression: trimmed and not empty. -/
structure IsExpression (expression : String) : Prop where
  ne_empty : expression ≠ ""
  trimmed : IsTrimmed expression.toList

/-- The head of a loop: an expression for the collection, and names for the variables. -/
structure LoopHead.WellFormed (head : LoopHead) : Prop where
  collection : IsExpression head.collection
  item : isIdentifier head.item.toList = true
  key : ∀ key ∈ head.key, isIdentifier key.toList = true

mutual

/-- The node and what it holds are well formed. -/
def Node.WellFormed : Node → Prop
  | .text content => content ≠ ""
  | .comment _ | .host .. => True
  | .echo expression _ => IsExpression expression ∧ '\n' ∉ expression.toList
  | .conditional branches => StartsWithCondition branches ∧ BranchesWellFormed branches
  | .loop head bindings body => head.WellFormed ∧ bindings = [] ∧ WellFormed body
  | .existence expression body => IsExpression expression ∧ WellFormed body
  | .flag _ expression => IsExpression expression
  | .component tag _ content slots =>
    tag ≠ "slot" ∧ WellFormed content ∧ SlotsWellFormed slots

/-- The nodes are well formed, and no text stands beside text. -/
def WellFormed : List Node → Prop
  | [] => True
  | node :: nodes =>
    node.WellFormed ∧ (node.isText = true → startsWithText nodes = false) ∧ WellFormed nodes

/-- The branches are well formed. Only the last one may be the alternative. -/
def BranchesWellFormed : List Branch → Prop
  | [] => True
  | ⟨some condition, body⟩ :: branches =>
    IsExpression condition ∧ WellFormed body ∧ BranchesWellFormed branches
  | ⟨none, body⟩ :: branches => branches = [] ∧ WellFormed body

/-- The content of each slot is well formed. -/
def SlotsWellFormed : List NamedSlot → Prop
  | [] => True
  | ⟨_, body⟩ :: slots => WellFormed body ∧ SlotsWellFormed slots
end

/-- Slots are well formed exactly when the body of each of them is. -/
theorem slotsWellFormed_iff {slots : List NamedSlot} :
    SlotsWellFormed slots ↔ ∀ slot ∈ slots, WellFormed slot.body := by
  induction slots with
  | nil => exact iff_of_true trivial fun _ h => nomatch h
  | cons slot slots ih =>
    obtain ⟨name, body⟩ := slot
    rw [SlotsWellFormed, ih, List.forall_mem_cons]

/-! ## What lexemes say -/

/-- A text that is trimmed and not empty is an expression. -/
theorem isExpression_ofList {cs : List Char} (hne : cs ≠ []) (htrimmed : IsTrimmed cs) :
    IsExpression (String.ofList cs) := by
  refine ⟨fun h => hne ?_, ?_⟩
  · rw [← String.toList_ofList (l := cs), h, String.toList_empty]
  · rwa [String.toList_ofList]

/-- A trimmed text is an expression where something is left of it. -/
theorem isExpression_ofList_trim {inside : List Char} (h : trim inside ≠ []) :
    IsExpression (String.ofList (trim inside)) := isExpression_ofList h (isTrimmed_trim inside)

/-- The arguments of a directive are trimmed and not empty. -/
theorem Invoked.trimmed {keyword arguments source : List Char}
    (h : Invoked keyword arguments source) : arguments ≠ [] ∧ IsTrimmed arguments := by
  cases h with
  | mk _ _ hinside => exact ⟨hinside, isTrimmed_trim _⟩

/-- The arguments of a directive are an expression. -/
theorem Invoked.isExpression {keyword arguments source : List Char}
    (h : Invoked keyword arguments source) : IsExpression (String.ofList arguments) :=
  isExpression_ofList h.trimmed.1 h.trimmed.2

/-- The variables of a loop are identifiers. -/
theorem LoopVariables.isIdentifier {key : Option (List Char)} {item source : List Char}
    (h : LoopVariables key item source) :
    Expression.isIdentifier item = true ∧ ∀ k ∈ key, Expression.isIdentifier k = true := by
  induction h with
  | item hitem _ => exact ⟨hitem, fun _ hk => nomatch hk⟩
  | keyed hkey _ _ _ ih =>
    refine ⟨ih.1, fun k hk => ?_⟩
    obtain rfl := Option.some.inj hk
    exact hkey

/-- The collection starts the arguments of its loop, so trimming leaves something of it. -/
theorem LoopText.wellFormed {head : LoopHead} {source : List Char} (h : LoopText head source)
    (htrimmed : IsTrimmed source) : head.WellFormed := by
  cases h with
  | mk hcollection _ _ _ hvariables =>
    obtain ⟨hitem, hkey⟩ := hvariables.isIdentifier
    refine ⟨isExpression_ofList_trim ?_, ?_, ?_⟩
    · obtain ⟨c, cs, rfl⟩ := List.exists_cons_of_ne_nil hcollection
      exact Text.trim_ne_nil htrimmed.isBlank_head
    · rwa [String.toList_ofList]
    · intro name hname
      obtain ⟨chars, hchars, rfl⟩ := Option.map_eq_some_iff.mp hname
      rw [String.toList_ofList]
      exact hkey chars hchars

/-- What a line holds in front of a mark has no newline when it is trimmed. -/
theorem newline_notMem_trim {mark inside : List Char}
    (h : Text.FirstMark (· == '\n') mark inside) :
    '\n' ∉ (String.ofList (trim inside)).toList := by
  rw [String.toList_ofList]
  intro hin
  have hsub : '\n' ∈ inside :=
    ((List.dropWhile_suffix isBlank).subset (List.mem_reverse.mp
      ((List.dropWhile_suffix isBlank).subset (List.mem_reverse.mp hin))))
  simpa using h.barrier_eq_false _ hsub

/-- **A lexeme that is a node says a well-formed one.** -/
theorem Spelling.wellFormed {node : Node} {source : List Char} (h : Spelling (.node node) source) :
    node.WellFormed := by
  cases h with
  | comment | hostCode | hostEcho => trivial
  | rawEcho h hinside | escapedEcho h hinside =>
    exact ⟨isExpression_ofList_trim hinside, newline_notMem_trim h⟩
  | flag _ h | foldedFlag _ _ h => exact h.isExpression
  | closedTag _ hslot => exact ⟨hslot, trivial, trivial⟩

/-- The condition of a further branch is an expression. -/
theorem Spelling.isExpression_branch {condition : String} {source : List Char}
    (h : Spelling (.branch (some condition)) source) : IsExpression condition := by
  cases h with
  | nextCondition _ _ h => exact h.isExpression

/-- The condition of a conditional is an expression. -/
theorem Spelling.isExpression_conditional {condition : String} {source : List Char}
    (h : Spelling (.opening (.conditional condition)) source) : IsExpression condition := by
  cases h with
  | conditional h => exact h.isExpression

/-- What an existence check asks for is an expression. -/
theorem Spelling.isExpression_existence {expression : String} {source : List Char}
    (h : Spelling (.opening (.existence expression)) source) : IsExpression expression := by
  cases h with
  | existence h => exact h.isExpression

/-- The head of a loop as it is spelled is well formed. -/
theorem Spelling.wellFormed_loop {head : LoopHead} {source : List Char}
    (h : Spelling (.opening (.loop head)) source) : head.WellFormed := by
  cases h with
  | loop h hhead => exact hhead.wellFormed h.trimmed.2

/-- No component is named as slots are. -/
theorem Spelling.tag_ne_slot {tag : String} {attributes : List Attribute} {source : List Char}
    (h : Spelling (.opening (.component tag attributes)) source) : tag ≠ "slot" := by
  cases h with
  | openingTag _ hslot => exact hslot

/-! ## Children -/

/-- The child is literal text. -/
def Child.isText : Child → Bool
  | .node value => value.isText
  | .slot .. => false

/-- A child is text if it is the text of its content. -/
theorem Child.isText_iff {child : Child} : child.isText = true ↔
    ∃ content, child = .text content := by
  constructor
  · intro h
    obtain ⟨value⟩ | ⟨_⟩ := child
    · cases value <;> first | exact ⟨_, rfl⟩ | cases h
    · cases h
  · rintro ⟨content, rfl⟩
    rfl

/-- What the child holds is well formed. -/
def Child.WellFormed : Child → Prop
  | .node value => value.WellFormed
  | .slot _ _ body _ => Template.WellFormed body

/-- The children are well formed, and no text stands beside text. -/
structure ChildrenWellFormed (children : List Child) : Prop where
  each : ∀ child ∈ children, child.WellFormed
  apart : children.IsChain fun child next => child.isText = true → next.isText = false

namespace ChildrenWellFormed

/-- No children are well formed. -/
theorem nil : ChildrenWellFormed [] := ⟨fun _ h => (nomatch h), List.isChain_nil⟩

/-- The first ones of well-formed children are well formed. -/
theorem of_append {children new : List Child} (h : ChildrenWellFormed (children ++ new)) :
    ChildrenWellFormed children :=
  ⟨fun child hchild => h.each child (List.mem_append_left _ hchild),
    (List.isChain_append.mp h.apart).1⟩

/-- A well-formed child may follow others if it does not put text beside text. -/
theorem concat {children : List Child} {child : Child} (h : ChildrenWellFormed children)
    (hchild : child.WellFormed)
    (hlast : ∀ last ∈ children.getLast?, last.isText = true → child.isText = false) :
    ChildrenWellFormed (children ++ [child]) := by
  refine ⟨?_, List.isChain_append.mpr ⟨h.apart, List.isChain_singleton _, ?_⟩⟩
  · rw [List.forall_mem_append, List.forall_mem_singleton]
    exact ⟨h.each, hchild⟩
  · intro last hmem first hfirst
    obtain rfl := Option.some.inj hfirst
    exact hlast last hmem

/-- Text goes on with the text before it, so it stands beside none. -/
theorem addText {children : List Child} {content : String} (h : ChildrenWellFormed children)
    (hne : content ≠ "") : ChildrenWellFormed (addText content children) := by
  by_cases hlast : ∃ before, children.getLast? = some (.text before)
  · obtain ⟨before, hlast⟩ := hlast
    obtain ⟨start, rfl⟩ := List.getLast?_eq_some_iff.mp hlast
    have hjoined : before ++ content ≠ "" := fun heq => hne (String.append_eq_empty_iff.mp heq).2
    rw [addText_concat]
    refine h.of_append.concat hjoined fun last hmem htext => ?_
    exact (List.isChain_append.mp h.apart).2.2 last hmem (.text before) rfl htext
  · rw [addText_of_getLast? fun before heq => hlast ⟨before, heq⟩]
    refine h.concat hne fun last hmem htext => absurd ?_ hlast
    obtain ⟨before, rfl⟩ := Child.isText_iff.mp htext
    exact ⟨before, hmem⟩

/-- A text that is added may be empty. -/
theorem addChild {children : List Child} {child : Child} (h : ChildrenWellFormed children)
    (hchild : child.isText = true ∨ child.WellFormed) :
    ChildrenWellFormed (addChild children child) := by
  fun_cases Template.addChild children child with
  | case1 => exact h
  | case2 content hne => exact h.addText hne
  | case3 _ hnone =>
    have htext : child.isText = false := by
      rw [← Bool.not_eq_true, Child.isText_iff]
      rintro ⟨content, heq⟩
      exact hnone content heq
    exact h.concat (hchild.resolve_left (by rw [htext]; exact Bool.false_ne_true))
      fun _ _ _ => htext

/-- Adding texts and well-formed children to well-formed ones keeps them so. -/
theorem addChildren {children new : List Child} (h : ChildrenWellFormed children)
    (hnew : ∀ child ∈ new, child.isText = true ∨ child.WellFormed) :
    ChildrenWellFormed (addChildren children new) := by
  induction new generalizing children with
  | nil => exact h
  | cons child new ih =>
    obtain ⟨hchild, hnew⟩ := List.forall_mem_cons.mp hnew
    exact ih (h.addChild hchild) hnew

end ChildrenWellFormed

/-- Well-formed nodes are well-formed children. -/
theorem wellFormed_iff {nodes : List Node} :
    WellFormed nodes ↔ ChildrenWellFormed (nodes.map Child.node) := by
  induction nodes with
  | nil => exact ⟨fun _ => .nil, fun _ => trivial⟩
  | cons node nodes ih =>
    have hhead : startsWithText nodes = false ↔
        ∀ next ∈ (nodes.map Child.node).head?, next.isText = false := by
      cases nodes with
      | nil => exact iff_of_true rfl fun _ h => nomatch h
      | cons next nodes => simp [startsWithText_cons, Child.isText]
    rw [WellFormed, ih, hhead, List.map_cons]
    constructor
    · rintro ⟨hnode, htext, heach, hapart⟩
      exact ⟨List.forall_mem_cons.mpr ⟨hnode, heach⟩,
        List.isChain_cons.mpr ⟨fun next hnext hisText => htext hisText next hnext, hapart⟩⟩
    · rintro ⟨heach, hapart⟩
      obtain ⟨hnode, heach⟩ := List.forall_mem_cons.mp heach
      obtain ⟨htext, hapart⟩ := List.isChain_cons.mp hapart
      exact ⟨hnode, fun hisText next hnext => htext next hnext hisText, heach, hapart⟩

/-- Children without slots are their nodes. -/
theorem map_nodesOf {children : List Child} (h : slotsOf children = []) :
    (nodesOf children).map Child.node = children := by
  induction children with
  | nil => rfl
  | cons child children ih =>
    cases child with
    | node value => exact congrArg (Child.node value :: ·) (ih h)
    | slot => cases h

/-- Well-formed children without slots give well-formed nodes. -/
theorem ChildrenWellFormed.nodes {children : List Child} (h : ChildrenWellFormed children)
    (hslots : slotsOf children = []) : WellFormed (nodesOf children) := by
  rwa [wellFormed_iff, map_nodesOf hslots]

/-- Between the nodes of a default slot a named slot may have stood. -/
theorem ChildrenWellFormed.defaultContent {children : List Child}
    (h : ChildrenWellFormed children) :
    WellFormed (Frame.defaultContent children) := by
  refine (ChildrenWellFormed.nil.addChildren fun child hchild => ?_).nodes ?_
  · obtain ⟨node, hnode, rfl⟩ := List.mem_map.mp hchild
    obtain ⟨child, hmem, heq⟩ := List.mem_filterMap.mp hnode
    cases child with
    | node value =>
      obtain rfl := Option.some.inj heq
      exact .inr (h.each _ hmem)
    | slot => cases heq
  · rw [slotsOf_addChildren, slotsOf_map_node]
    rfl

/-- The slots among well-formed children, with the last one of each name, are well formed. -/
theorem ChildrenWellFormed.slots {children : List Child} (h : ChildrenWellFormed children) :
    SlotsWellFormed (collectBy NamedSlot.name (slotsOf children)) := by
  refine slotsWellFormed_iff.mpr fun slot hslot => ?_
  obtain ⟨child, hmem, heq⟩ := List.mem_filterMap.mp (mem_of_mem_collectBy hslot)
  cases child with
  | node => cases heq
  | slot name opening body closing =>
    obtain rfl := Option.some.inj heq
    exact h.each _ hmem

/-- What a child is where its component is text may be entered elsewhere. -/
theorem Child.WellFormed.unwrapped {inner : Child} (h : inner.WellFormed) :
    ∀ child ∈ inner.unwrapped, child.isText = true ∨ child.WellFormed := by
  intro child hchild
  cases inner with
  | node value =>
    obtain rfl := List.mem_singleton.mp hchild
    exact .inr h
  | slot name opening body closing =>
    rw [Child.unwrapped, List.cons_append, List.mem_cons, List.mem_append,
      List.mem_singleton] at hchild
    rcases hchild with rfl | hchild | rfl
    · exact .inl rfl
    · exact .inr ((wellFormed_iff.mp h).each child hchild)
    · exact .inl rfl

/-! ## Frames -/

namespace Frame

/-- The children of each branch are well formed. -/
def WellFormed (frame : Frame) : Prop := ∀ arm ∈ frame.arms, ChildrenWellFormed arm.children

/-- Adding children to the innermost branch. -/
theorem WellFormed.addChildren {frame : Frame} {new : List Child} (h : frame.WellFormed)
    (hnew : ∀ child ∈ new, child.isText = true ∨ child.WellFormed) :
    WellFormed { frame with children := addChildren frame.children new } := by
  intro arm harm
  rw [WellFormed, arms_eq, List.forall_mem_append, List.forall_mem_singleton] at h
  rw [arms_eq, List.mem_append, List.mem_singleton] at harm
  rcases harm with harm | rfl
  · exact h.1 arm harm
  · exact h.2.addChildren hnew

/-- What a frame leaves that is never closed may be entered elsewhere. -/
theorem WellFormed.unwrapped {frame : Frame} (h : frame.WellFormed) :
    ∀ child ∈ frame.unwrapped, child.isText = true ∨ child.WellFormed := by
  have hplain : ∀ child ∈ frame.arms.flatMap fun arm => .text arm.raw :: arm.children,
      child.isText = true ∨ child.WellFormed := by
    intro child hchild
    obtain ⟨arm, harm, hchild⟩ := List.mem_flatMap.mp hchild
    rcases List.mem_cons.mp hchild with rfl | hchild
    · exact .inl rfl
    · exact .inr ((h arm harm).each child hchild)
  obtain ⟨construct, raw, children⟩ := frame
  cases construct with
  | conditional | loop | existence | slot => exact hplain
  | component =>
    intro child hchild
    rcases List.mem_cons.mp hchild with rfl | hchild
    · exact .inl rfl
    obtain ⟨inner, hinner, hchild⟩ := List.mem_flatMap.mp hchild
    exact ((h _ List.mem_cons_self).each inner hinner).unwrapped child hchild

/-- The branches of a conditional that is closed. -/
theorem branchesWellFormed {arms : List Arm} (h : ∀ arm ∈ arms, ChildrenWellFormed arm.children)
    (hslots : ∀ arm ∈ arms, slotsOf arm.children = [])
    (hconditions : ∀ arm ∈ arms, ∀ condition ∈ arm.condition, IsExpression condition)
    (hlast : ∀ arm ∈ arms.dropLast, arm.condition.isSome = true) :
    BranchesWellFormed (arms.map fun arm => ⟨arm.condition, nodesOf arm.children⟩) := by
  induction arms with
  | nil => trivial
  | cons arm arms ih =>
    obtain ⟨harm, h⟩ := List.forall_mem_cons.mp h
    obtain ⟨hplain, hslots⟩ := List.forall_mem_cons.mp hslots
    obtain ⟨hcondition, hconditions⟩ := List.forall_mem_cons.mp hconditions
    have hrest :=
      ih h hslots hconditions fun other hother => hlast other (mem_dropLast_cons hother)
    obtain ⟨condition, raw, children⟩ := arm
    cases condition with
    | some condition => exact ⟨hcondition condition rfl, harm.nodes hplain, hrest⟩
    | none =>
      refine ⟨?_, harm.nodes hplain⟩
      cases arms with
      | nil => rfl
      | cons next arms => exact absurd (hlast _ List.mem_cons_self) Bool.false_ne_true

/-- **A frame that closes is a well-formed child.** -/
theorem WellFormed.close {frame : Frame} {source : List Char} (h : frame.WellFormed)
    (hframe : frame.Derives source) (closing : String) : (frame.close closing).WellFormed := by
  obtain ⟨construct, raw, children⟩ := frame
  obtain ⟨hopened, -, hslots⟩ := hframe
  cases construct with
  | conditional finished condition hasElse =>
    obtain ⟨⟨first, rawFirst, rest, hopenings, hfirst, hrest, hlast⟩, -⟩ := hopened
    have hconditions : ∀ arm ∈ Frame.arms ⟨.conditional finished condition hasElse, raw, children⟩,
        ∀ c ∈ arm.condition, IsExpression c := by
      intro arm harm c hc
      have hopening : (arm.condition, arm.raw) ∈ (some first, rawFirst) :: rest := by
        rw [← hopenings]
        exact List.mem_map_of_mem harm
      rw [Option.mem_def.mp hc] at hopening
      rcases List.mem_cons.mp hopening with heq | hopening
      · obtain rfl := Option.some.inj (Prod.mk.inj heq).1
        exact hfirst.isExpression_conditional
      · exact (hrest _ hopening).isExpression_branch
    have hstarts : StartsWithCondition
        ((Frame.arms ⟨.conditional finished condition hasElse, raw, children⟩).map
          fun arm => ⟨arm.condition, nodesOf arm.children⟩) := by
      obtain ⟨arm, arms, harms, harm, -⟩ := List.map_eq_cons_iff.mp hopenings
      rw [harms, List.map_cons, (Prod.mk.inj harm).1]
      trivial
    refine ⟨hstarts, branchesWellFormed h (hslots rfl) hconditions fun arm harm => ?_⟩
    rw [← List.map_dropLast] at hlast
    exact hlast _ (List.mem_map_of_mem harm)
  | loop head =>
    have hbody := (h _ List.mem_cons_self).nodes (hslots rfl _ List.mem_cons_self)
    exact ⟨Spelling.wellFormed_loop hopened, rfl, hbody⟩
  | existence expression =>
    have hbody := (h _ List.mem_cons_self).nodes (hslots rfl _ List.mem_cons_self)
    exact ⟨Spelling.isExpression_existence hopened, hbody⟩
  | component tag attributes =>
    have hchildren := h _ List.mem_cons_self
    exact ⟨Spelling.tag_ne_slot hopened, hchildren.defaultContent, hchildren.slots⟩
  | slot name => exact (h _ List.mem_cons_self).nodes (hslots rfl _ List.mem_cons_self)

/-- A frame without children and finished branches is well formed. -/
theorem wellFormed_mk {construct : Construct} {raw : String}
    (h : finished ⟨construct, raw, []⟩ = []) : WellFormed ⟨construct, raw, []⟩ := by
  intro arm harm
  rw [arms_eq, h, List.nil_append, List.mem_singleton] at harm
  rw [harm]
  exact .nil

/-- A frame that was just opened is well formed. -/
theorem wellFormed_ofOpening (opening : Opening) (raw : String) :
    (ofOpening opening raw).WellFormed := by
  cases opening <;> exact wellFormed_mk rfl

/-- A further branch keeps a frame well formed. -/
theorem WellFormed.branch {frame next : Frame} {condition : Option String} {raw : String}
    (h : frame.WellFormed) (hnext : frame.branch? condition raw = some next) :
    next.WellFormed := by
  obtain ⟨construct, raw', children⟩ := frame
  cases construct with
  | conditional finished current hasElse =>
    cases hasElse with
    | true => cases hnext
    | false =>
      obtain rfl := Option.some.inj hnext
      exact List.forall_mem_append.mpr ⟨h, List.forall_mem_singleton.mpr .nil⟩
  | loop _ | existence _ | component _ _ | slot _ => cases hnext

end Frame

/-! ## Readings -/

namespace Reading

/-- Each open construct derives a part of what was read. -/
theorem Reads.frames {r : Reading} {source : List Char} (h : Reads r source) :
    ∀ frame ∈ r.frames, ∃ inside, frame.Derives inside := by
  induction h with
  | root => exact fun _ hframe => nomatch hframe
  | frame _ hframe _ ih => exact List.forall_mem_cons.mpr ⟨⟨_, hframe⟩, ih⟩

/-- All children, at the top level and of open constructs, are well formed. -/
structure WellFormed (r : Reading) : Prop where
  root : ChildrenWellFormed r.root
  frames : ∀ frame ∈ r.frames, frame.WellFormed

namespace WellFormed

variable {r : Reading}

/-- Adding texts and well-formed children keeps a reading well formed. -/
theorem add {new : List Child} (h : r.WellFormed)
    (hnew : ∀ child ∈ new, child.isText = true ∨ child.WellFormed) : (r.add new).WellFormed := by
  obtain ⟨root, frames⟩ := r
  cases frames with
  | nil => exact ⟨h.root.addChildren hnew, fun _ hframe => nomatch hframe⟩
  | cons frame frames =>
    obtain ⟨hframe, hframes⟩ := List.forall_mem_cons.mp h.frames
    exact ⟨h.root, List.forall_mem_cons.mpr ⟨hframe.addChildren hnew, hframes⟩⟩

/-- Adding text keeps a reading well formed. -/
theorem addText (h : r.WellFormed) (content : String) : (r.addText content).WellFormed :=
  h.add (List.forall_mem_singleton.mpr (.inl rfl))

/-- Opening a well-formed frame keeps a reading well formed. -/
theorem push {frame : Frame} (h : r.WellFormed) (hframe : frame.WellFormed) :
    (r.push frame).WellFormed := ⟨h.root, List.forall_mem_cons.mpr ⟨hframe, h.frames⟩⟩

/-- Abandoning a construct keeps a reading well formed. -/
theorem abandon (h : r.WellFormed) : r.abandon.WellFormed := by
  obtain ⟨root, frames⟩ := r
  cases frames with
  | nil => exact h
  | cons frame frames =>
    obtain ⟨hframe, hframes⟩ := List.forall_mem_cons.mp h.frames
    have hrest : WellFormed ⟨root, frames⟩ := ⟨h.root, hframes⟩
    exact hrest.add hframe.unwrapped

/-- Abandoning several constructs keeps a reading well formed. -/
theorem abandonMany (h : r.WellFormed) (n : Nat) : (r.abandonMany n).WellFormed := by
  induction n generalizing r with
  | zero => exact h
  | succ n ih => exact ih h.abandon

/-- Closing a construct keeps a reading well formed. -/
theorem close {source : List Char} (h : r.WellFormed) (hreads : Reads r source)
    (closing : String) :
    (r.close closing).WellFormed := by
  have hopen := hreads.frames
  obtain ⟨root, frames⟩ := r
  cases frames with
  | nil => exact h
  | cons frame frames =>
    obtain ⟨hframe, hframes⟩ := List.forall_mem_cons.mp h.frames
    obtain ⟨inside, hderives⟩ := hopen frame List.mem_cons_self
    have hrest : WellFormed ⟨root, frames⟩ := ⟨h.root, hframes⟩
    exact hrest.add (List.forall_mem_singleton.mpr (.inr (hframe.close hderives closing)))

/-- A closing directive keeps a reading well formed, whether it closes something or not. -/
theorem closeIf {source : List Char} (h : r.WellFormed) (hreads : Reads r source)
    (test : Frame → Bool) (raw : String) : (r.closeIf test raw).WellFormed := by
  unfold Reading.closeIf
  split
  · exact h.close hreads raw
  · exact h.addText raw

/-- A closing tag keeps a reading well formed, whatever it closes. -/
theorem closeTag {source : List Char} (h : r.WellFormed) (hreads : Reads r source)
    (tag raw : String) : (r.closeTag tag raw).WellFormed := by
  unfold Reading.closeTag
  split
  · exact (h.abandonMany _).close (hreads.abandonMany _) raw
  · exact h.addText raw

/-- A branch keeps a reading well formed, whether it goes on with a conditional or not. -/
theorem branch (h : r.WellFormed) (condition : Option String) (raw : String) :
    (r.branch condition raw).WellFormed := by
  obtain ⟨root, frames⟩ := r
  cases frames with
  | nil => exact h.addText raw
  | cons frame frames =>
    obtain ⟨hframe, hframes⟩ := List.forall_mem_cons.mp h.frames
    unfold Reading.branch
    dsimp only
    split
    · rename_i next hnext
      exact ⟨h.root, List.forall_mem_cons.mpr ⟨hframe.branch hnext, hframes⟩⟩
    · exact h.addText raw

/-- **Entering a lexeme keeps a reading well formed.** -/
theorem step {next : Reading} {l : Lexeme} {source : List Char} (h : r.WellFormed)
    (hreads : Reads r source) (hl : Spelling l.saying l.raw.toList) (hnext : r.step l = .ok next) :
    next.WellFormed := by
  obtain ⟨saying, raw⟩ := l
  cases saying with
  | text =>
    obtain rfl := Except.ok.inj hnext
    exact h.addText raw
  | node node =>
    obtain rfl := Except.ok.inj hnext
    exact h.add (List.forall_mem_singleton.mpr (.inr hl.wellFormed))
  | opening opening =>
    obtain rfl := Except.ok.inj hnext
    exact h.push (Frame.wellFormed_ofOpening opening raw)
  | branch condition =>
    obtain rfl := Except.ok.inj hnext
    exact h.branch condition raw
  | closing closing =>
    cases closing with
    | unknown name => cases hnext
    | conditional | loop | existence =>
      obtain rfl := Except.ok.inj hnext
      exact h.closeIf hreads _ raw
  | slotOpening name =>
    simp only [Reading.step] at hnext
    split at hnext
    · obtain rfl := Except.ok.inj hnext
      exact h.push (Frame.wellFormed_mk rfl)
    · obtain rfl := Except.ok.inj hnext
      exact h.addText raw
  | slotClosing =>
    obtain rfl := Except.ok.inj hnext
    exact h.closeIf hreads _ raw
  | tagClosing tag =>
    obtain rfl := Except.ok.inj hnext
    exact h.closeTag hreads tag raw

/-- **Entering lexemes keeps a reading well formed.** -/
theorem foldlM_step {ls : List Lexeme} {next : Reading} {source : List Char} (h : r.WellFormed)
    (hreads : Reads r source) (hls : ∀ l ∈ ls, Spelling l.saying l.raw.toList)
    (hnext : ls.foldlM Reading.step r = .ok next) : next.WellFormed := by
  induction ls generalizing r source with
  | nil =>
    obtain rfl := Except.ok.inj hnext
    exact h
  | cons l ls ih =>
    obtain ⟨hl, hls⟩ := List.forall_mem_cons.mp hls
    obtain ⟨mid, hstep, hrest⟩ := exists_step_of_foldlM hnext
    exact ih (h.step hreads hl hstep) (hreads.step hl hstep) hls hrest

/-- What is given up at the end is text and nodes. -/
theorem finish {source : List Char} (h : r.WellFormed) (hreads : Reads r source) :
    Template.WellFormed r.finish :=
  (h.abandonMany _).root.nodes hreads.abandonAll.2

end WellFormed

end Reading

/-! ## Parsing -/

/-- **Parsing gives a well-formed tree, whatever the template and whatever is given up.** -/
theorem wellFormed_of_parse {template : String} {nodes : List Node}
    (h : parse template = .ok nodes) : WellFormed nodes := by
  obtain ⟨r, hread, rfl⟩ := exists_reading_of_parse h
  have hlexemes : ∀ l ∈ lexemes template, Spelling l.saying l.raw.toList :=
    fun _ => spelling_of_mem_lexemes
  have hstart : Reading.WellFormed .start := ⟨.nil, fun _ hframe => nomatch hframe⟩
  exact (hstart.foldlM_step Reading.reads_start hlexemes hread).finish
    (Reading.reads_start.foldlM_step hlexemes hread)

/-- A named slot leaves a gap in the text around it, and a conditional is never closed: the texts
on both sides are one. -/
theorem wellFormed_of_parse_gap :
    ∃ nodes, parse "@each($us as $u)<x-b>c<x-slot:d>e</x-slot>f</x-b>@endeach@if($x)g" =
      .ok nodes ∧
      nodes.length = 2 ∧ WellFormed nodes := by
  have hany : (parse
      "@each($us as $u)<x-b>c<x-slot:d>e</x-slot>f</x-b>@endeach@if($x)g").toOption.any
        (·.length == 2) = true := by
    decide +kernel
  obtain ⟨nodes, hparse, hlength⟩ := exists_parse_of_any hany
  exact ⟨nodes, hparse, beq_iff_eq.mp hlength, wellFormed_of_parse hparse⟩

end ViewCompiler.Template
