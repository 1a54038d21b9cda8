import ViewCompiler.Proofs.Template.Entering
import ViewCompiler.Template.Scope

/-!
# Parsing what is printed

A canonical tree is printed as a template that is parsed as the tree (`parse_written`). The printed
tree is entered piece by piece: whatever has been read before and whatever stands behind it, a
printed node adds the node to the innermost construct and leaves the rest (`enter_writtenNode`).
-/

namespace ViewCompiler.Template

open Text (isBlank foldedWord?)
open Expression (StopsAt isWordChar)

/-! ## What follows -/

/-- The text behind a printed node does not go on with it. -/
def Node.Follows (node : Node) (rest : List Char) : Prop :=
  match node with
  | .text _ => Marked rest
  | .conditional _ | .loop .. | .existence .. => StopsAt isWordChar rest
  | _ => True

/-- The text behind the keyword of an alternative does not go on with it. -/
def FollowsElse (rest : List Char) : Prop := StopsAt isWordChar rest ∧ NoCondition rest

/-- In front of a lexeme a word ends. -/
theorem Marked.stopsAt {rest : List Char} (h : Marked rest) : StopsAt isWordChar rest := by
  intro c hc
  rcases h c hc with rfl | rfl | rfl <;> decide

/-- Text that starts as a lexeme does is marked. -/
theorem marked_cons {c : Char} (h : c = '\x7b' ∨ c = '@' ∨ c = '<') (rest : List Char) :
    Marked (c :: rest) := by
  intro d hd
  obtain rfl : c = d := by simpa using hd
  exact h

/-- A lexeme does not start with a parenthesis, so none follows the blanks of text in front of
it. -/
theorem head?_dropWhile_append {cs rest : List Char}
    (h : (cs.dropWhile isBlank).head? ≠ some '(') (hrest : Marked rest) :
    ((cs ++ rest).dropWhile isBlank).head? ≠ some '(' := by
  induction cs with
  | nil =>
    cases rest with
    | nil => exact h
    | cons c rest =>
      rcases hrest c rfl with rfl | rfl | rfl <;> simp [isBlank]
  | cons c cs ih =>
    cases hc : isBlank c with
    | false => simpa [List.dropWhile_cons, hc] using h
    | true =>
      rw [List.cons_append, List.dropWhile_cons, if_pos hc]
      rw [List.dropWhile_cons, if_pos hc] at h
      exact ih h

/-- A condition does not reach into the next lexeme. -/
theorem NoCondition.append {cs rest : List Char} (h : NoCondition cs) (hrest : Marked rest) :
    NoCondition (cs ++ rest) := by
  have hmark : ∀ {letter : Char} {d : Char} {rest : List Char}, Marked (d :: rest) →
      letter = 'i' ∨ letter = 'f' → Text.foldsTo letter d = false := by
    intro letter d rest hmarked hletter
    rcases hmarked d rfl with rfl | rfl | rfl <;> rcases hletter with rfl | rfl <;> decide
  intro found after hread
  match cs, h with
  | [], _ =>
    cases rest with
    | nil => cases hread
    | cons d rest => simp [foldedWord?, hmark hrest (.inl rfl)] at hread
  | [a], _ =>
    cases rest with
    | nil => simp [foldedWord?] at hread
    | cons d rest => simp [foldedWord?, hmark hrest (.inr rfl)] at hread
  | a :: b :: cs, h =>
    have hinside : foldedWord? ['i', 'f'] (a :: b :: cs) = some (found, cs) ∧
        after = cs ++ rest := by
      cases ha : Text.foldsTo 'i' a <;> cases hb : Text.foldsTo 'f' b <;>
        simp_all [foldedWord?]
    obtain ⟨hinside, rfl⟩ := hinside
    exact head?_dropWhile_append (h found cs hinside) hrest

/-- A lexeme does not go on with an alternative. -/
theorem Marked.noCondition {rest : List Char} (h : Marked rest) : NoCondition rest := by
  have hnil : NoCondition [] := fun _ _ hread => by cases hread
  exact hnil.append h

/-- A node that is no text starts with a mark. -/
theorem marked_writtenNode {node : Node} (h : startText [node] = none) (rest : List Char) :
    Marked (node.written ++ rest) := by
  match node with
  | .text _ => cases h
  | .comment _ => rw [written_comment]; exact marked_cons (.inl rfl) _
  | .echo _ false => rw [written_echo_false]; exact marked_cons (.inl rfl) _
  | .echo _ true => rw [written_echo_true]; exact marked_cons (.inl rfl) _
  | .host _ false => rw [written_host_false]; exact marked_cons (.inr (.inr rfl)) _
  | .host _ true => rw [written_host_true]; exact marked_cons (.inr (.inr rfl)) _
  | .conditional [] => rw [written_conditional]; exact marked_cons (.inr (.inl rfl)) _
  | .conditional (⟨none, _⟩ :: _) =>
    rw [written_conditional, writtenBranches_cons]; exact marked_cons (.inr (.inl rfl)) _
  | .conditional (⟨some _, _⟩ :: _) =>
    rw [written_conditional, writtenBranches_cons]; exact marked_cons (.inr (.inl rfl)) _
  | .loop .. => rw [written_loop]; exact marked_cons (.inr (.inl rfl)) _
  | .existence .. => rw [written_existence]; exact marked_cons (.inr (.inl rfl)) _
  | .flag .. => rw [written_flag]; exact marked_cons (.inr (.inl rfl)) _
  | .component .. =>
    rw [written_component]
    split <;> exact marked_cons (.inr (.inr rfl)) _

/-- Printed nodes that do not start with text start with a lexeme. -/
theorem marked_written {nodes : List Node} {rest : List Char} (h : startText nodes = none)
    (hrest : Marked rest) : Marked (written nodes ++ rest) := by
  cases nodes with
  | nil => rwa [written_nil, List.nil_append]
  | cons node nodes =>
    have hnode : startText [node] = none := by
      cases node with
      | text content => cases h
      | _ => rfl
    rw [written_cons, List.append_assoc]
    exact marked_writtenNode hnode _

/-- Printed branches in front of the end of a conditional start with a lexeme. -/
theorem marked_writtenBranches (branches : List Branch) (rest : List Char) :
    Marked (writtenBranches false branches ++ ('@' :: "endif".toList ++ rest)) := by
  match branches with
  | [] => rw [writtenBranches_nil]; exact marked_cons (.inr (.inl rfl)) _
  | ⟨none, _⟩ :: _ => rw [writtenBranches_cons]; exact marked_cons (.inr (.inl rfl)) _
  | ⟨some _, _⟩ :: _ => rw [writtenBranches_cons]; exact marked_cons (.inr (.inl rfl)) _

/-- Nodes start with the text they start with, up to the next lexeme. -/
theorem exists_written_of_startText {allowed : String → Prop} {nodes : List Node}
    {content : String} {rest : List Char} (h : startText nodes = some content)
    (hnodes : Canonical allowed nodes) (hrest : Marked rest) :
    content.toList ≠ [] ∧ ∃ after, written nodes ++ rest = content.toList ++ after ∧
      Marked after := by
  unfold startText at h
  split at h
  · rename_i before nodes
    obtain rfl := Option.some.inj h
    obtain ⟨hliteral, hprecedes, -⟩ := hnodes
    have hnext : startText nodes = none := by
      rw [Option.eq_none_iff_forall_ne_some]
      exact fun content hcontent => hprecedes content hcontent
    refine ⟨hliteral.ne_nil, _, ?_, marked_written hnext hrest⟩
    rw [written_cons, written_text, List.append_assoc]
  · cases h

/-- A node that may stand in front of others is printed so that their text may follow. -/
theorem follows_of_precedes {allowed : String → Prop} {node : Node} {nodes : List Node}
    {rest : List Char} (h : node.Precedes nodes) (hnodes : Canonical allowed nodes)
    (hrest : Marked rest) : node.Follows (written nodes ++ rest) := by
  cases hstart : startText nodes with
  | none =>
    have hmarked := marked_written hstart hrest
    cases node with
    | text => exact hmarked
    | conditional | loop | existence => exact hmarked.stopsAt
    | _ => exact trivial
  | some content =>
    obtain ⟨hne, after, hwritten, -⟩ := exists_written_of_startText hstart hnodes hrest
    have hcontent := h content hstart
    rw [hwritten]
    cases node with
    | text => exact hcontent.elim
    | conditional | loop | existence => exact (Expression.stopsAt_append_iff hne).mpr hcontent
    | _ => exact trivial

/-- The printed body of an alternative may follow its keyword. -/
theorem followsElse_of_staysText {body : List Node} {rest : List Char}
    (h : ∀ content ∈ startText body, StaysText content) (hbody : Canonical StaysText body)
    (hrest : Marked rest) : FollowsElse (written body ++ rest) := by
  cases hstart : startText body with
  | none =>
    have hmarked := marked_written hstart hrest
    exact ⟨hmarked.stopsAt, hmarked.noCondition⟩
  | some content =>
    obtain ⟨hne, after, hwritten, hafter⟩ := exists_written_of_startText hstart hbody hrest
    obtain ⟨hstops, hcondition⟩ := h content hstart
    rw [hwritten]
    exact ⟨(Expression.stopsAt_append_iff hne).mpr hstops, hcondition.append hafter⟩

/-! ## Slots as children -/

/-- A named slot as a child of its component. -/
def NamedSlot.child (slot : NamedSlot) : Child :=
  .slot slot.name (String.ofList ("<x-slot:".toList ++ (slot.name.toList ++ ['>']))) slot.body
    (String.ofList "</x-slot>".toList)


/-- Slots taken as children are no nodes. -/
theorem nodesOf_map_child (slots : List NamedSlot) : nodesOf (slots.map NamedSlot.child) = [] := by
  induction slots with
  | nil => rfl
  | cons slot slots ih => exact ih

/-- Slots taken as children are read back. -/
theorem slotsOf_map_child (slots : List NamedSlot) :
    slotsOf (slots.map NamedSlot.child) = slots := by
  induction slots with
  | nil => rfl
  | cons slot slots ih =>
    obtain ⟨name, body⟩ := slot
    exact congrArg (NamedSlot.mk name body :: ·) ih

/-- Adding slots merges nothing. -/
theorem addChildren_map_child (children : List Child) (slots : List NamedSlot) :
    addChildren children (slots.map NamedSlot.child) = children ++ slots.map NamedSlot.child := by
  induction slots generalizing children with
  | nil => exact (List.append_nil children).symm
  | cons slot slots ih =>
    have hadd : addChild children slot.child = children ++ [slot.child] := rfl
    have hrest := ih (children ++ [slot.child])
    rw [addChildren] at hrest
    rw [List.map_cons, addChildren, List.foldl_cons, hadd, hrest, List.append_assoc,
      List.singleton_append]

/-- Slots do not end in text. -/
theorem getLast?_map_child (slots : List NamedSlot) (content : String) :
    (slots.map NamedSlot.child).getLast? ≠ some (.text content) := by
  intro h
  obtain ⟨slot, -, hslot⟩ := List.mem_map.mp (List.mem_of_getLast? h)
  cases hslot

/-- The children of a component as printed: its slots, then its content. -/
theorem addChildren_component {allowed : String → Prop} {content : List Node}
    (h : Canonical allowed content) (slots : List NamedSlot) :
    addChildren [] (slots.map NamedSlot.child ++ content.map Child.node) =
      slots.map NamedSlot.child ++ content.map Child.node := by
  have hslots : addChildren [] (slots.map NamedSlot.child) = slots.map NamedSlot.child :=
    addChildren_map_child [] slots
  have hcontent : addChildren (slots.map NamedSlot.child) (content.map Child.node) =
      slots.map NamedSlot.child ++ content.map Child.node :=
    addChildren_of_canonical h fun before hbefore =>
      absurd hbefore (getLast?_map_child slots before)
  rw [addChildren] at hslots hcontent
  rw [addChildren, List.foldl_append, hslots, hcontent]

/-- The branch that an arm of a closed conditional is. -/
def Arm.branch (arm : Arm) : Branch := ⟨arm.condition, nodesOf arm.children⟩

/-! ## Printed nodes -/

namespace Reading

/-- Printed nodes in front of the next lexeme are entered as the nodes. -/
def EntersAll (nodes : List Node) : Prop :=
  ∀ rest : List Char, Marked rest → ∀ r : Reading,
    enter (written nodes ++ rest) r = enter rest (r.add (nodes.map Child.node))

/-- Printed branches are entered behind the last branch of a conditional, up to its end. -/
def EntersBranches (branches : List Branch) : Prop :=
  ∀ (finished : List Arm) (current : Option String) (hasElse : Bool) (raw : String)
    (body : List Node) (rest : List Char), (hasElse = true → branches = []) →
      StopsAt isWordChar rest → ∀ r : Reading,
        enter (writtenBranches false branches ++ ('@' :: "endif".toList ++ rest))
            (r.push ⟨.conditional finished current hasElse, raw, body.map Child.node⟩) =
          enter rest (r.add [.node (.conditional
            (finished.map Arm.branch ++ ⟨current, body⟩ :: branches))])

/-- Printed slots are entered as the slots of a component. -/
def EntersSlots (slots : List NamedSlot) : Prop :=
  ∀ (rest : List Char) (r : Reading), (r.top? Frame.takesSlots).isSome = true →
    enter (writtenSlots slots ++ rest) r = enter rest (r.add (slots.map NamedSlot.child))

/-- Printed text in front of a lexeme is entered as text. -/
theorem enter_text {content : String} (h : IsLiteral content.toList) {rest : List Char}
    (hrest : Marked rest) (r : Reading) :
    enter (Node.written (.text content) ++ rest) r =
      enter rest (r.add [.node (.text content)]) := by
  rw [written_text, enter_literal h hrest, String.ofList_toList]
  rfl

/-- A printed comment is entered as the comment. -/
theorem enter_comment {content : String} (h : Node.Canonical StaysText (.comment content))
    (rest : List Char) (r : Reading) :
    enter (Node.written (.comment content) ++ rest) r =
      enter rest (r.add [.node (.comment content)]) := by
  obtain ⟨htrim, hmark⟩ := h
  have hread := saying?_comment htrim hmark rest
  refine enter_node (by simp) ?_ r
  simpa using hread

/-- A printed echo is entered as the echo. -/
theorem enter_echo {expression : String} {escaped : Bool}
    (h : Node.Canonical StaysText (.echo expression escaped)) (rest : List Char) (r : Reading) :
    enter (Node.written (.echo expression escaped) ++ rest) r =
      enter rest (r.add [.node (.echo expression escaped)]) := by
  obtain ⟨htrim, hne, hline, hmark⟩ := h
  cases escaped with
  | false =>
    have hread := saying?_rawEcho htrim hne hline hmark rest
    refine enter_node (by simp) ?_ r
    simpa using hread
  | true =>
    have hread := saying?_escapedEcho htrim hne hline hmark rest
    refine enter_node (by simp) ?_ r
    simpa using hread

/-- Printed host code is entered as the host code. -/
theorem enter_host {code : String} {echo : Bool} (h : Node.Canonical StaysText (.host code echo))
    (rest : List Char) (r : Reading) :
    enter (Node.written (.host code echo) ++ rest) r =
      enter rest (r.add [.node (.host code echo)]) := by
  obtain ⟨htrim, hmark⟩ := h
  cases echo with
  | false =>
    have hread := saying?_hostCode htrim hmark rest
    refine enter_node (by simp) ?_ r
    simpa using hread
  | true =>
    have hread := saying?_hostEcho htrim hmark rest
    refine enter_node (by simp) ?_ r
    simpa using hread

/-- A printed flag is entered as the flag. -/
theorem enter_flag {kind expression : String}
    (h : Node.Canonical StaysText (.flag kind expression)) (rest : List Char) (r : Reading) :
    enter (Node.written (.flag kind expression) ++ rest) r =
      enter rest (r.add [.node (.flag kind expression)]) := by
  obtain ⟨hkind, hargument⟩ := h
  simp only [List.mem_cons, List.not_mem_nil, or_false] at hkind
  have hkeyword : kind ∈ "elseif" :: argumentKeywords := by
    rcases hkind with rfl | rfl | rfl <;> simp [argumentKeywords]
  have hdirective : directive kind.toList expression.toList = .node (.flag kind expression) := by
    rcases hkind with rfl | rfl | rfl <;> simp [directive]
  refine enter_node (by simp [writtenDirective]) ?_ r
  rw [← hdirective]
  exact saying?_directive hkeyword hargument rest

/-! ## Printed constructs -/

/-- A printed conditional is entered as one, if its first body and its other branches are. -/
theorem EntersAll.conditional {condition : String} {body : List Node} {branches : List Branch}
    (ih : EntersAll body) (hcondition : IsArgument condition.toList)
    (hbody : Canonical StaysText body) (hbranches : EntersBranches branches) {rest : List Char}
    (hrest : StopsAt isWordChar rest) (r : Reading) :
    enter (Node.written (.conditional (⟨some condition, body⟩ :: branches)) ++ rest) r =
      enter rest (r.add [.node (.conditional (⟨some condition, body⟩ :: branches))]) := by
  have hopening : directive "if".toList condition.toList = .opening (.conditional condition) := by
    simp [directive]
  have hwritten : Node.written (.conditional (⟨some condition, body⟩ :: branches)) ++ rest =
      writtenDirective "if" condition.toList ++
        (written body ++ (writtenBranches false branches ++ ('@' :: "endif".toList ++ rest))) := by
    simp [writtenBranch]
  rw [hwritten, enter_directive (by simp [argumentKeywords]) hcondition hopening,
    ih _ (marked_writtenBranches branches rest), push_add_body hbody rfl]
  exact hbranches [] (some condition) false _ body rest (by simp) hrest r

/-- A printed loop is entered as one, if its body is. -/
theorem EntersAll.loop {head : LoopHead} {body : List Node} (ih : EntersAll body)
    (hhead : head.Canonical) (hbody : Canonical StaysText body) {rest : List Char}
    (hrest : StopsAt isWordChar rest) (r : Reading) :
    enter (Node.written (.loop head [] body) ++ rest) r =
      enter rest (r.add [.node (.loop head [] body)]) := by
  have hopening : directive "each".toList head.written = .opening (.loop head) := by
    simp [directive, loopHead?_written hhead]
  have hwritten : Node.written (.loop head [] body) ++ rest =
      writtenDirective "each" head.written ++
        (written body ++ ('@' :: "endeach".toList ++ rest)) := by
    simp
  have hcloser : ("endeach", Closing.loop) ∈ closers := by simp [closers]
  have hmarked : Marked ('@' :: "endeach".toList ++ rest) := marked_cons (.inr (.inl rfl)) _
  rw [hwritten, enter_directive (by simp [argumentKeywords]) (isArgument_written hhead) hopening,
    ih _ hmarked, push_add_body hbody rfl, enter_closer hcloser hrest rfl]
  show enter rest (r.add [.node (.loop head [] (nodesOf (body.map Child.node)))]) = _
  rw [nodesOf_map_node]

/-- A printed existence check is entered as one, if its body is. -/
theorem EntersAll.existence {expression : String} {body : List Node} (ih : EntersAll body)
    (hargument : IsArgument expression.toList) (hbody : Canonical StaysText body)
    {rest : List Char} (hrest : StopsAt isWordChar rest) (r : Reading) :
    enter (Node.written (.existence expression body) ++ rest) r =
      enter rest (r.add [.node (.existence expression body)]) := by
  have hopening : directive "has".toList expression.toList =
      .opening (.existence expression) := by simp [directive]
  have hwritten : Node.written (.existence expression body) ++ rest =
      writtenDirective "has" expression.toList ++
        (written body ++ ('@' :: "endhas".toList ++ rest)) := by
    simp
  have hcloser : ("endhas", Closing.existence) ∈ closers := by simp [closers]
  have hmarked : Marked ('@' :: "endhas".toList ++ rest) := marked_cons (.inr (.inl rfl)) _
  rw [hwritten, enter_directive (by simp [argumentKeywords]) hargument hopening, ih _ hmarked,
    push_add_body hbody rfl, enter_closer hcloser hrest rfl]
  show enter rest (r.add [.node (.existence expression (nodesOf (body.map Child.node)))]) = _
  rw [nodesOf_map_node]

/-- The arm being read comes behind the finished ones as a branch. -/
theorem map_branch_concat (finished : List Arm) (current : Option String) (raw : String)
    (body : List Node) (branches : List Branch) :
    List.map Arm.branch (finished ++ [⟨current, raw, body.map Child.node⟩]) ++ branches =
      finished.map Arm.branch ++ ⟨current, body⟩ :: branches := by
  have hbranch : Arm.branch ⟨current, raw, body.map Child.node⟩ = ⟨current, body⟩ :=
    congrArg (Branch.mk current) (nodesOf_map_node body)
  rw [List.map_append, List.map_singleton, hbranch, List.append_assoc, List.singleton_append]

/-- No further branches are entered as none. -/
theorem entersBranches_nil : EntersBranches [] := by
  intro finished current hasElse raw body rest _ hrest r
  have hcloser : ("endif", Closing.conditional) ∈ closers := by simp [closers]
  rw [writtenBranches_nil, List.nil_append, enter_closer hcloser hrest rfl]
  have hbranches := map_branch_concat finished current raw body []
  rw [List.append_nil] at hbranches
  rw [← hbranches]
  rfl

/-- A branch keyword goes on with the innermost conditional. -/
theorem enter_branch {source rest : List Char} {condition : Option String} (hne : source ≠ [])
    (h : saying? (source ++ rest) = some (.branch condition, rest)) (finished : List Arm)
    (current : Option String) (raw : String) (children : List Child) (r : Reading) :
    enter (source ++ rest) (r.push ⟨.conditional finished current false, raw, children⟩) =
      enter rest (r.push ⟨.conditional (finished ++ [⟨current, raw, children⟩]) condition
        condition.isNone, String.ofList source, []⟩) := by
  rw [enter_lexeme hne h]
  rfl

/-- A printed branch with a condition is entered in front of further ones. -/
theorem EntersBranches.next {condition : String} {next : List Node} {branches : List Branch}
    (hbranches : EntersBranches branches) (hcondition : IsArgument condition.toList)
    (hnext : Canonical StaysText next) (ih : EntersAll next) :
    EntersBranches (⟨some condition, next⟩ :: branches) := by
  intro finished current hasElse raw body rest helse hrest r
  cases hasElse with
  | true => cases helse rfl
  | false =>
    have hopening : directive "elseif".toList condition.toList = .branch (some condition) := by
      simp [directive]
    have hkeyword : "elseif" ∈ "elseif" :: argumentKeywords := List.mem_cons_self
    have hread := saying?_directive hkeyword hcondition
      (written next ++ (writtenBranches false branches ++ ('@' :: "endif".toList ++ rest)))
    rw [hopening] at hread
    have hwritten : writtenBranches false (⟨some condition, next⟩ :: branches) ++
        ('@' :: "endif".toList ++ rest) =
          writtenDirective "elseif" condition.toList ++ (written next ++
            (writtenBranches false branches ++ ('@' :: "endif".toList ++ rest))) := by
      simp [writtenBranch]
    have hne : writtenDirective "elseif" condition.toList ≠ [] := List.cons_ne_nil _ _
    rw [hwritten, enter_branch hne hread, ih _ (marked_writtenBranches branches rest),
      push_add_body hnext rfl]
    refine (hbranches _ (some condition) false _ next rest (by simp) hrest r).trans ?_
    rw [map_branch_concat]

/-- A printed alternative is entered as the last branch. -/
theorem EntersAll.alternative {next : List Node} (ih : EntersAll next)
    (hnext : Canonical StaysText next) (hallowed : ∀ content ∈ startText next, StaysText content) :
    EntersBranches [⟨none, next⟩] := by
  intro finished current hasElse raw body rest helse hrest r
  cases hasElse with
  | true => cases helse rfl
  | false =>
    have hmarked := marked_writtenBranches [] rest
    obtain ⟨hstops, hcondition⟩ := followsElse_of_staysText hallowed hnext hmarked
    have hread := saying?_else hstops hcondition
    have hwritten : writtenBranches false [⟨none, next⟩] ++ ('@' :: "endif".toList ++ rest) =
        "@else".toList ++ (written next ++
          (writtenBranches false [] ++ ('@' :: "endif".toList ++ rest))) := by
      simp [writtenBranch]
    have hne : "@else".toList ≠ [] := by simp
    rw [hwritten, enter_branch hne hread, ih _ hmarked, push_add_body hnext rfl]
    refine (entersBranches_nil _ none true _ next rest (fun _ => rfl) hrest r).trans ?_
    rw [map_branch_concat]

/-- No slots are entered as none. -/
theorem entersSlots_nil : EntersSlots [] := by
  intro rest r _
  rw [writtenSlots_nil, List.nil_append, List.map_nil, add_nil]

/-- Adding children keeps whether slots may be opened. -/
theorem isSome_top?_add (new : List Child) (r : Reading) :
    ((r.add new).top? Frame.takesSlots).isSome = (r.top? Frame.takesSlots).isSome := by
  obtain ⟨root, frames⟩ := r
  cases frames with
  | nil => rfl
  | cons frame frames =>
    have htakes : Frame.takesSlots { frame with children := addChildren frame.children new } =
        frame.takesSlots := rfl
    cases htest : frame.takesSlots <;> simp [top?, Reading.add, Option.filter, htakes, htest]

/-- A printed slot is entered in front of further ones. -/
theorem EntersSlots.cons {name : String} {body : List Node} {slots : List NamedSlot}
    (hslots : EntersSlots slots) (hname : isSlotName name.toList = true)
    (hbody : Canonical StaysText body) (ih : EntersAll body) :
    EntersSlots (⟨name, body⟩ :: slots) := by
  intro rest r hr
  have hwritten : writtenSlots (⟨name, body⟩ :: slots) ++ rest =
      "<x-slot:".toList ++ (name.toList ++ ['>']) ++
        (written body ++ ("</x-slot>".toList ++ (writtenSlots slots ++ rest))) := by
    simp
  have hopening : saying? ("<x-slot:".toList ++ (name.toList ++ ['>']) ++
      (written body ++ ("</x-slot>".toList ++ (writtenSlots slots ++ rest)))) =
        some (.slotOpening name,
          written body ++ ("</x-slot>".toList ++ (writtenSlots slots ++ rest))) := by
    simpa using saying?_slotOpening hname
      (written body ++ ("</x-slot>".toList ++ (writtenSlots slots ++ rest)))
  have hmarked : Marked ("</x-slot>".toList ++ (writtenSlots slots ++ rest)) :=
    marked_cons (.inr (.inr rfl)) _
  have hstep : ∀ raw, r.step ⟨.slotOpening name, raw⟩ = .ok (r.push ⟨.slot name, raw, []⟩) := by
    intro raw
    exact if_pos hr
  have hclose : ∀ frame raw, frame.isSlot = true →
      (r.push frame).step ⟨.slotClosing, raw⟩ = .ok (r.add [frame.close raw]) := by
    intro frame raw hslot
    have htop : ((r.push frame).top? Frame.isSlot).isSome = true := by simp [top?, push, hslot]
    exact congrArg Except.ok (if_pos htop)
  rw [hwritten, enter_lexeme (by simp) hopening, hstep]
  show enter _ (r.push ⟨.slot name, _, []⟩) = _
  rw [ih _ hmarked, push_add_body hbody rfl, enter_lexeme (by simp) (saying?_slotClosing _),
    hclose _ _ rfl]
  show enter _ (r.add [.slot name _ (nodesOf (body.map Child.node)) _]) = _
  rw [nodesOf_map_node, hslots rest _ ((isSome_top?_add _ r).trans hr), add_append]
  rfl

/-- A printed component is entered as one, if its content and its slots are. -/
theorem EntersAll.component {tag : String} {attributes : List Attribute} {content : List Node}
    {slots : List NamedSlot} (hcontent : EntersAll content)
    (h : Node.Canonical StaysText (.component tag attributes content slots))
    (hslots : EntersSlots slots) (rest : List Char) (r : Reading) :
    enter (Node.written (.component tag attributes content slots) ++ rest) r =
      enter rest (r.add [.node (.component tag attributes content slots)]) := by
  obtain ⟨htag, hslot, hattributes, hkeys, hcanonical, -, hnames⟩ := h
  by_cases hempty : content.isEmpty = true ∧ slots.isEmpty = true
  · obtain ⟨rfl, rfl⟩ : content = [] ∧ slots = [] := by simpa using hempty
    have hread := saying?_tag htag hslot hattributes hkeys true rest
    refine enter_node (by simp) ?_ r
    simpa [writtenBody, tagMark] using hread
  · have hwritten : Node.written (.component tag attributes content slots) ++ rest =
        "<x-".toList ++ (tag.toList ++ (writtenBody attributes false ++ tagMark false)) ++
          (writtenSlots slots ++ (written content ++
            ("</x-".toList ++ (tag.toList ++ ['>']) ++ rest))) := by
      rw [written_component, if_neg (by simpa using hempty)]
      simp [writtenBody, tagMark]
    have hopening := saying?_tag htag hslot hattributes hkeys false
      (writtenSlots slots ++ (written content ++ ("</x-".toList ++ (tag.toList ++ ['>']) ++ rest)))
    have hclosing := saying?_tagClosing htag hslot rest
    have hmarked : Marked ("</x-".toList ++ (tag.toList ++ ['>']) ++ rest) :=
      marked_cons (.inr (.inr rfl)) _
    have hchildren := addChildren_component hcanonical slots
    have hclose : ∀ frame raw, frame.isComponent tag = true →
        (r.push frame).step ⟨.tagClosing tag, raw⟩ = .ok (r.add [frame.close raw]) := by
      intro frame raw hcomponent
      simp [step, closeTag, push, List.findIdx?_cons, hcomponent, abandonMany, close]
    rw [hwritten, enter_lexeme (by simp) (by simpa using hopening)]
    show enter _ (r.push ⟨.component tag attributes, _, []⟩) = _
    rw [hslots _ _ rfl, hcontent _ hmarked, add_append]
    show enter _ (r.push ⟨.component tag attributes, _, addChildren [] _⟩) = _
    rw [hchildren, enter_lexeme (by simp) (by simpa using hclosing),
      hclose _ _ (by simp [Frame.isComponent])]
    have hnodes : nodesOf (slots.map NamedSlot.child ++ content.map Child.node) = content := by
      rw [nodesOf, List.filterMap_append, ← nodesOf, ← nodesOf, nodesOf_map_child,
        nodesOf_map_node, List.nil_append]
    have hdefault : Frame.defaultContent
        (slots.map NamedSlot.child ++ content.map Child.node) = content := by
      have hadd := addChildren_component hcanonical []
      rw [Frame.defaultContent, hnodes]
      exact (congrArg nodesOf hadd).trans (nodesOf_map_node content)
    have hcollect : collectBy NamedSlot.name
        (slotsOf (slots.map NamedSlot.child ++ content.map Child.node)) = slots := by
      rw [slotsOf_append, slotsOf_map_child, slotsOf_map_node, List.append_nil,
        collectBy_eq_self hnames]
    show enter rest (r.add [.node (.component tag attributes (Frame.defaultContent _)
      (collectBy NamedSlot.name (slotsOf _)))]) = _
    rw [hdefault, hcollect]

mutual

/-- **A printed node is entered as the node.** -/
theorem enter_writtenNode (node : Node) (h : node.Canonical StaysText) {rest : List Char}
    (hrest : node.Follows rest) (r : Reading) :
    enter (node.written ++ rest) r = enter rest (r.add [.node node]) := by
  match node, h with
  | .text content, h => exact enter_text h hrest r
  | .comment content, h => exact enter_comment h rest r
  | .echo expression escaped, h => exact enter_echo h rest r
  | .host code echo, h => exact enter_host h rest r
  | .flag kind expression, h => exact enter_flag h rest r
  | .conditional [], ⟨hstart, _⟩ => exact hstart.elim
  | .conditional (⟨none, _⟩ :: _), ⟨hstart, _⟩ => exact hstart.elim
  | .conditional (⟨some condition, body⟩ :: branches), ⟨_, hcondition, hbody, hbranches⟩ =>
    exact (enter_written body hbody).conditional hcondition hbody
      (enter_writtenBranches branches hbranches) hrest r
  | .loop head _ body, ⟨hhead, rfl, hbody⟩ =>
    exact (enter_written body hbody).loop hhead hbody hrest r
  | .existence expression body, ⟨hargument, hbody⟩ =>
    exact (enter_written body hbody).existence hargument hbody hrest r
  | .component tag attributes content slots,
      ⟨htag, hslot, hattributes, hkeys, hcontent, hslots, hnames⟩ =>
    exact (enter_written content hcontent).component
      ⟨htag, hslot, hattributes, hkeys, hcontent, hslots, hnames⟩
      (enter_writtenSlots slots hslots) rest r

/-- **Printed nodes are entered as the nodes.** -/
theorem enter_written (nodes : List Node) (h : Canonical StaysText nodes) : EntersAll nodes := by
  intro rest hrest r
  match nodes, h with
  | [], _ => rw [written_nil, List.nil_append, List.map_nil, add_nil]
  | node :: nodes, ⟨hnode, hprecedes, hnodes⟩ =>
    have hfollows := follows_of_precedes hprecedes hnodes hrest
    rw [written_cons, List.append_assoc, enter_writtenNode node hnode hfollows,
      enter_written nodes hnodes rest hrest, add_append]
    rfl

/-- The printed branches of a canonical conditional are entered. -/
theorem enter_writtenBranches (branches : List Branch)
    (h : CanonicalBranches StaysText branches) : EntersBranches branches := by
  match branches, h with
  | [], _ => exact entersBranches_nil
  | ⟨some condition, next⟩ :: branches, ⟨hcondition, hnext, hbranches⟩ =>
    exact (enter_writtenBranches branches hbranches).next hcondition hnext
      (enter_written next hnext)
  | ⟨none, next⟩ :: _, ⟨rfl, hnext, hallowed⟩ =>
    exact (enter_written next hnext).alternative hnext hallowed

/-- The printed slots of a canonical component are entered. -/
theorem enter_writtenSlots (slots : List NamedSlot) (h : CanonicalSlots StaysText slots) :
    EntersSlots slots := by
  match slots, h with
  | [], _ => exact entersSlots_nil
  | ⟨name, body⟩ :: slots, ⟨hname, hbody, hslots⟩ =>
    exact (enter_writtenSlots slots hslots).cons hname hbody (enter_written body hbody)
end

end Reading

/-- **Parsing undoes printing.** -/
theorem parse_written {nodes : List Node} (h : Canonical StaysText nodes) :
    parse (String.ofList (written nodes)) = .ok nodes := by
  have hread : Reading.enter (written nodes) .start =
      .ok (Reading.start.add (nodes.map Child.node)) := by
    have := Reading.enter_written nodes h [] marked_nil .start
    rwa [List.append_nil, Reading.enter_nil] at this
  have hchildren : addChildren [] (nodes.map Child.node) = nodes.map Child.node :=
    addChildren_of_canonical h fun before hbefore => by cases hbefore
  have hfinish : (Reading.start.add (nodes.map Child.node)).finish = nodes := by
    show nodesOf (addChildren [] (nodes.map Child.node)) = nodes
    rw [hchildren, nodesOf_map_node]
  rw [Reading.enter] at hread
  rw [parse, lexemes, String.toList_ofList, hread]
  exact congrArg Except.ok hfinish

/-- Components of one name in each other's slots, a collection with the word `as` in it, and the
alternative of a conditional. -/
theorem parse_written_nested :
    ∃ nodes, nodes.length = 2 ∧ Canonical StaysText nodes ∧
      parse (String.ofList (written nodes)) = .ok nodes := by
  have hloop : LoopHead.Canonical ⟨"f(' as $x')", "v", some "k"⟩ := by
    refine ⟨⟨by decide, by decide, by decide⟩, ?_, by decide, ?_⟩
    · intro key hkey
      obtain rfl := Option.some.inj hkey
      decide
    · intro c hc
      obtain rfl : 'v' = c := Option.some.inj hc
      decide
  have htext : IsLiteral "t".toList := isLiteral_of_notMem (by decide) (by decide)
  have halternative : IsLiteral " ıf(x)".toList :=
    isLiteral_of_notMem (by decide) (by decide)
  have hstays : StaysText " ıf(x)" := by
    refine ⟨Expression.stopsAt_cons.mpr (by decide), fun found rest hword => ?_⟩
    simp [foldedWord?, Text.foldsTo] at hword
  have hattribute : Attribute.Canonical ⟨true, "n", some ">"⟩ := by
    refine ⟨⟨'n', [], rfl, by decide, fun _ hd => absurd hd List.not_mem_nil⟩, ?_⟩
    intro value hvalue
    obtain rfl := Option.some.inj hvalue
    decide
  have hinner : Node.Canonical StaysText (.component "b" [] [] []) :=
    ⟨by decide, by decide, List.forall_mem_nil _, List.nodup_nil, trivial, trivial, List.nodup_nil⟩
  have hlast : ∀ node : Node, node.Precedes [] := fun node content hcontent => by cases hcontent
  have hcomponent : Node.Canonical StaysText
      (.component "b" [⟨true, "n", some ">"⟩] [.text "t"] [⟨"s", [.component "b" [] [] []]⟩]) :=
    ⟨by decide, by decide, List.forall_mem_singleton.mpr hattribute, by decide,
      ⟨htext, hlast _, trivial⟩, ⟨by decide, ⟨hinner, hlast _, trivial⟩, trivial⟩,
      by decide⟩
  have hconditional : Node.Canonical StaysText
      (.conditional [⟨some "c", []⟩, ⟨none, [.text " ıf(x)"]⟩]) := by
    refine ⟨trivial, ⟨by decide, by decide, by decide⟩, trivial, rfl,
      ⟨halternative, hlast _, trivial⟩, fun content hcontent => ?_⟩
    obtain rfl := Option.some.inj hcontent
    exact hstays
  have hloopLast : ∀ head body branches,
      Node.Precedes (.loop head [] body) [.conditional branches] :=
    fun head body branches content hcontent => by cases hcontent
  have h : Canonical StaysText
      [.loop ⟨"f(' as $x')", "v", some "k"⟩ []
        [.component "b" [⟨true, "n", some ">"⟩] [.text "t"] [⟨"s", [.component "b" [] [] []]⟩]],
      .conditional [⟨some "c", []⟩, ⟨none, [.text " ıf(x)"]⟩]] :=
    ⟨⟨hloop, rfl, hcomponent, hlast _, trivial⟩, hloopLast _ _ _, hconditional, hlast _,
      trivial⟩
  exact ⟨_, rfl, h, parse_written h⟩

/-- The dotless `ı` makes the keyword of an alternative and its text the keyword of a condition, so
that the text becomes an expression. -/
theorem exists_parse_written_ne :
    ∃ nodes, Canonical (fun content => StartsApart content.toList) nodes ∧
      parse (String.ofList (written nodes)) ≠ .ok nodes := by
  have hexpression : ((parse "@if(c)@elseıf($x)@endif").toOption.map
      fun nodes => freeVariables nodes []) = some ["x"] := by
    decide +kernel
  refine ⟨[.conditional [⟨some "c", []⟩, ⟨none, [.text "ıf($x)"]⟩]], ?_, fun hparse => ?_⟩
  · have htext : IsLiteral "ıf($x)".toList := isLiteral_of_notMem (by decide) (by decide)
    have hlast : ∀ node : Node, node.Precedes [] := fun node content hcontent => by cases hcontent
    refine ⟨⟨trivial, ⟨by decide, by decide, by decide⟩, trivial, rfl, ⟨htext, hlast _, trivial⟩,
      fun content hcontent => ?_⟩, hlast _, trivial⟩
    obtain rfl := Option.some.inj hcontent
    exact Expression.stopsAt_cons.mpr (by decide)
  · have hwritten :
      String.ofList (written [.conditional [⟨some "c", []⟩, ⟨none, [.text "ıf($x)"]⟩]]) =
        "@if(c)@elseıf($x)@endif" := by
      decide +kernel
    have hnone :
      freeVariables [.conditional [⟨some "c", []⟩, ⟨none, [.text "ıf($x)"]⟩]] [] = [] := by
      decide +kernel
    rw [hwritten] at hparse
    rw [hparse, Except.toOption, Option.map_some, hnone] at hexpression
    cases hexpression

end ViewCompiler.Template
