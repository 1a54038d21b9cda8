import Mathlib.Data.List.Forall2
import ViewCompiler.Proofs.Template.Derivation
import ViewCompiler.Template.Parse

/-!
# What has been read

The invariant of a reading (`Reads`): the children at the top level and the open constructs derive
the text read so far. An open construct has two derivations, because it is not known yet whether it
will be closed: its opening lexemes are the start of its node (`Frame.Opened`), and its opening
lexemes and children are text and nodes in order (`DerivesArms`). Each operation on a reading keeps
the invariant, and a run of the parser is a derivation of the template (`exists_slices_of_parse`).
-/

namespace ViewCompiler.Template

/-! ## Open constructs -/

/-- The text is the opening lexeme of each arm and a way of writing its children, in order. -/
inductive DerivesArms : List Arm → List Char → Prop where
  | nil : DerivesArms [] []
  | cons {arm : Arm} {arms : List Arm} {inside rest : List Char}
      (h : DerivesChildren arm.children inside) (harms : DerivesArms arms rest) :
      DerivesArms (arm :: arms) (arm.raw.toList ++ (inside ++ rest))

/-- The opening lexemes of a conditional: the condition of its first branch, then those of its
other branches. Only the last one may be the alternative. -/
def OpensConditional (openings : List (Option String × String)) : Prop :=
  ∃ condition raw rest, openings = (some condition, raw) :: rest ∧
    Spelling (.opening (.conditional condition)) raw.toList ∧
    (∀ o ∈ rest, Spelling (.branch o.1) o.2.toList) ∧ ∀ o ∈ openings.dropLast, o.1.isSome = true

/-- A further branch may follow branches that all have conditions. -/
theorem OpensConditional.concat {openings : List (Option String × String)}
    {condition : Option String} {raw : String} (h : OpensConditional openings)
    (hall : ∀ o ∈ openings, o.1.isSome = true) (hraw : Spelling (.branch condition) raw.toList) :
    OpensConditional (openings ++ [(condition, raw)]) := by
  obtain ⟨first, rawFirst, rest, rfl, hfirst, hrest, -⟩ := h
  refine ⟨first, rawFirst, rest ++ [(condition, raw)], rfl, hfirst, ?_, ?_⟩
  · intro o ho
    rcases List.mem_append.mp ho with ho | ho
    · exact hrest o ho
    · rw [List.mem_singleton.mp ho]
      exact hraw
  · rwa [List.dropLast_concat]

namespace Frame

/-- The branches of the frame before the last one. -/
def finished (frame : Frame) : List Arm :=
  match frame.construct with
  | .conditional finished _ _ => finished
  | _ => []

/-- The condition of the last branch of the frame. -/
def condition (frame : Frame) : Option String :=
  match frame.construct with
  | .conditional _ condition _ => condition
  | _ => none

/-- The arms of a frame are its finished ones and the one being read. -/
theorem arms_eq (frame : Frame) :
    frame.arms = frame.finished ++ [⟨frame.condition, frame.raw, frame.children⟩] := by
  obtain ⟨construct, raw, children⟩ := frame
  cases construct <;> rfl

/-- The frame was opened as its construct is written. The alternative of a conditional was started
exactly if the current branch has no condition. -/
def Opened (frame : Frame) : Prop :=
  match frame.construct with
  | .conditional _ condition hasElse =>
    OpensConditional (frame.arms.map fun arm => (arm.condition, arm.raw)) ∧
      hasElse = condition.isNone
  | .loop head => Spelling (.opening (.loop head)) frame.raw.toList
  | .existence expression => Spelling (.opening (.existence expression)) frame.raw.toList
  | .component tag attributes =>
    Spelling (.opening (.component tag attributes)) frame.raw.toList
  | .slot name => Spelling (.slotOpening name) frame.raw.toList

/-- The text closes the frame. -/
def Closes (frame : Frame) (closing : String) : Prop :=
  match frame.construct with
  | .conditional .. => Spelling (.closing .conditional) closing.toList
  | .loop _ => Spelling (.closing .loop) closing.toList
  | .existence _ => Spelling (.closing .existence) closing.toList
  | .component tag _ => Spelling (.tagClosing tag) closing.toList
  | .slot _ => Spelling .slotClosing closing.toList

/-- The frame and its children derive the text. Only a component has slots. -/
structure Derives (frame : Frame) (source : List Char) : Prop where
  opened : frame.Opened
  arms : DerivesArms frame.arms source
  slots : frame.takesSlots = false → ∀ arm ∈ frame.arms, slotsOf arm.children = []

end Frame

/-! ## Arms -/

/-- Arms derive a source if all but the last derive a front of it and the last one the rest. -/
theorem derivesArms_concat {arms : List Arm} {arm : Arm} {source : List Char} :
    DerivesArms (arms ++ [arm]) source ↔ ∃ before inside, DerivesArms arms before ∧
      DerivesChildren arm.children inside ∧ source = before ++ (arm.raw.toList ++ inside) := by
  induction arms generalizing source with
  | nil =>
    constructor
    · intro h
      cases h with
      | cons h hnil =>
        cases hnil
        exact ⟨[], _, .nil, h, by rw [List.append_nil, List.nil_append]⟩
    · rintro ⟨before, inside, hnil, h, rfl⟩
      cases hnil
      have := DerivesArms.cons h .nil
      rwa [List.append_nil] at this
  | cons first arms ih =>
    constructor
    · intro h
      cases h with
      | cons hfirst h =>
        obtain ⟨before, inside, hbefore, hinside, rfl⟩ := ih.mp h
        exact ⟨_, inside, .cons hfirst hbefore, hinside, by simp⟩
    · rintro ⟨before, inside, hbefore, hinside, rfl⟩
      cases hbefore with
      | cons hfirst hbefore =>
        have := DerivesArms.cons hfirst (ih.mpr ⟨_, inside, hbefore, hinside, rfl⟩)
        simpa using this

/-- A construct that is never closed is text and nodes. -/
theorem DerivesArms.unwrapped {arms : List Arm} {source : List Char}
    (h : DerivesArms arms source) :
    DerivesChildren
      (arms.flatMap fun arm => .text arm.raw :: arm.children.flatMap Child.unwrapped) source := by
  induction h with
  | nil => exact .nil
  | cons h _ ih => exact .node (.text _) (h.unwrapped.append ih)

/-- Branches that are never closed leave no slots. -/
theorem slotsOf_unwrapped_arms (arms : List Arm) :
    slotsOf (arms.flatMap fun arm =>
      .text arm.raw :: arm.children.flatMap Child.unwrapped) = [] := by
  induction arms with
  | nil => rfl
  | cons arm arms ih =>
    rw [List.flatMap_cons, slotsOf_append, ih, List.append_nil]
    exact slotsOf_unwrapped arm.children

/-- What stands before the last element still does behind another first one. -/
theorem mem_dropLast_cons {α : Type} {a b : α} {l : List α} (h : b ∈ l.dropLast) :
    b ∈ (a :: l).dropLast := by
  cases l with
  | nil => cases h
  | cons c l => exact List.mem_cons_of_mem a h

/-- The branches after the first, when the conditional is closed. -/
theorem DerivesArms.branches {arms : List Arm} {source : List Char} (h : DerivesArms arms source)
    (hopenings : ∀ arm ∈ arms, Spelling (.branch arm.condition) arm.raw.toList)
    (hconditions : ∀ arm ∈ arms.dropLast, arm.condition.isSome = true)
    (hslots : ∀ arm ∈ arms, slotsOf arm.children = []) :
    DerivesBranches (arms.map fun arm => ⟨arm.condition, nodesOf arm.children⟩) source := by
  induction h with
  | nil => exact .nil
  | @cons arm arms inside rest h harms ih =>
    obtain ⟨hopening, hopenings'⟩ := List.forall_mem_cons.mp hopenings
    obtain ⟨hplain, hslots'⟩ := List.forall_mem_cons.mp hslots
    have hbody := h.nodes hplain
    obtain ⟨condition, raw, children⟩ := arm
    cases condition with
    | some condition =>
      exact .next hopening hbody <|
        ih hopenings' (fun other hother => hconditions other (mem_dropLast_cons hother)) hslots'
    | none =>
      cases arms with
      | nil =>
        cases harms
        have := DerivesBranches.alternative hopening hbody
        simpa using this
      | cons next arms => exact absurd (hconditions _ List.mem_cons_self) (by simp)

/-- Arms in front of a closing directive derive the conditional of their branches. -/
theorem DerivesArms.conditional {arms : List Arm} {source closing : List Char}
    (h : DerivesArms arms source)
    (hopens : OpensConditional (arms.map fun arm => (arm.condition, arm.raw)))
    (hslots : ∀ arm ∈ arms, slotsOf arm.children = [])
    (hclosing : Spelling (.closing .conditional) closing) :
    Derives (.conditional (arms.map fun arm => ⟨arm.condition, nodesOf arm.children⟩))
      (source ++ closing) := by
  obtain ⟨condition, raw, openings, heq, hopening, hopenings, hconditions⟩ := hopens
  cases h with
  | nil => cases heq
  | @cons arm arms inside rest h harms =>
    obtain ⟨harm, rfl⟩ := List.cons.inj heq
    obtain ⟨hcondition, rfl⟩ := Prod.mk.inj harm
    obtain ⟨hplain, hslots⟩ := List.forall_mem_cons.mp hslots
    have hbranches := harms.branches
      (fun other hother => hopenings _ (List.mem_map_of_mem hother))
      (fun other hother => hconditions (other.condition, other.raw) (by
        rw [← List.map_dropLast]
        exact List.mem_map_of_mem (mem_dropLast_cons hother)))
      hslots
    have := Derives.conditional hopening (h.nodes hplain) hbranches hclosing
    rw [List.map_cons, hcondition]
    simpa using this

/-! ## Frames -/

namespace Frame

/-- A frame that is closed derives its source and the closing lexeme. -/
theorem Derives.close {frame : Frame} {closing : String} {source : List Char}
    (h : frame.Derives source) (hclosing : frame.Closes closing) :
    DerivesChildren [frame.close closing] (source ++ closing.toList) := by
  obtain ⟨construct, raw, children⟩ := frame
  obtain ⟨hopened, harms, hslots⟩ := h
  cases construct with
  | conditional finished condition hasElse =>
    exact .singleton (harms.conditional hopened.1 (hslots rfl) hclosing)
  | loop head =>
    cases harms with
    | cons h hnil =>
      cases hnil
      have := Template.Derives.loop hopened (h.nodes (hslots rfl _ List.mem_cons_self)) hclosing
      exact .singleton (by simpa using this)
  | existence expression =>
    cases harms with
    | cons h hnil =>
      cases hnil
      have :=
        Template.Derives.existence hopened (h.nodes (hslots rfl _ List.mem_cons_self)) hclosing
      exact .singleton (by simpa using this)
  | component tag attributes =>
    cases harms with
    | cons h hnil =>
      cases hnil
      have := Template.Derives.component hopened h hclosing
      exact .singleton (by simpa using this)
  | slot name =>
    cases harms with
    | cons h hnil =>
      cases hnil
      have :=
        DerivesChildren.slot hopened (h.nodes (hslots rfl _ List.mem_cons_self)) hclosing .nil
      simpa [Frame.close] using this

/-- In a frame that is never closed all slots are text: only a component has any. -/
theorem Derives.unwrapped_eq {frame : Frame} {source : List Char} (h : frame.Derives source) :
    frame.unwrapped = frame.arms.flatMap fun arm =>
      .text arm.raw :: arm.children.flatMap Child.unwrapped := by
  have hplain (htakes : frame.takesSlots = false) :
      (frame.arms.flatMap fun arm => .text arm.raw :: arm.children) =
        frame.arms.flatMap fun arm => .text arm.raw :: arm.children.flatMap Child.unwrapped :=
    List.flatMap_congr fun arm harm => by rw [flatMap_unwrapped (h.slots htakes arm harm)]
  obtain ⟨construct, raw, children⟩ := frame
  cases construct with
  | component => exact (List.flatMap_singleton _ _).symm
  | conditional | loop | existence | slot => exact hplain rfl

/-- A frame that is never closed is text and nodes. -/
theorem Derives.unwrapped {frame : Frame} {source : List Char} (h : frame.Derives source) :
    DerivesChildren frame.unwrapped source := by
  rw [h.unwrapped_eq]
  exact h.arms.unwrapped

/-- A frame that is never closed leaves no slots. -/
theorem Derives.slotsOf_unwrapped {frame : Frame} {source : List Char} (h : frame.Derives source) :
    slotsOf frame.unwrapped = [] := by
  rw [h.unwrapped_eq]
  exact slotsOf_unwrapped_arms frame.arms

/-- Children are added to the last branch. -/
theorem Derives.addChildren {frame : Frame} {new : List Child} {source inside : List Char}
    (h : frame.Derives source) (hnew : DerivesChildren new inside)
    (hslots : slotsOf new = [] ∨ frame.takesSlots = true) :
    Derives { frame with children := addChildren frame.children new } (source ++ inside) := by
  obtain ⟨hopened, harms, hplain⟩ := h
  rw [arms_eq, derivesArms_concat] at harms
  obtain ⟨before, last, hbefore, hlast, rfl⟩ := harms
  refine ⟨?_, ?_, ?_⟩
  · -- How the branches were opened does not depend on the children.
    obtain ⟨construct, raw, children⟩ := frame
    cases construct <;> simpa [Opened, Frame.arms] using hopened
  · rw [arms_eq, derivesArms_concat]
    exact ⟨before, last ++ inside, hbefore, hlast.addChildren hnew, by simp⟩
  · intro htakes arm harm
    have htakes : frame.takesSlots = false := htakes
    have hnone := hslots.resolve_right (by rw [htakes]; exact Bool.false_ne_true)
    rw [arms_eq, List.mem_append, List.mem_singleton] at harm
    rcases harm with harm | rfl
    · exact hplain htakes arm (by rw [arms_eq]; exact List.mem_append_left _ harm)
    · have hlastPlain := hplain htakes ⟨frame.condition, frame.raw, frame.children⟩
        (by rw [arms_eq]; exact List.mem_append_right _ List.mem_cons_self)
      rw [slotsOf_addChildren, hnone, List.append_nil]
      exact hlastPlain

/-- A frame that was just opened. -/
theorem derives_mk {construct : Construct} {raw : String}
    (h : Opened ⟨construct, raw, []⟩) (hfinished : finished ⟨construct, raw, []⟩ = []) :
    Derives ⟨construct, raw, []⟩ raw.toList := by
  have harms : arms ⟨construct, raw, []⟩ = [⟨condition ⟨construct, raw, []⟩, raw, []⟩] := by
    rw [arms_eq, hfinished, List.nil_append]
  refine ⟨h, ?_, ?_⟩
  · rw [harms]
    exact derivesArms_concat.mpr ⟨[], [], .nil, .nil, (List.append_nil _).symm⟩
  · rw [harms]
    rintro - arm harm
    rw [List.mem_singleton.mp harm]
    rfl

/-- A frame that was just opened derives its opening lexeme. -/
theorem derives_ofOpening {opening : Opening} {raw : String}
    (h : Spelling (.opening opening) raw.toList) : (ofOpening opening raw).Derives raw.toList := by
  cases opening with
  | conditional condition =>
    refine derives_mk ⟨⟨condition, raw, [], rfl, h, ?_, ?_⟩, rfl⟩ rfl
    · exact fun _ ho => nomatch ho
    · exact fun _ ho => nomatch ho
  | loop head => exact derives_mk h rfl
  | existence expression => exact derives_mk h rfl
  | component tag attributes => exact derives_mk h rfl

/-- The next branch of a conditional. -/
theorem Derives.branch {frame next : Frame} {condition : Option String} {raw : String}
    {source : List Char} (h : frame.Derives source)
    (hnext : frame.branch? condition raw = some next)
    (hraw : Spelling (.branch condition) raw.toList) : next.Derives (source ++ raw.toList) := by
  obtain ⟨construct, raw', children⟩ := frame
  obtain ⟨hopened, harms, hplain⟩ := h
  cases construct with
  | conditional finished current hasElse =>
    cases hasElse with
    | true => cases hnext
    | false =>
      obtain rfl := Option.some.inj hnext
      obtain ⟨hopened, helse⟩ := hopened
      have hsome : current.isSome = true := by rw [← Option.not_isNone, ← helse]; rfl
      have hcurrent : ∀ o ∈ (Frame.arms ⟨.conditional finished current false, raw', children⟩).map
          fun arm => (arm.condition, arm.raw), o.1.isSome = true := by
        obtain ⟨_, _, _, _, _, _, hconditions⟩ := hopened
        intro o ho
        rw [Frame.arms, List.map_append] at ho hconditions
        rcases List.mem_append.mp ho with ho | ho
        · exact hconditions o (by rwa [List.map_singleton, List.dropLast_concat])
        · rw [List.mem_singleton.mp ho]
          exact hsome
      have hnextOpened := hopened.concat hcurrent hraw
      refine ⟨⟨?_, rfl⟩, ?_, ?_⟩
      · simpa [Frame.arms] using hnextOpened
      · refine derivesArms_concat.mpr ⟨source, [], harms, .nil, ?_⟩
        rw [List.append_nil]
      · intro _ arm harm
        rcases List.mem_append.mp harm with harm | harm
        · exact hplain rfl arm harm
        · rw [List.mem_singleton.mp harm]
          rfl
  | loop _ | existence _ | component _ _ | slot _ => cases hnext

end Frame

/-! ## Readings -/

namespace Reading

/-- The innermost construct can hold named slots. -/
def holdsSlots (r : Reading) : Bool := (r.top? Frame.takesSlots).isSome

/-- The reading derives the text read so far: its open constructs, the innermost last, behind what
stands at the top level. Only a component has slots, finished ones or one that is open. -/
inductive Reads : Reading → List Char → Prop where
  | root {root : List Child} {source : List Char} (h : DerivesChildren root source)
      (hslots : slotsOf root = []) : Reads ⟨root, []⟩ source
  | frame {root : List Child} {frames : List Frame} {frame : Frame} {before inside : List Char}
      (h : Reads ⟨root, frames⟩ before) (hframe : frame.Derives inside)
      (hslot : frame.isSlot = true → holdsSlots ⟨root, frames⟩ = true) :
      Reads ⟨root, frame :: frames⟩ (before ++ inside)

/-- Adding children to a reading adds their source. -/
theorem Reads.add {r : Reading} {new : List Child} {before inside : List Char}
    (h : Reads r before) (hnew : DerivesChildren new inside)
    (hslots : slotsOf new = [] ∨ r.holdsSlots = true) : Reads (r.add new) (before ++ inside) := by
  cases h with
  | root h hroot =>
    refine .root (h.addChildren hnew) ?_
    rw [slotsOf_addChildren, hroot, List.nil_append]
    exact hslots.resolve_right Bool.false_ne_true
  | @frame root frames frame before last h hframe hslot =>
    rw [List.append_assoc]
    refine .frame h (hframe.addChildren hnew (hslots.imp_right fun htop => ?_)) hslot
    simpa [holdsSlots, top?] using htop

/-- Adding text to a reading adds it to the source. -/
theorem Reads.addText {r : Reading} {before : List Char} (h : Reads r before) (content : String) :
    Reads (r.addText content) (before ++ content.toList) :=
  h.add (.singleton (.text content)) (.inl rfl)

/-- Abandoning a construct keeps what was read. -/
theorem Reads.abandon {r : Reading} {source : List Char} (h : Reads r source) :
    Reads r.abandon source := by
  cases h with
  | root h hroot => exact .root h hroot
  | frame h hframe hslot => exact h.add hframe.unwrapped (.inl hframe.slotsOf_unwrapped)

/-- Abandoning several constructs keeps what was read. -/
theorem Reads.abandonMany {r : Reading} {source : List Char} (h : Reads r source) (n : Nat) :
    Reads (r.abandonMany n) source := by
  induction n generalizing r with
  | zero => exact h
  | succ n ih => exact ih h.abandon

/-- What a construct becomes is added to the construct around it. -/
theorem Reads.close {r : Reading} {frame : Frame} {frames : List Frame} {closing : String}
    {source : List Char} (h : Reads r source) (hframes : r.frames = frame :: frames)
    (hclosing : frame.Closes closing) : Reads (r.close closing) (source ++ closing.toList) := by
  cases h with
  | root h hroot => cases hframes
  | @frame root frames' frame' before inside h hframe hslot =>
    obtain ⟨rfl, rfl⟩ := List.cons.inj hframes
    rw [List.append_assoc]
    refine h.add (hframe.close hclosing) ?_
    obtain ⟨construct, raw, children⟩ := frame'
    cases construct with
    | slot name => exact .inr (hslot rfl)
    | conditional | loop | existence | component => exact .inl rfl

/-! ## Which constructs are open -/

/-- The open constructs, innermost first. -/
def constructs (r : Reading) : List Construct := r.frames.map Frame.construct

/-- Adding children opens and closes nothing. -/
theorem constructs_add (new : List Child) (r : Reading) :
    (r.add new).constructs = r.constructs := by
  obtain ⟨root, frames⟩ := r
  cases frames <;> rfl

/-- Abandoning a construct leaves those around it. -/
theorem constructs_abandon (r : Reading) : r.abandon.constructs = r.constructs.tail := by
  obtain ⟨root, frames⟩ := r
  cases frames with
  | nil => rfl
  | cons frame frames => exact constructs_add _ _

/-- Abandoning several constructs leaves those around them. -/
theorem constructs_abandonMany (n : Nat) (r : Reading) :
    (r.abandonMany n).constructs = r.constructs.drop n := by
  induction n generalizing r with
  | zero => rfl
  | succ n ih => rw [abandonMany, ih, constructs_abandon, List.drop_tail]

/-! ## Entering a lexeme -/

/-- Whatever a closing tag closes, it is read. -/
theorem Reads.closeTag {r : Reading} {tag raw : String} {source : List Char} (h : Reads r source)
    (hraw : Spelling (.tagClosing tag) raw.toList) :
    Reads (r.closeTag tag raw) (source ++ raw.toList) := by
  unfold Reading.closeTag
  split
  · rename_i n hn
    obtain ⟨hlt, hcomponent, -⟩ := List.findIdx?_eq_some_iff_getElem.mp hn
    have hconstructs := constructs_abandonMany n r
    rw [constructs, constructs, ← List.map_drop, List.drop_eq_getElem_cons hlt, List.map_cons]
      at hconstructs
    obtain ⟨frame, frames, hframes, hframe, -⟩ := List.map_eq_cons_iff.mp hconstructs
    refine (h.abandonMany n).close hframes ?_
    unfold Frame.isComponent at hcomponent
    rw [← hframe] at hcomponent
    split at hcomponent
    · rename_i name attributes hconstruct
      rw [beq_iff_eq] at hcomponent
      rw [Frame.Closes, hconstruct, hcomponent]
      exact hraw
    · cases hcomponent
  · exact h.addText raw

/-- Whether a closing directive closes a construct or stays text, it is read. -/
theorem Reads.closeIf {r : Reading} {test : Frame → Bool} {raw : String} {source : List Char}
    (h : Reads r source) (hraw : ∀ frame, test frame = true → frame.Closes raw) :
    Reads (r.closeIf test raw) (source ++ raw.toList) := by
  unfold Reading.closeIf
  split
  · rename_i htop
    obtain ⟨frame, hframe⟩ := Option.isSome_iff_exists.mp htop
    obtain ⟨hhead, htest⟩ := Option.filter_eq_some_iff.mp hframe
    obtain ⟨frames, hframes⟩ := List.head?_eq_some_iff.mp hhead
    exact h.close hframes (hraw frame htest)
  · exact h.addText raw

/-- Whether a branch goes on with a conditional or stays text, it is read. -/
theorem Reads.branch {r : Reading} {condition : Option String} {raw : String} {source : List Char}
    (h : Reads r source) (hraw : Spelling (.branch condition) raw.toList) :
    Reads (r.branch condition raw) (source ++ raw.toList) := by
  cases h with
  | root h hroot => exact (Reads.root h hroot).addText raw
  | @frame root frames frame before inside h hframe hslot =>
    unfold Reading.branch
    dsimp only
    split
    · rename_i next hnext
      rw [List.append_assoc]
      refine .frame h (hframe.branch hnext hraw) fun hnextSlot => ?_
      unfold Frame.branch? at hnext
      split at hnext
      · obtain rfl := Option.some.inj hnext
        cases hnextSlot
      · cases hnext
    · exact (Reads.frame h hframe hslot).addText raw

/-- **Entering a lexeme derives its text behind the text read so far.** -/
theorem Reads.step {r next : Reading} {l : Lexeme} {source : List Char} (h : Reads r source)
    (hl : Spelling l.saying l.raw.toList) (hnext : r.step l = .ok next) :
    Reads next (source ++ l.raw.toList) := by
  obtain ⟨saying, raw⟩ := l
  cases saying with
  | text =>
    obtain rfl := Except.ok.inj hnext
    exact h.addText raw
  | node node =>
    obtain rfl := Except.ok.inj hnext
    exact h.add (.singleton (.single hl)) (.inl rfl)
  | opening opening =>
    obtain rfl := Except.ok.inj hnext
    refine .frame h (Frame.derives_ofOpening hl) fun hslot => ?_
    cases opening <;> cases hslot
  | branch condition =>
    obtain rfl := Except.ok.inj hnext
    exact h.branch hl
  | closing closing =>
    cases closing with
    | unknown name => cases hnext
    | conditional | loop | existence =>
      obtain rfl := Except.ok.inj hnext
      refine h.closeIf fun frame hclosed => ?_
      obtain ⟨construct, raw', children⟩ := frame
      cases construct <;> first | exact hl | cases hclosed
  | slotOpening name =>
    simp only [Reading.step] at hnext
    split at hnext
    · rename_i htop
      obtain rfl := Except.ok.inj hnext
      exact .frame h (Frame.derives_mk hl rfl) fun _ => htop
    · obtain rfl := Except.ok.inj hnext
      exact h.addText raw
  | slotClosing =>
    obtain rfl := Except.ok.inj hnext
    refine h.closeIf fun frame hslot => ?_
    obtain ⟨construct, raw', children⟩ := frame
    cases construct <;> first | exact hl | cases hslot
  | tagClosing tag =>
    obtain rfl := Except.ok.inj hnext
    exact h.closeTag hl

/-- Lexemes are entered one after the other. -/
theorem exists_step_of_foldlM {l : Lexeme} {ls : List Lexeme} {r next : Reading}
    (h : (l :: ls).foldlM Reading.step r = .ok next) :
    ∃ mid, r.step l = .ok mid ∧ ls.foldlM Reading.step mid = .ok next := by
  rw [List.foldlM_cons] at h
  cases hstep : r.step l with
  | error e =>
    rw [hstep] at h
    cases h
  | ok mid =>
    rw [hstep] at h
    exact ⟨mid, rfl, h⟩

/-- **Entering lexemes derives their text behind the text read so far.** -/
theorem Reads.foldlM_step {ls : List Lexeme} {r next : Reading} {source : List Char}
    (h : Reads r source) (hls : ∀ l ∈ ls, Spelling l.saying l.raw.toList)
    (hnext : ls.foldlM Reading.step r = .ok next) :
    Reads next (source ++ ls.flatMap (·.raw.toList)) := by
  induction ls generalizing r source with
  | nil =>
    obtain rfl := Except.ok.inj hnext
    rwa [List.flatMap_nil, List.append_nil]
  | cons l ls ih =>
    obtain ⟨hl, hls⟩ := List.forall_mem_cons.mp hls
    obtain ⟨mid, hstep, hrest⟩ := exists_step_of_foldlM hnext
    rw [List.flatMap_cons, ← List.append_assoc]
    exact ih (h.step hl hstep) hls hrest

/-- After everything is given up, there are no slots at the top level. -/
theorem Reads.abandonAll {r : Reading} {source : List Char} (h : Reads r source) :
    DerivesChildren (r.abandonMany r.frames.length).root source ∧
      slotsOf (r.abandonMany r.frames.length).root = [] := by
  have hread := h.abandonMany r.frames.length
  have hnone : (r.abandonMany r.frames.length).frames = [] := by
    have := constructs_abandonMany r.frames.length r
    rw [List.drop_of_length_le (by rw [constructs, List.length_map])] at this
    exact List.map_eq_nil_iff.mp this
  revert hread hnone
  generalize r.abandonMany r.frames.length = last
  intro hread hnone
  cases hread with
  | root h hroot => exact ⟨h, hroot⟩
  | frame => cases hnone

/-- The nodes of a finished reading derive what was read. -/
theorem Reads.finish {r : Reading} {source : List Char} (h : Reads r source) :
    DerivesAll r.finish source := h.abandonAll.1.nodes h.abandonAll.2

end Reading

/-! ## Parsing -/

/-- A template is parsed by entering its lexemes, and what is open at the end is given up. -/
theorem exists_reading_of_parse {template : String} {nodes : List Node}
    (h : parse template = .ok nodes) :
    ∃ r, (lexemes template).foldlM Reading.step .start = .ok r ∧ r.finish = nodes := by
  unfold parse at h
  cases hread : (lexemes template).foldlM Reading.step .start with
  | error e =>
    rw [hread] at h
    cases h
  | ok r =>
    rw [hread] at h
    exact ⟨r, rfl, Except.ok.inj h⟩

/-- A reading starts with nothing read. -/
theorem Reading.reads_start : Reading.start.Reads [] := .root .nil rfl

/-- The nodes of a parsed template derive it. -/
theorem derivesAll_of_parse {template : String} {nodes : List Node}
    (h : parse template = .ok nodes) : DerivesAll nodes template.toList := by
  obtain ⟨r, hread, rfl⟩ := exists_reading_of_parse h
  have hreads := Reading.reads_start.foldlM_step (fun _ => spelling_of_mem_lexemes) hread
  rw [List.nil_append, raw_lexemes] at hreads
  exact hreads.finish

/-- A template that can be parsed, and whose tree passes a check. -/
theorem exists_parse_of_any {template : String} {check : List Node → Bool}
    (h : (parse template).toOption.any check = true) :
    ∃ nodes, parse template = .ok nodes ∧ check nodes = true := by
  cases hparse : parse template with
  | error e =>
    rw [hparse] at h
    cases h
  | ok nodes =>
    rw [hparse] at h
    exact ⟨nodes, rfl, h⟩

/-- A source derived by nodes is cut into one slice for each node. -/
theorem DerivesAll.exists_slices {nodes : List Node} {source : List Char}
    (h : DerivesAll nodes source) :
    ∃ slices : List (List Char), slices.flatten = source ∧ List.Forall₂ Derives nodes slices := by
  match h with
  | .nil => exact ⟨[], rfl, .nil⟩
  | .cons hnode h =>
    obtain ⟨slices, rfl, hslices⟩ := h.exists_slices
    exact ⟨_ :: slices, rfl, .cons hnode hslices⟩

/-- **The nodes of a template are written in consecutive slices that make up the template.** -/
theorem exists_slices_of_parse {template : String} {nodes : List Node}
    (h : parse template = .ok nodes) :
    ∃ slices : List (List Char), slices.flatten = template.toList ∧
      List.Forall₂ Derives nodes slices := (derivesAll_of_parse h).exists_slices

/-- A conditional that is never closed, around a component with a slot. -/
theorem exists_slices_of_parse_unclosed :
    ∃ nodes, parse "@if(a)<x-b>\x7b\x7b c \x7d\x7d<x-slot:d>e</x-slot></x-b>" = .ok nodes ∧
      ∃ slices : List (List Char),
        slices.flatten = "@if(a)<x-b>\x7b\x7b c \x7d\x7d<x-slot:d>e</x-slot></x-b>".toList ∧
          List.Forall₂ Derives nodes slices := by
  have hok : (parse "@if(a)<x-b>\x7b\x7b c \x7d\x7d<x-slot:d>e</x-slot></x-b>").isOk = true := by
    decide +kernel
  cases hparse : parse "@if(a)<x-b>\x7b\x7b c \x7d\x7d<x-slot:d>e</x-slot></x-b>" with
  | error e =>
    rw [hparse] at hok
    cases hok
  | ok nodes => exact ⟨nodes, rfl, exists_slices_of_parse hparse⟩

end ViewCompiler.Template
