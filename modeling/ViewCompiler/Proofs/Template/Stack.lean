import ViewCompiler.Proofs.Template.WellFormed

/-!
# The stack of a reading

What the parser may rely on between two lexemes, and while it gives up constructs: `IsStack` says
where the top level, the slots, the texts and the branches of conditionals stand. It follows from
what has been read and from the children being well formed, which every lexeme keeps. So no child
is lost where a construct or the template ends (`IsStack.losesNothing`), and since no lexeme is
empty, each one moves the reading forward (`isStack_of_lexemes`).
-/

namespace ViewCompiler.Template

/-! ## Levels -/

/-- A level of the stack: the top level of the template or an open construct. -/
inductive Level where
  | root (children : List Child)
  | frame (frame : Frame)

/-- The level is the top level of the template. -/
def Level.isRoot : Level → Bool
  | .root _ => true
  | .frame _ => false

/-- The levels of a reading, innermost first. -/
def Reading.levels (r : Reading) : List Level := r.frames.map .frame ++ [.root r.root]

/-! ## Children of a level -/

/-- No child is empty text, and no text stands beside text. -/
structure TextsMerged (children : List Child) : Prop where
  empty_notMem : Child.text "" ∉ children
  apart : children.IsChain fun child next => child.isText = true → next.isText = false

/-- Well-formed children have their texts merged. -/
theorem ChildrenWellFormed.textsMerged {children : List Child} (h : ChildrenWellFormed children) :
    TextsMerged children := ⟨fun hmem => h.each _ hmem rfl, h.apart⟩

/-- A child that is no text beside the last child is added behind it. -/
theorem addChild_of_textsMerged {children : List Child} {child : Child}
    (h : TextsMerged (children ++ [child])) : addChild children child = children ++ [child] := by
  fun_cases addChild children child with
  | case1 => exact absurd (List.mem_append_right _ List.mem_cons_self) h.empty_notMem
  | case2 content =>
    refine addText_of_getLast? fun before hlast => ?_
    have hapart := (List.isChain_append.mp h.apart).2.2 (.text before) hlast (.text content) rfl
    exact absurd (hapart rfl).symm Bool.false_ne_true
  | case3 => rfl

/-- Children whose texts are merged stay as they are when they are merged again. -/
theorem addChildren_of_textsMerged {children new : List Child}
    (h : TextsMerged (children ++ new)) : addChildren children new = children ++ new := by
  induction new generalizing children with
  | nil => rw [List.append_nil]; rfl
  | cons child new ih =>
    have hassoc : children ++ child :: new = (children ++ [child]) ++ new := by simp
    rw [hassoc] at h ⊢
    have hstart : TextsMerged (children ++ [child]) :=
      ⟨fun hmem => h.empty_notMem (List.mem_append_left _ hmem),
        (List.isChain_append.mp h.apart).1⟩
    rw [← ih h, ← addChild_of_textsMerged hstart]
    rfl

/-- The child is a finished slot. -/
def Child.isSlot : Child → Bool
  | .node _ => false
  | .slot .. => true

/-- The nodes among children are those that are no slots. -/
theorem map_nodesOf_eq_filter (children : List Child) :
    (nodesOf children).map Child.node = children.filter (!·.isSlot) := by
  induction children with
  | nil => rfl
  | cons child children ih =>
    cases child with
    | node value => exact congrArg (Child.node value :: ·) ih
    | slot => exact ih

/-! ## Branches of a conditional -/

namespace Frame

/-- The branches of a conditional are in order: all that are finished have a condition, the first
branch of all has that of its opening, and the alternative was started exactly if the current
branch has none; then no other branch can start. -/
structure BranchesInOrder (frame : Frame) (finished : List Arm) (current : Option String)
    (hasElse : Bool) : Prop where
  finished_isSome : ∀ arm ∈ finished, arm.condition.isSome = true
  opening : ∃ first arms condition, frame.arms = first :: arms ∧ first.condition = some condition ∧
    Spelling (.opening (.conditional condition)) first.raw.toList
  hasElse_iff : hasElse = true ↔ current = none
  branch?_eq_none_iff : ∀ condition raw, frame.branch? condition raw = none ↔ hasElse = true

/-- A conditional that was opened as it is written has its branches in order. -/
theorem Opened.branchesInOrder {frame : Frame} (h : frame.Opened) {finished : List Arm}
    {current : Option String} {hasElse : Bool}
    (hconstruct : frame.construct = .conditional finished current hasElse) :
    frame.BranchesInOrder finished current hasElse := by
  obtain ⟨construct, raw, children⟩ := frame
  obtain rfl : construct = .conditional finished current hasElse := hconstruct
  obtain ⟨⟨condition, rawFirst, rest, hopenings, hfirst, -, hconditions⟩, helse⟩ := h
  refine ⟨fun arm harm => ?_, ?_, ?_, fun condition raw => ?_⟩
  · rw [arms, List.map_append, List.map_singleton, List.dropLast_concat] at hconditions
    exact hconditions _ (List.mem_map_of_mem harm)
  · obtain ⟨first, arms, harms, heq, -⟩ := List.map_eq_cons_iff.mp hopenings
    obtain ⟨hcondition, rfl⟩ := Prod.mk.inj heq
    exact ⟨first, arms, condition, harms, hcondition, hfirst⟩
  · rw [helse, Option.isNone_iff_eq_none]
  · cases hasElse <;> simp [branch?]

end Frame

/-! ## Readings -/

namespace Reading

/-- What is true of the stack between two lexemes. -/
structure IsStack (r : Reading) : Prop where
  /-- The outermost level and only it is the top level of the template. -/
  root_last : ∃ inner, r.levels = inner ++ [.root r.root] ∧ ∀ level ∈ inner, level.isRoot = false
  /-- A slot that is open stands directly in a component. -/
  slot_inside : ∀ inner slot outer, r.frames = inner ++ slot :: outer → slot.isSlot = true →
    ∃ component around, outer = component :: around ∧ component.takesSlots = true
  /-- Finished slots are only in components. -/
  root_slots : slotsOf r.root = []
  slots : ∀ frame ∈ r.frames, frame.takesSlots = false →
    ∀ arm ∈ frame.arms, slotsOf arm.children = []
  /-- No text is empty or beside text, in finished branches too. -/
  root_texts : TextsMerged r.root
  texts : ∀ frame ∈ r.frames, ∀ arm ∈ frame.arms, TextsMerged arm.children
  branches : ∀ frame ∈ r.frames, ∀ finished current hasElse,
    frame.construct = .conditional finished current hasElse →
      frame.BranchesInOrder finished current hasElse

/-- Every child is kept where a construct or the template ends: merging texts again changes
nothing, and only a component leaves its slots out of its content. -/
structure LosesNothing (r : Reading) : Prop where
  root : addChildren [] r.root = r.root ∧ (nodesOf r.root).map Child.node = r.root
  frames : ∀ frame ∈ r.frames, frame.takesSlots = false → ∀ arm ∈ frame.arms,
    addChildren [] arm.children = arm.children ∧ (nodesOf arm.children).map Child.node =
      arm.children
  components : ∀ frame ∈ r.frames, frame.takesSlots = true →
    (Frame.defaultContent frame.children).map Child.node =
      addChildren [] (frame.children.filter (!·.isSlot))

/-- A stack keeps every child where a construct or the template ends. -/
theorem IsStack.losesNothing {r : Reading} (h : r.IsStack) : r.LosesNothing where
  root := ⟨addChildren_of_textsMerged h.root_texts, map_nodesOf h.root_slots⟩
  frames frame hframe htakes arm harm :=
    ⟨addChildren_of_textsMerged (h.texts frame hframe arm harm),
      map_nodesOf (h.slots frame hframe htakes arm harm)⟩
  components frame _ _ := by
    rw [Frame.defaultContent, map_nodesOf, map_nodesOf_eq_filter]
    rw [slotsOf_addChildren, slotsOf_map_node]
    rfl

/-- No slot stands at the top level. -/
theorem Reads.slotsOf_root {r : Reading} {source : List Char} (h : Reads r source) :
    slotsOf r.root = [] := by
  induction h with
  | root _ hslots => exact hslots
  | frame _ _ _ ih => exact ih

/-- A slot is only opened in a component. -/
theorem Reads.slot_inside {r : Reading} {source : List Char} (h : Reads r source)
    {inner outer : List Frame} {slot : Frame} (hframes : r.frames = inner ++ slot :: outer)
    (hslot : slot.isSlot = true) :
    ∃ component around, outer = component :: around ∧ component.takesSlots = true := by
  induction h generalizing inner with
  | root => exact absurd hframes.symm (by simp)
  | @frame root frames frame before inside _ _ hinside ih =>
    cases inner with
    | nil =>
      obtain ⟨rfl, rfl⟩ := List.cons.inj hframes
      obtain ⟨component, hcomponent⟩ := Option.isSome_iff_exists.mp (hinside hslot)
      obtain ⟨hhead, htakes⟩ := Option.filter_eq_some_iff.mp hcomponent
      obtain ⟨around, haround⟩ := List.head?_eq_some_iff.mp hhead
      exact ⟨component, around, haround, htakes⟩
    | cons other inner => exact ih (List.cons.inj hframes).2

/-- **A reading of well-formed children is a stack.** -/
theorem Reads.isStack {r : Reading} {source : List Char} (h : Reads r source)
    (hwell : r.WellFormed) : r.IsStack where
  root_last := by
    refine ⟨r.frames.map .frame, rfl, fun level hlevel => ?_⟩
    obtain ⟨frame, -, rfl⟩ := List.mem_map.mp hlevel
    rfl
  slot_inside _ _ _ hframes hslot := h.slot_inside hframes hslot
  root_slots := h.slotsOf_root
  slots frame hframe htakes := by
    obtain ⟨inside, hderives⟩ := h.frames frame hframe
    exact hderives.slots htakes
  root_texts := hwell.root.textsMerged
  texts frame hframe arm harm := (hwell.frames frame hframe arm harm).textsMerged
  branches frame hframe finished current hasElse hconstruct := by
    obtain ⟨inside, hderives⟩ := h.frames frame hframe
    exact hderives.opened.branchesInOrder hconstruct

end Reading

/-! ## Positions -/

/-- How far into the template the lexemes go. -/
def position (read : List Lexeme) : Nat := (read.flatMap (·.raw.toList)).length

/-- The position behind lexemes is that behind the first ones and the length of the rest. -/
theorem position_append (read rest : List Lexeme) :
    position (read ++ rest) = position read + position rest := by
  rw [position, List.flatMap_append, List.length_append]
  rfl

/-- The position behind all lexemes is the end of the template. -/
theorem position_lexemes (template : String) : position (lexemes template) = template.length := by
  rw [position, raw_lexemes, String.length_toList]

/-- Putting a character in front leaves no lexeme empty. -/
theorem raw_ne_nil_of_mem_consChar {c : Char} {ls : List Lexeme}
    (h : ∀ l ∈ ls, l.raw.toList ≠ []) : ∀ l ∈ consChar c ls, l.raw.toList ≠ [] := by
  fun_cases consChar c ls with
  | case1 raw rest =>
    exact List.forall_mem_cons.mpr ⟨by simp, (List.forall_mem_cons.mp h).2⟩
  | case2 => exact List.forall_mem_cons.mpr ⟨by simp, h⟩

/-- No lexeme is empty. -/
theorem raw_ne_nil_of_mem_lexemesOf {cs : List Char} {l : Lexeme} (h : l ∈ lexemesOf cs) :
    l.raw.toList ≠ [] := by
  fun_induction lexemesOf cs generalizing l with
  | case1 => cases h
  | case2 c cs first rest hfirst ih =>
    rcases List.mem_cons.mp h with rfl | h
    · intro hempty
      have happend := append_of_lexeme? hfirst
      rw [hempty, List.nil_append] at happend
      have hlength := length_lt_of_lexeme? hfirst
      rw [happend] at hlength
      exact Nat.lt_irrefl _ hlength
    · exact ih h
  | case3 c cs _ ih =>
    exact raw_ne_nil_of_mem_consChar (fun _ => ih) l h

/-- **Between two lexemes the open constructs are a stack, and no child is lost where constructs
are given up or closed there or at the end** (`r.abandonMany n` is the reading after `n` of them
are given up). Every lexeme that is left moves the reading forward, up to the end of the
template. -/
theorem isStack_of_lexemes {template : String} {read rest : List Lexeme} {r : Reading}
    (hsplit : lexemes template = read ++ rest)
    (hread : read.foldlM Reading.step .start = .ok r) :
    r.IsStack ∧ (∀ n, (r.abandonMany n).IsStack ∧ (r.abandonMany n).LosesNothing) ∧
      ∀ l ∈ rest.head?, position read < position (read ++ [l]) ∧
        position (read ++ [l]) ≤ template.length := by
  have hlexemes : ∀ l ∈ read, Spelling l.saying l.raw.toList := fun l hl =>
    spelling_of_mem_lexemes (hsplit ▸ List.mem_append_left rest hl)
  have hstart : Reading.WellFormed .start := ⟨.nil, fun _ hframe => nomatch hframe⟩
  have hreads := Reading.reads_start.foldlM_step hlexemes hread
  have hwell := hstart.foldlM_step Reading.reads_start hlexemes hread
  have hstack (n : Nat) : (r.abandonMany n).IsStack :=
    (hreads.abandonMany n).isStack (hwell.abandonMany n)
  refine ⟨hreads.isStack hwell, fun n => ⟨hstack n, (hstack n).losesNothing⟩, fun l hl => ?_⟩
  obtain ⟨later, rfl⟩ := List.head?_eq_some_iff.mp hl
  have hmem : l ∈ lexemes template := by
    rw [hsplit]
    exact List.mem_append_right _ List.mem_cons_self
  have hpos : 0 < position [l] := by
    rw [position, List.flatMap_singleton]
    exact List.length_pos_iff.mpr (raw_ne_nil_of_mem_lexemesOf hmem)
  have htotal := position_lexemes template
  rw [hsplit, List.append_cons, position_append] at htotal
  rw [position_append] at htotal ⊢
  omega

/-- A template whose closing tag closes a component around four other constructs. -/
def crossingTemplate : String :=
  "<x-a>@if(c)b@else@each($u as $v)<x-b>g<x-slot:s>t</x-a>h"

/-- In front of that tag all five are open, and all children are kept when it gives up four. -/
theorem isStack_of_lexemes_crossing :
    ∃ r, ((lexemes crossingTemplate).take 9).foldlM Reading.step .start = .ok r ∧
      r.frames.length = 5 ∧ r.IsStack ∧ (r.abandonMany 4).LosesNothing := by
  have hcheck : (((lexemes crossingTemplate).take 9).foldlM Reading.step .start).toOption.any
      (·.frames.length == 5) = true := by decide +kernel
  cases hread : ((lexemes crossingTemplate).take 9).foldlM Reading.step .start with
  | error e =>
    rw [hread] at hcheck
    cases hcheck
  | ok r =>
    rw [hread] at hcheck
    obtain ⟨hstack, hlose, -⟩ := isStack_of_lexemes (List.take_append_drop 9 _).symm hread
    exact ⟨r, rfl, beq_iff_eq.mp hcheck, hstack, (hlose 4).2⟩

end ViewCompiler.Template
