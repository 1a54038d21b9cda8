import ViewCompiler.Proofs.Template.Derivation
import ViewCompiler.Proofs.Template.Tags
import ViewCompiler.Template.Parse

/-!
# Entering a text

`enter` reads a text into a reading, whatever has been read before. A piece that is one lexeme is
entered as the lexeme (`enter_lexeme`), and literal text, which has no lexeme of its own, character
by character (`enter_literal`), because text goes on with the text before it. The nodes of a
canonical tree are children of their own (`addChildren_of_canonical`).
-/

namespace ViewCompiler.Template

open Expression (StopsAt isWordChar)

/-! ## Children -/

/-- Text added twice is added as one text. -/
theorem addText_addText (before after : String) (children : List Child) :
    addText after (addText before children) = addText (before ++ after) children := by
  rcases Classical.em (∃ content, children.getLast? = some (.text content)) with ⟨content, h⟩ | h
  · obtain ⟨start, rfl⟩ := List.getLast?_eq_some_iff.mp h
    rw [addText_concat, addText_concat, addText_concat, String.append_assoc]
  · rw [not_exists] at h
    rw [addText_of_getLast? h, addText_of_getLast? h, addText_concat]

/-- Adding a text child adds its text, and nothing where it is empty. -/
theorem addChild_text (children : List Child) (content : String) :
    addChild children (.text content) =
      if content = "" then children else addText content children := rfl

/-- Two text children added one after the other are one. -/
theorem addChild_text_text (children : List Child) (before after : String) :
    addChild (addChild children (.text before)) (.text after) =
      addChild children (.text (before ++ after)) := by
  by_cases hbefore : before = ""
  · rw [addChild_text children before, if_pos hbefore, hbefore, String.empty_append]
  by_cases hafter : after = ""
  · rw [addChild_text _ after, if_pos hafter, hafter, String.append_empty]
  have happend : before ++ after ≠ "" := by
    intro heq
    rw [← String.toList_inj, String.toList_append] at heq
    exact hbefore (String.toList_inj.mp (List.append_eq_nil_iff.mp heq).1)
  rw [addChild_text, if_neg hafter, addChild_text, if_neg hbefore, addChild_text, if_neg happend,
    addText_addText]

/-- Canonical nodes are children of their own. -/
theorem addChildren_of_canonical {allowed : String → Prop} {nodes : List Node}
    {children : List Child} (h : Canonical allowed nodes)
    (hlast : ∀ before, children.getLast? = some (.text before) → startText nodes = none) :
    addChildren children (nodes.map Child.node) = children ++ nodes.map Child.node := by
  induction nodes generalizing children with
  | nil => exact (List.append_nil children).symm
  | cons node nodes ih =>
    obtain ⟨hnode, hprecedes, hnodes⟩ := h
    have hadd : addChild children (.node node) = children ++ [.node node] := by
      unfold addChild
      split
      · rename_i content heq
        obtain rfl := Child.node.inj heq
        have hne : content ≠ "" := by
          rintro rfl
          exact hnode.ne_nil rfl
        rw [if_neg hne, addText_of_getLast?]
        · rfl
        · intro before hbefore
          cases hlast before hbefore
      · rfl
    have hnext : ∀ before, (children ++ [Child.node node]).getLast? = some (.text before) →
        startText nodes = none := by
      intro before hbefore
      rw [List.getLast?_concat] at hbefore
      obtain rfl := Child.node.inj (Option.some.inj hbefore)
      rw [Option.eq_none_iff_forall_ne_some]
      exact fun content hcontent => hprecedes content hcontent
    rw [List.map_cons, addChildren, List.foldl_cons, hadd]
    have := ih hnodes hnext
    rw [addChildren] at this
    rw [this, List.append_assoc, List.singleton_append]

/-- Nodes taken as children are read back. -/
theorem nodesOf_map_node (nodes : List Node) : nodesOf (nodes.map Child.node) = nodes := by
  induction nodes with
  | nil => rfl
  | cons node nodes ih => exact congrArg (node :: ·) ih

namespace Reading

/-! ## Entering a text -/

/-- Enters the lexemes of a text. -/
def enter (cs : List Char) (r : Reading) : Except ParseError Reading :=
  (lexemesOf cs).foldlM step r

/-- At the end of the source the reading is unchanged. -/
theorem enter_nil (r : Reading) : enter [] r = .ok r := by
  rw [enter, lexemesOf]
  rfl

/-- A piece that is read as one lexeme is entered as the lexeme. -/
theorem enter_lexeme {source rest : List Char} {saying : Saying} (hne : source ≠ [])
    (h : saying? (source ++ rest) = some (saying, rest)) (r : Reading) :
    enter (source ++ rest) r = (r.step ⟨saying, String.ofList source⟩).bind (enter rest) := by
  cases source with
  | nil => exact absurd rfl hne
  | cons c source =>
    have hlexeme : lexeme? (c :: (source ++ rest)) =
        some (⟨saying, String.ofList (c :: source)⟩, rest) := by
      have htaken : Text.taken (c :: source ++ rest) rest = c :: source :=
        List.append_cancel_right (Text.taken_append (List.suffix_append _ _))
      rw [lexeme?, ← List.cons_append, h, Option.map_some]
      simp only [htaken]
    have hcons : lexemesOf (c :: (source ++ rest)) =
        ⟨saying, String.ofList (c :: source)⟩ :: lexemesOf rest := by
      rw [lexemesOf]
      split
      · rename_i heq
        obtain ⟨rfl, rfl⟩ := Prod.mk.inj (Option.some.inj (hlexeme.symm.trans heq))
        rfl
      · rename_i heq
        rw [hlexeme] at heq
        cases heq
    rw [enter, List.cons_append, hcons, List.foldlM_cons]
    rfl

/-- Text added twice to a reading is added as one text. -/
theorem addText_addText (before after : String) (r : Reading) :
    (r.addText before).addText after = r.addText (before ++ after) := by
  obtain ⟨root, frames⟩ := r
  cases frames with
  | nil =>
    show Reading.mk (addChild (addChild root (.text before)) (.text after)) [] = _
    rw [addChild_text_text]
    rfl
  | cons frame frames =>
    show Reading.mk root ({ frame with
      children := addChild (addChild frame.children (.text before)) (.text after) } :: frames) = _
    rw [addChild_text_text]
    rfl

/-- A character that starts no lexeme is entered as text. -/
theorem enter_char {c : Char} {rest : List Char} (h : saying? (c :: rest) = none) (r : Reading) :
    enter (c :: rest) r = enter rest (r.addText (String.singleton c)) := by
  have hcons : lexemesOf (c :: rest) = consChar c (lexemesOf rest) := by
    rw [lexemesOf]
    split
    · rename_i heq
      rw [lexeme?, h] at heq
      cases heq
    · rfl
  rw [enter, hcons, enter]
  fun_cases consChar c (lexemesOf rest) with
  | case1 raw ls =>
    show ls.foldlM step (r.addText (String.singleton c ++ raw)) =
      ls.foldlM step ((r.addText (String.singleton c)).addText raw)
    rw [addText_addText]
  | case2 => rfl

/-- Literal text is entered as text. -/
theorem enter_literal {cs rest : List Char} (h : IsLiteral cs) (hrest : Marked rest)
    (r : Reading) :
    enter (cs ++ rest) r = enter rest (r.addText (String.ofList cs)) := by
  induction cs generalizing r with
  | nil => exact absurd rfl h.ne_nil
  | cons c cs ih =>
    have hsingleton : String.singleton c = String.ofList [c] := String.singleton_eq_ofList
    have hchar :
      enter (c :: (cs ++ rest)) r = enter (cs ++ rest) (r.addText (String.singleton c)) :=
      enter_char (saying?_literal h hrest) r
    rw [List.cons_append, hchar, hsingleton]
    by_cases hcs : cs = []
    · rw [hcs, List.nil_append]
    · rw [ih (h.tail hcs), addText_addText, ← String.ofList_append, List.singleton_append]

/-! ## Open constructs -/

/-- Adding no children leaves a reading. -/
theorem add_nil (r : Reading) : r.add [] = r := by
  obtain ⟨root, frames⟩ := r
  cases frames <;> rfl

/-- Children can be added in two parts. -/
theorem add_append (before after : List Child) (r : Reading) :
    (r.add before).add after = r.add (before ++ after) := by
  obtain ⟨root, frames⟩ := r
  cases frames <;> simp [Reading.add, addChildren]

/-- What is read behind an opening lexeme are the children of its construct. -/
theorem push_add_body {allowed : String → Prop} {body : List Node} (h : Canonical allowed body)
    {frame : Frame} (hframe : frame.children = []) (r : Reading) :
    (r.push frame).add (body.map Child.node) =
      r.push { frame with children := body.map Child.node } := by
  have hchildren : addChildren [] (body.map Child.node) = body.map Child.node :=
    addChildren_of_canonical h fun before hbefore => by cases hbefore
  show r.push { frame with children := addChildren frame.children (body.map Child.node) } = _
  rw [hframe, hchildren]

/-- Closing the frame pushed last adds it as one child. -/
theorem close_push (frame : Frame) (closing : String) (r : Reading) :
    (r.push frame).close closing = r.add [frame.close closing] := rfl

/-- A closing directive closes the innermost construct. -/
theorem enter_closer {keyword : String} {closing : Closing}
    (hcloser : (keyword, closing) ∈ closers)
    {rest : List Char} (hend : StopsAt isWordChar rest) {frame : Frame}
    (hclosed : frame.closedBy closing = true) (r : Reading) :
    enter ('@' :: keyword.toList ++ rest) (r.push frame) =
      enter rest (r.add [frame.close (String.ofList ('@' :: keyword.toList))]) := by
  have hstep : ∀ raw, (r.push frame).step ⟨.closing closing, raw⟩ =
      .ok ((r.push frame).closeIf (·.closedBy closing) raw) := by
    cases closing with
    | unknown name => simp [closers] at hcloser
    | conditional | loop | existence => exact fun _ => rfl
  have htop : ((r.push frame).top? (·.closedBy closing)).isSome = true := by
    simp [top?, push, hclosed]
  rw [enter_lexeme (List.cons_ne_nil _ _) (saying?_closer hcloser hend), hstep, closeIf,
    if_pos htop,
    close_push]
  rfl

/-- Source that says a whole node adds this node. -/
theorem enter_node {node : Node} {rest : List Char} (hne : node.written ≠ [])
    (h : saying? (node.written ++ rest) = some (.node node, rest)) (r : Reading) :
    enter (node.written ++ rest) r = enter rest (r.add [.node node]) := by
  rw [enter_lexeme hne h]
  rfl

/-- A printed directive opens its construct. -/
theorem enter_directive {keyword : String} {argument : List Char} {opening : Opening}
    (hkeyword : keyword ∈ "elseif" :: argumentKeywords) (hargument : IsArgument argument)
    (hopening : directive keyword.toList argument = .opening opening) (rest : List Char)
    (r : Reading) :
    enter (writtenDirective keyword argument ++ rest) r =
      enter rest
        (r.push (.ofOpening opening (String.ofList (writtenDirective keyword argument)))) := by
  have hne : writtenDirective keyword argument ≠ [] := List.cons_ne_nil _ _
  have hread := saying?_directive hkeyword hargument rest
  rw [hopening] at hread
  rw [enter_lexeme hne hread]
  rfl

end Reading

end ViewCompiler.Template
