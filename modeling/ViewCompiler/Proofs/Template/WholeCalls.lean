import ViewCompiler.Proofs.Template.Deduplication
import ViewCompiler.Proofs.Template.Detached
import ViewCompiler.Proofs.Template.Reading
import ViewCompiler.Template.Access

/-!
# Which calls deduplication replaces

Deduplication hoists in rounds: one for the body of each loop, inner loops first, and one for the
whole tree (`dedupRounds`). A call that a round replaces occurs twice in the tree of the round, and
if the calls that occur twice in the tree are detached, they are so in the tree of every round. So
only whole calls are replaced (`whole_of_replaces`). Without that the end of another function's
name may be taken for a call (`exists_replaces_not_whole`).
-/

namespace ViewCompiler.Template

open Expression

/-! ## Rounds -/

/-- A round of hoisting: which calls it wants, the tree it is made on, and the names taken then. -/
structure Round where
  wanted : Wanted
  nodes : List Node
  taken : Names

/-- The hoists of a round. -/
def Round.hoists (r : Round) : List Hoist := roundHoists r.wanted r.nodes r.taken

/-- The names of the variables that a round adds. -/
def Round.names (r : Round) : List String := r.hoists.map Hoist.name

/-- A variable takes the place of a call between the two texts, in an expression of the tree. -/
def Round.Replaces (r : Round) (before : List Char) (a : DottedPath) (after : List Char) : Prop :=
  ∃ site ∈ sites [] r.nodes, ∃ pre post,
    accessor.pieces site.expression.toList = pre ++ .phrase a :: post ∧
      before = spelled pre ∧ after = spelled post ∧
      replaceCall r.wanted r.hoists site.shadowed a ≠ a.call

mutual

/-- The rounds of the loops in a node, inner loops first. -/
def Node.loopRounds (taken : Names) : Node → List Round
  | .conditional branches => branchRounds taken branches
  | .existence _ body => loopRounds taken body
  | .loop head _ body =>
    let inner := (dedupLoops body).run taken
    loopRounds taken body ++ if runsHost inner.1 then [] else [⟨ownCalls head, inner.1, inner.2⟩]
  | _ => []

/-- The rounds of the loops in nodes, in order. -/
def loopRounds (taken : Names) : List Node → List Round
  | [] => []
  | node :: nodes => node.loopRounds taken ++ loopRounds (node.dedupLoops.run taken).2 nodes

/-- The rounds of the loops in branches, in order. -/
def branchRounds (taken : Names) : List Branch → List Round
  | [] => []
  | ⟨_, body⟩ :: branches =>
    loopRounds taken body ++ branchRounds ((dedupLoops body).run taken).2 branches
end

/-- The rounds of deduplication: those of the loops, and the one ahead of the tree. -/
def dedupRounds (nodes : List Node) (taken : Names) : List Round :=
  let loops := (dedupLoops nodes).run taken
  loopRounds taken nodes ++ if runsHost loops.1 then [] else [⟨freeCalls, loops.1, loops.2⟩]

mutual

/-- The names taken in the loops of a node are those of its rounds. -/
theorem Node.names_loopRounds (node : Node) (taken : Names) :
    (node.dedupLoops.run taken).2 = taken ++ (node.loopRounds taken).flatMap Round.names := by
  match node with
  | .text _ | .comment _ | .echo .. | .host .. | .flag .. | .component .. =>
    exact (List.append_nil _).symm
  | .conditional branches => exact names_branchRounds branches taken
  | .existence _ body => exact names_loopRounds body taken
  | .loop head bindings body =>
    have hbody := names_loopRounds body taken
    rw [run_dedupLoops_loop, Node.loopRounds, List.flatMap_append, ← List.append_assoc, ← hbody]
    split
    · exact (List.append_nil _).symm
    · simp [hoistRepeated_eq, Round.names, Round.hoists]

/-- The names taken in the pass over the loops are those of its rounds. -/
theorem names_loopRounds (nodes : List Node) (taken : Names) :
    ((dedupLoops nodes).run taken).2 = taken ++ (loopRounds taken nodes).flatMap Round.names := by
  match nodes with
  | [] => exact (List.append_nil _).symm
  | node :: nodes =>
    rw [run_dedupLoops_cons, names_loopRounds nodes, Node.names_loopRounds node taken, loopRounds,
      List.flatMap_append, List.append_assoc, ← Node.names_loopRounds node taken]

/-- The same of the branches of a conditional. -/
theorem names_branchRounds (branches : List Branch) (taken : Names) :
    ((dedupBranches branches).run taken).2 =
      taken ++ (branchRounds taken branches).flatMap Round.names := by
  match branches with
  | [] => exact (List.append_nil _).symm
  | ⟨_, body⟩ :: branches =>
    rw [run_dedupBranches_cons, names_branchRounds branches, names_loopRounds body taken,
      branchRounds, List.flatMap_append, List.append_assoc, ← names_loopRounds body taken]
end

/-- **The rounds are all rounds of deduplication**: every name that it takes is one of theirs. -/
theorem names_dedupRounds (nodes : List Node) (taken : Names) :
    ((dedup nodes).run taken).2 = taken ++ (dedupRounds nodes taken).flatMap Round.names := by
  have hloops := names_loopRounds nodes taken
  rw [left_dedup, dedupRounds, List.flatMap_append, ← List.append_assoc, ← hloops]
  split
  · exact (List.append_nil _).symm
  · simp [hoistRepeated_eq, Round.names, Round.hoists]

/-! ## The calls of a tree -/

/-- The calls in the expressions of a tree, outside of slots. -/
def treeOccurrences (nodes : List Node) : List Occurrence :=
  (expressions nodes).flatMap fun e => occurrencesIn e.toList

/-- Every call of pieces is in place. -/
theorem count_le_number_placed (a : DottedPath) (before : List Char) (pieces : List CallPiece)
    (after : List Char) :
    (pieces.filterMap Piece.phrase?).count a ≤
      number (Becomes ·.call a.nested) (placed before pieces after) := by
  induction pieces generalizing before with
  | nil => exact Nat.zero_le _
  | cons p pieces ih =>
    have hrest := ih (before ++ p.text DottedPath.call)
    rw [placed, number_append]
    cases p with
    | literal l => exact hrest.trans (Nat.le_add_left _ _)
    | char c => exact hrest.trans (Nat.le_add_left _ _)
    | phrase b =>
      rw [List.filterMap_cons_some (by rfl : Piece.phrase? (.phrase b) = some b), List.count_cons]
      split
      · rename_i heq
        obtain rfl := eq_of_beq heq
        have hone : number (Becomes ·.call b.nested)
            (((Piece.phrase b).phrase?.map fun a =>
              (⟨before, a.nested, spelled pieces ++ after⟩ : Occurrence)).toList) = 1 :=
          number_cons_of_pos (.same b.nested)
        omega
      · omega

/-- Occurrences are among their layers. -/
theorem sublist_flatMap_layers (os : List Occurrence) :
    os.Sublist (os.flatMap Occurrence.layers) := by
  induction os with
  | nil => exact .slnil
  | cons o os ih =>
    obtain ⟨rest, hrest⟩ := o.exists_layers_eq
    rw [List.flatMap_cons, hrest, List.cons_append]
    exact (ih.trans (List.sublist_append_right _ _)).cons_cons o

/-- A call is found in a tree as often as it is a piece of the expressions. -/
theorem count_calls_le_number (a : DottedPath) (nodes : List Node) :
    (calls nodes).count a ≤ number (Becomes ·.call a.nested) (treeOccurrences nodes) := by
  rw [calls, treeOccurrences]
  induction expressions nodes with
  | nil => exact Nat.zero_le _
  | cons e es ih =>
    rw [List.flatMap_cons, List.flatMap_cons, List.count_append, number_append]
    have hplaced := count_le_number_placed a [] (accessor.pieces e.toList) []
    have hlayers := number_le_of_subperm (Becomes ·.call a.nested)
      (sublist_flatMap_layers (placed [] (accessor.pieces e.toList) [])).subperm
    exact Nat.add_le_add (hplaced.trans hlayers) ih

/-- A call is among the calls of its text. -/
theorem mem_occurrencesIn {cs : List Char} {pre post : List CallPiece} {a : DottedPath}
    (h : accessor.pieces cs = pre ++ .phrase a :: post) :
    ⟨spelled pre, a.nested, spelled post⟩ ∈ occurrencesIn cs := by
  obtain ⟨around, hlayers⟩ :=
    (Occurrence.mk (spelled pre) a.nested (spelled post)).exists_layers_eq
  rw [occurrencesIn_of_pieces h, hlayers]
  simp

/-- **A call that occurs twice is detached**, if those that are repeated are. -/
theorem RepeatsDetached.of_count {nodes : List Node} (h : RepeatsDetached (treeOccurrences nodes))
    {a : DottedPath} (hcount : 1 < (calls nodes).count a) {e : String} (he : e ∈ expressions nodes)
    {pre post : List CallPiece} (hpieces : accessor.pieces e.toList = pre ++ .phrase a :: post) :
    Detached ⟨spelled pre, a.nested, spelled post⟩ :=
  h.detached (Nat.lt_of_lt_of_le hcount (count_calls_le_number a nodes))
    (List.mem_flatMap.mpr ⟨e, he, mem_occurrencesIn hpieces⟩) (.same a.nested)

/-! ## What a round keeps -/

section Round

variable {wanted : Wanted} {nodes : List Node} {taken : Names} {site : Site}

variable (wanted taken) in
/-- The calls of an expression after a round. -/
theorem covers_rewritten (h : RepeatsDetached (treeOccurrences nodes))
    (hsite : site ∈ sites [] nodes) :
    Covers (occurrencesIn site.expression.toList)
      (occurrencesIn (rewritten wanted (roundHoists wanted nodes taken) site).toList ++
        (heldCalls (heldBy wanted (roundHoists wanted nodes taken) site.shadowed)
          (accessor.pieces site.expression.toList)).map alone) := by
  have hexpression : site.expression ∈ expressions nodes := by
    rw [← map_sites []]
    exact List.mem_map_of_mem hsite
  have hcut : IsCut ([] ++ accessor.pieces site.expression.toList) := isCut_pieces _
  have hheld : ∀ pre a post x, [] ++ accessor.pieces site.expression.toList =
      pre ++ .phrase a :: post →
        heldBy wanted (roundHoists wanted nodes taken) site.shadowed a = some x →
      Detached ⟨spelled pre, a.nested, spelled post⟩ ∧
        ∃ n, x = (candidate (hoistBase a) n).toList := by
    intro pre a post x hpieces hx
    obtain ⟨-, k, hk, rfl, rfl⟩ := exists_of_heldBy hx
    obtain ⟨n, hn⟩ := (named_nameCalls taken _).candidate k hk
    exact ⟨h.of_count (of_mem_repeated (call_mem_repeated hk)).1 hexpression hpieces, n,
      by rw [hn]⟩
  simpa [toList_rewritten] using covers_exchanged hcut hheld

/-- Every hoisted call is replaced somewhere, so the values of the new variables follow replaced
calls. -/
theorem subperm_heldCalls :
    ((roundHoists wanted nodes taken).map fun h => alone h.call).Subperm
      ((sites [] nodes).flatMap fun site =>
        (heldCalls (heldBy wanted (roundHoists wanted nodes taken) site.shadowed)
          (accessor.pieces site.expression.toList)).map alone) := by
  have hcall :
    (roundHoists wanted nodes taken).map Hoist.call = repeated (wantedCalls wanted nodes) :=
    (named_nameCalls taken _).map_call
  have hinjective : Function.Injective alone := by
    rintro ⟨name, path⟩ ⟨name', path'⟩ h
    simpa [alone, DottedPath.nested] using h
  have hmap : ((roundHoists wanted nodes taken).map fun h => alone h.call) =
      (repeated (wantedCalls wanted nodes)).map alone := by rw [← hcall, List.map_map]; rfl
  rw [hmap]
  refine List.subperm_of_subset (((nodup_eraseDups _).filter _).map hinjective) ?_
  intro o ho
  obtain ⟨a, ha, rfl⟩ := List.mem_map.mp ho
  obtain ⟨hmem, -⟩ := List.mem_filter.mp ha
  obtain ⟨site, hsite, hmem⟩ := List.mem_flatMap.mp (List.mem_eraseDups.mp hmem)
  obtain ⟨hpiece, hwanted⟩ := List.mem_filter.mp hmem
  rw [← hcall] at ha
  obtain ⟨k, hk, rfl⟩ := List.mem_map.mp ha
  have hfind : ((roundHoists wanted nodes taken).find? (·.call = k.call)).isSome :=
    List.find?_isSome.mpr ⟨k, hk, decide_eq_true rfl⟩
  refine List.mem_flatMap.mpr ⟨site, hsite, List.mem_map_of_mem (List.mem_filter.mpr ⟨hpiece, ?_⟩)⟩
  rw [heldBy, if_pos hwanted, Option.isSome_map]
  exact hfind

variable (wanted) in
/-- **The calls of a tree after a round**, with the values of the new variables. -/
theorem covers_round (h : RepeatsDetached (treeOccurrences nodes)) (taken : Names) :
    Covers (treeOccurrences nodes)
      (treeOccurrences (mapSites (rewritten wanted (roundHoists wanted nodes taken)) [] nodes) ++
        (roundHoists wanted nodes taken).map fun h => alone h.call) := by
  have hall :
    ∀ l ⊆ sites [] nodes, Covers (l.flatMap fun site => occurrencesIn site.expression.toList)
      ((l.flatMap fun site => occurrencesIn
          (rewritten wanted (roundHoists wanted nodes taken) site).toList) ++
        l.flatMap fun site =>
          (heldCalls (heldBy wanted (roundHoists wanted nodes taken) site.shadowed)
          (accessor.pieces site.expression.toList)).map alone) := by
    intro l hl
    induction l with
    | nil => exact .refl []
    | cons site l ih =>
      obtain ⟨hsite, hl⟩ := List.cons_subset.mp hl
      intro kind hkind
      have hfirst := covers_rewritten wanted taken h hsite kind hkind
      have hrest := ih hl kind hkind
      simp only [List.flatMap_cons, number_append] at *
      omega
  have hsites := hall _ (List.Subset.refl _)
  have hold : treeOccurrences nodes =
      (sites [] nodes).flatMap fun site => occurrencesIn site.expression.toList := by
    rw [treeOccurrences, ← map_sites [], List.flatMap_map]
  rw [hold, treeOccurrences, expressions_mapSites, List.flatMap_map]
  exact hsites.trans ((Covers.refl _).append (.of_subperm subperm_heldCalls))

end Round

/-! ## What the pass over the loops keeps -/

/-- A part of a tree. -/
theorem RepeatsDetached.part {nodes nodes' : List Node}
    (h : RepeatsDetached (treeOccurrences nodes))
    (hsub : (expressions nodes').Sublist (expressions nodes)) :
    RepeatsDetached (treeOccurrences nodes') := List.Pairwise.sublist (hsub.flatMap _) h

/-- The value of a local variable is a call alone. -/
theorem occurrencesIn_call {a : DottedPath} (h : a.Readable) :
    occurrencesIn (String.ofList a.call).toList = [alone a] := by
  have houter : (alone a).outer? = none := by
    cases hsome : (alone a).outer? with
    | none => rfl
    | some outer =>
      have := Occurrence.length_before_lt hsome
      exact absurd this (Nat.not_lt_zero _)
  rw [String.toList_ofList, occurrencesIn, pieces_call h]
  simpa [placed, Piece.phrase?, alone] using Occurrence.layers_of_none houter

section Constructs

variable {nodes nodes' body body' : List Node}

/-- The occurrences in a list are those in its first node and in the rest. -/
theorem treeOccurrences_cons (node : Node) (nodes : List Node) :
    treeOccurrences (node :: nodes) = treeOccurrences [node] ++ treeOccurrences nodes := by
  simp [treeOccurrences, expressions]

/-- The occurrences in an existence check are those in its expression and its body. -/
theorem treeOccurrences_existence (expression : String) (body : List Node) :
    treeOccurrences [.existence expression body] =
      occurrencesIn expression.toList ++ treeOccurrences body := by
  simp [treeOccurrences, expressions, Node.expressions]

/-- The occurrences in a conditional are those in its conditions and its bodies. -/
theorem treeOccurrences_branch (condition : Option String) (body : List Node)
    (branches : List Branch) :
    treeOccurrences [.conditional (⟨condition, body⟩ :: branches)] =
      condition.toList.flatMap (fun e => occurrencesIn e.toList) ++
        (treeOccurrences body ++ treeOccurrences [.conditional branches]) := by
  simp [treeOccurrences, expressions, Node.expressions, branchesExpressions]

/-- The occurrences in a loop are those in its collection, its bindings and its body. -/
theorem treeOccurrences_loop (head : LoopHead) (bindings : List Binding) (body : List Node) :
    treeOccurrences [.loop head bindings body] =
      occurrencesIn head.collection.toList ++
        (bindings.flatMap (fun b => occurrencesIn b.value.toList) ++ treeOccurrences body) := by
  simp [treeOccurrences, expressions, Node.expressions, List.flatMap_map]

end Constructs

/-- The calls of a loop after its round. -/
theorem covers_loop {head : LoopHead} {bindings : List Binding} {body body' : List Node}
    (hbody : Covers (treeOccurrences body) (treeOccurrences body'))
    (h : RepeatsDetached (treeOccurrences body')) (left : Names) :
    let round := hoistRepeated (ownCalls head) body' left
    Covers (treeOccurrences [.loop head bindings body])
      (treeOccurrences [.loop head (bindings ++ round.2.1) round.1]) := by
  have hround := hbody.trans (covers_round (ownCalls head) h left)
  have hvalues : ((roundHoists (ownCalls head) body' left).map Hoist.binding).flatMap
      (fun b => occurrencesIn b.value.toList) =
      (roundHoists (ownCalls head) body' left).map fun h => alone h.call := by
    rw [List.flatMap_map, List.map_eq_flatMap]
    exact List.flatMap_congr fun k hk => occurrencesIn_call (readable_of_mem_roundHoists hk)
  intro round kind hkind
  have := hround kind hkind
  simp only [round, hoistRepeated_eq, treeOccurrences_loop, List.flatMap_append, hvalues,
    number_append] at this ⊢
  omega

mutual

/-- Deduplicating the loops of a node with detached repeats covers its calls, and each round finds
them detached. -/
theorem Node.covers_dedupLoops (node : Node) (h : RepeatsDetached (treeOccurrences [node]))
    (taken : Names) :
    Covers (treeOccurrences [node]) (treeOccurrences [(node.dedupLoops.run taken).1]) ∧
      ∀ r ∈ node.loopRounds taken, RepeatsDetached (treeOccurrences r.nodes) := by
  match node with
  | .text _ | .comment _ | .echo .. | .host .. | .flag .. | .component .. =>
    exact ⟨.refl _, fun r hr => absurd hr List.not_mem_nil⟩
  | .conditional branches => exact covers_dedupBranches branches h taken
  | .existence expression body =>
    obtain ⟨hbody, hrounds⟩ :=
      covers_dedupLoops body (h.part (by simp [expressions, Node.expressions]))
      taken
    refine ⟨?_, hrounds⟩
    rw [Node.dedupLoops, treeOccurrences_existence]
    show Covers _ (treeOccurrences [.existence expression ((dedupLoops body).run taken).1])
    rw [treeOccurrences_existence]
    exact (Covers.refl _).append hbody
  | .loop head bindings body =>
    have hpart : RepeatsDetached (treeOccurrences body) :=
      h.part (by simp [expressions, Node.expressions])
    obtain ⟨hbody, hrounds⟩ := covers_dedupLoops body hpart taken
    have hdetached := hpart.covers hbody
    rw [run_dedupLoops_loop, Node.loopRounds]
    split
    · refine ⟨?_, by simpa using hrounds⟩
      rw [treeOccurrences_loop, treeOccurrences_loop]
      exact (Covers.refl _).append ((Covers.refl _).append hbody)
    · refine ⟨covers_loop hbody hdetached _, fun r hr => ?_⟩
      rcases List.mem_append.mp hr with hr | hr
      · exact hrounds r hr
      · obtain rfl := List.mem_singleton.mp hr
        exact hdetached

/-- **The calls of a tree whose loops are deduplicated** follow those of the tree, and those that
are repeated are detached in every round. -/
theorem covers_dedupLoops (nodes : List Node) (h : RepeatsDetached (treeOccurrences nodes))
    (taken : Names) :
    Covers (treeOccurrences nodes) (treeOccurrences ((dedupLoops nodes).run taken).1) ∧
      ∀ r ∈ loopRounds taken nodes, RepeatsDetached (treeOccurrences r.nodes) := by
  match nodes with
  | [] => exact ⟨.refl _, fun r hr => absurd hr List.not_mem_nil⟩
  | node :: nodes =>
    obtain ⟨hfirst, hrounds⟩ := Node.covers_dedupLoops node
      (h.part (by simp [expressions])) taken
    obtain ⟨hrest, hrounds'⟩ := covers_dedupLoops nodes (h.part (by simp [expressions]))
      (node.dedupLoops.run taken).2
    rw [run_dedupLoops_cons, treeOccurrences_cons]
    refine ⟨?_, fun r hr => (List.mem_append.mp hr).elim (hrounds r) (hrounds' r)⟩
    rw [treeOccurrences_cons (node.dedupLoops.run taken).1]
    exact hfirst.append hrest

/-- The same of the branches of a conditional. -/
theorem covers_dedupBranches (branches : List Branch)
    (h : RepeatsDetached (treeOccurrences [.conditional branches])) (taken : Names) :
    Covers (treeOccurrences [.conditional branches])
        (treeOccurrences [.conditional ((dedupBranches branches).run taken).1]) ∧
      ∀ r ∈ branchRounds taken branches, RepeatsDetached (treeOccurrences r.nodes) := by
  match branches with
  | [] => exact ⟨.refl _, fun r hr => absurd hr List.not_mem_nil⟩
  | ⟨condition, body⟩ :: branches =>
    obtain ⟨hbody, hrounds⟩ := covers_dedupLoops body
      (h.part (by simp [expressions, Node.expressions, branchesExpressions])) taken
    obtain ⟨hrest, hrounds'⟩ := covers_dedupBranches branches
      (h.part (by simp [expressions, Node.expressions, branchesExpressions]))
      ((dedupLoops body).run taken).2
    rw [run_dedupBranches_cons, treeOccurrences_branch, treeOccurrences_branch]
    exact ⟨(Covers.refl _).append (hbody.append hrest),
      fun r hr => (List.mem_append.mp hr).elim (hrounds r) (hrounds' r)⟩
end

/-- The calls that are repeated are detached in every round of deduplication, if they are so in the
tree. -/
theorem RepeatsDetached.rounds {nodes : List Node} (h : RepeatsDetached (treeOccurrences nodes))
    {taken : Names} {r : Round} (hr : r ∈ dedupRounds nodes taken) :
    RepeatsDetached (treeOccurrences r.nodes) := by
  obtain ⟨hcovers, hrounds⟩ := covers_dedupLoops nodes h taken
  rcases List.mem_append.mp hr with hr | hr
  · exact hrounds r hr
  · split at hr
    · cases hr
    · obtain rfl := List.mem_singleton.mp hr
      exact h.covers hcovers

/-! ## What is replaced -/

/-- A call that a round replaces occurs twice in the tree of the round. -/
theorem Round.Replaces.count {r : Round} {before after : List Char} {a : DottedPath}
    (h : r.Replaces before a after) : 1 < (calls r.nodes).count a := by
  obtain ⟨site, -, pre, post, -, -, -, hreplaced⟩ := h
  rw [replaceCall_eq, heldText] at hreplaced
  split at hreplaced
  · rename_i x hx
    obtain ⟨-, k, hk, rfl, -⟩ := exists_of_heldBy hx
    exact (of_mem_repeated (call_mem_repeated hk)).1
  · exact absurd rfl hreplaced

/-- **Deduplication replaces only whole calls**, if the calls that occur twice, those on the values
of calls included, are detached. -/
theorem whole_of_replaces {nodes : List Node} (h : RepeatsDetached (treeOccurrences nodes))
    (taken : Names) :
    ((dedup nodes).run taken).2 = taken ++ (dedupRounds nodes taken).flatMap Round.names ∧
      ∀ r ∈ dedupRounds nodes taken, ∀ before a after, r.Replaces before a after →
        Whole before after := by
  refine ⟨names_dedupRounds nodes taken, fun r hr before a after hreplaces => ?_⟩
  have hcount := hreplaces.count
  obtain ⟨site, hsite, pre, post, hpieces, rfl, rfl, -⟩ := hreplaces
  have hexpression : site.expression ∈ expressions r.nodes := by
    rw [← map_sites []]
    exact List.mem_map_of_mem hsite
  exact ((h.rounds hr).of_count hcount hexpression hpieces).whole

/-- A loop with a repeated call on the value of a call, and a call of another function, whose name
ends like the accessor function's. -/
def nestedLoop : List Node :=
  [.loop ⟨"$us", "u", none⟩ []
    [.echo "data_get(data_get($u, 'n'), 'p')" true, .echo "data_get(data_get($u, 'n'), 'p')" true,
      .echo "metadata_get($u, 'q')" true]]

/-- The calls in one of its first two echoes. -/
def nestedLoopCalls : List Occurrence :=
  [⟨callOpening, ⟨['u'], [['n']]⟩, callEnding ['p']⟩, ⟨[], ⟨['u'], [['n'], ['p']]⟩, []⟩]

/-- What looks like a call in its last echo. -/
def nestedLoopOther : Occurrence := ⟨['m', 'e', 't', 'a'], ⟨['u'], [['q']]⟩, []⟩

/-- The inner call is replaced in the round of the loop, and the outer one in the round after
it. -/
theorem whole_of_replaces_nestedLoop :
    RepeatsDetached (treeOccurrences nestedLoop) ∧
      (dedupRounds nestedLoop []).map Round.names = [["__u_n"], ["____u_n_p"]] ∧
      ((dedup nestedLoop).run []).2 = (dedupRounds nestedLoop []).flatMap Round.names ∧
      ∀ r ∈ dedupRounds nestedLoop [], ∀ before a after, r.Replaces before a after →
        Whole before after := by
  have htree : treeOccurrences nestedLoop =
      (nestedLoopCalls ++ nestedLoopCalls) ++ [nestedLoopOther] := by decide +kernel
  have hcalls : ∀ o ∈ nestedLoopCalls, Detached o ∧ ¬ MayMeet o.call nestedLoopOther.call := by
    simp only [nestedLoopCalls, List.forall_mem_cons]
    have hparen : ∀ c ∈ callOpening.getLast?, isIdentifierChar c = false ∧ c ≠ '$' ∧ c ≠ '\\' := by
      rintro c hc
      obtain rfl : '(' = c := Option.some.inj hc
      decide
    refine ⟨⟨⟨⟨hparen, by decide, by decide, stopsAt_cons.mpr (by decide)⟩, fun _ _ _ =>
      by decide⟩,
      not_mayMeet (by decide)⟩, ⟨⟨⟨by simp, by decide, by decide, stopsAt_nil _⟩,
      fun _ _ _ => by decide⟩, not_mayMeet (by decide)⟩, fun o ho => absurd ho List.not_mem_nil⟩
  have hdetached : RepeatsDetached (treeOccurrences nestedLoop) := by
    rw [htree]
    refine List.pairwise_append.mpr ⟨?_, List.pairwise_singleton _ _, fun o ho o' ho' hmeet => ?_⟩
    · refine List.pairwise_of_forall_mem_list fun o ho o' ho' _ => ?_
      exact ⟨(hcalls o (by simpa using ho)).1, (hcalls o' (by simpa using ho')).1⟩
    · obtain rfl := List.mem_singleton.mp ho'
      exact absurd hmeet (hcalls o (by simpa using ho)).2
  exact ⟨hdetached, by decide +kernel, whole_of_replaces hdetached []⟩

/-! ## The end of a method's name -/

/-- Text without quotes in which no call starts is cut into its characters. -/
theorem pieces_append_plain {front : List Char} (h : ∀ c ∈ front, isQuote c = false ∧ c ≠ 'd')
    (rest : List Char) :
    accessor.pieces (front ++ rest) = front.map .char ++ accessor.pieces rest := by
  induction front with
  | nil => rfl
  | cons c front ih =>
    obtain ⟨⟨hquote, hd⟩, hfront⟩ := List.forall_mem_cons.mp h
    have hcall : accessor? (c :: (front ++ rest)) = none := by
      cases hread : accessor? (c :: (front ++ rest)) with
      | none => rfl
      | some found =>
        have htext := append_of_accessor? hread
        rw [call_eq] at htext
        exact absurd (List.cons.inj htext).1.symm hd
    rw [List.cons_append, pieces_char (literal?_eq_none hquote _) hcall, ih hfront]
    rfl

/-- What stands before the name of a method. -/
def methodFront : List Char := ['$', 'r', 'e', 'p', 'o', '-', '>']

/-- What looks like a call in a call of the method `data_get`. -/
def methodAccess : DottedPath := ⟨['u'], ['n']⟩

/-- A call of the method. -/
def methodCall : String := "$repo->data_get($u, 'n')"

/-- A method named as the accessor is taken for an access. -/
theorem pieces_methodCall :
    accessor.pieces methodCall.toList = methodFront.map .char ++ [.phrase methodAccess] := by
  have htext : methodCall.toList = methodFront ++ methodAccess.call := by decide
  have hreadable : methodAccess.Readable := ⟨by decide, by decide, forall_mem_of_all rfl⟩
  have hfront : ∀ c ∈ methodFront, isQuote c = false ∧ c ≠ 'd' := forall_mem_of_all rfl
  rw [htext, pieces_append_plain hfront, pieces_call hreadable]

/-- A template with the call of the method twice. -/
def methodTemplate : String :=
  "\x7b\x7b $repo->data_get($u, 'n') \x7d\x7d\x7b\x7b $repo->data_get($u, 'n') \x7d\x7d"

/-- **Deduplication can replace the end of a method's call.** -/
theorem exists_replaces_not_whole :
    ∃ nodes, parse methodTemplate = .ok nodes ∧
      ∃ r ∈ dedupRounds (withCalls nodes) [], ∃ before a after,
        r.Replaces before a after ∧ ¬ Whole before after := by
  have hcheck : ((parse methodTemplate).toOption.any fun nodes =>
      (dedupRounds (withCalls nodes) []).any fun r =>
        (sites [] r.nodes).any fun site => site.expression = methodCall ∧
          replaceCall r.wanted r.hoists site.shadowed methodAccess ≠ methodAccess.call) =
            true := by
    decide +kernel
  obtain ⟨nodes, hparse, hrounds⟩ := exists_parse_of_any hcheck
  obtain ⟨r, hr, hsites⟩ := List.any_eq_true.mp hrounds
  obtain ⟨site, hsite, hreplaced⟩ := List.any_eq_true.mp hsites
  obtain ⟨hexpression, hreplaced⟩ := of_decide_eq_true hreplaced
  have hpieces := pieces_methodCall
  rw [← hexpression] at hpieces
  refine ⟨nodes, hparse, r, hr, methodFront, methodAccess, [],
    ⟨site, hsite, _, [], hpieces, ?_, rfl,
    hreplaced⟩, fun hwhole => hwhole.notMember (by decide)⟩
  exact (spelled_map_char methodFront).symm

end ViewCompiler.Template
