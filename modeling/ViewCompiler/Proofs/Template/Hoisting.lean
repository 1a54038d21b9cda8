import Mathlib.Data.List.Nodup
import ViewCompiler.Proofs.Expression.Mentions
import ViewCompiler.Proofs.Keyed
import ViewCompiler.Proofs.Names
import ViewCompiler.Proofs.Template.Replacing
import ViewCompiler.Proofs.Template.Sharing

/-!
# One round of hoisting

`hoistRepeated` finds the calls that are repeated among those wanted, names variables for them and
replaces them everywhere they are wanted. Here is what such a round does to a tree: which
expressions there are before and after it, what the new names are like, and how often a call occurs
afterwards.
-/

namespace ViewCompiler.Template

open Expression

/-! ## The expressions of a changed tree -/

section Sites

variable {f : Site → String}

mutual

/-- The expressions at the sites of a node are its expressions. -/
theorem Node.map_sites (shadowed : List String) (node : Node) :
    (node.sites shadowed).map (·.expression) = node.expressions := by
  match node with
  | .echo .. | .flag .. => rfl
  | .text _ | .comment _ | .host .. => rfl
  | .conditional branches => exact map_branchSites shadowed branches
  | .loop head bindings body =>
    simp [Node.sites, Node.expressions, map_sites _ body, Function.comp_def]
  | .existence expression body => simp [Node.sites, Node.expressions, map_sites shadowed body]
  | .component .. => simp [Node.sites, Node.expressions, Function.comp_def]

/-- The same of a list of nodes. -/
theorem map_sites (shadowed : List String) (nodes : List Node) :
    (sites shadowed nodes).map (·.expression) = expressions nodes := by
  match nodes with
  | [] => rfl
  | node :: nodes => simp [sites, expressions, Node.map_sites, map_sites _ nodes]

/-- The same of the branches of a conditional. -/
theorem map_branchSites (shadowed : List String) (branches : List Branch) :
    (branchSites shadowed branches).map (·.expression) = branchesExpressions branches := by
  match branches with
  | [] => rfl
  | ⟨condition, body⟩ :: branches =>
    simp [branchSites, branchesExpressions, map_sites shadowed body, map_branchSites _ branches,
      Function.comp_def]
end

mutual

/-- A rewritten node has the rewritten expressions of its sites. -/
theorem Node.expressions_mapSites (shadowed : List String) (node : Node) :
    (node.mapSites f shadowed).expressions = (node.sites shadowed).map f := by
  match node with
  | .echo .. | .flag .. => rfl
  | .text _ | .comment _ | .host .. => rfl
  | .conditional branches => exact expressions_mapBranchSites shadowed branches
  | .loop head bindings body =>
    simp [Node.sites, Node.mapSites, Node.expressions, expressions_mapSites _ body,
      Function.comp_def]
  | .existence expression body =>
    simp [Node.sites, Node.mapSites, Node.expressions, expressions_mapSites shadowed body]
  | .component tag attributes content slots =>
    simp only [Node.sites, Node.mapSites, Node.expressions]
    induction attributes with
    | nil => rfl
    | cons a attributes ih =>
      obtain ⟨bound, name, value⟩ := a
      cases bound <;> cases value <;>
        simpa [Attribute.mapExpression, Attribute.expression?] using ih

/-- The same of a list of nodes. -/
theorem expressions_mapSites (shadowed : List String) (nodes : List Node) :
    expressions (mapSites f shadowed nodes) = (sites shadowed nodes).map f := by
  match nodes with
  | [] => rfl
  | node :: nodes =>
    simp [sites, mapSites, expressions, Node.expressions_mapSites, expressions_mapSites _ nodes]

/-- The same of the branches of a conditional. -/
theorem expressions_mapBranchSites (shadowed : List String) (branches : List Branch) :
    branchesExpressions (mapBranchSites f shadowed branches) =
      (branchSites shadowed branches).map f := by
  match branches with
  | [] => rfl
  | ⟨condition, body⟩ :: branches =>
    cases condition <;>
    simp [branchSites, mapBranchSites, branchesExpressions, expressions_mapSites shadowed body,
      expressions_mapBranchSites _ branches]
end

mutual

/-- Rewriting expressions keeps the names a node binds and whether it runs host code. -/
theorem Node.mapSites_shape (shadowed : List String) (node : Node) :
    (node.mapSites f shadowed).rebound = node.rebound ∧
      (node.mapSites f shadowed).runsHost = node.runsHost ∧
      (node.mapSites f shadowed).fixedNames = node.fixedNames ∧
      (node.mapSites f shadowed).localNames = node.localNames := by
  match node with
  | .echo .. | .flag .. | .text _ | .comment _ | .host .. | .component .. =>
    exact ⟨rfl, rfl, rfl, rfl⟩
  | .conditional branches => exact mapBranchSites_shape shadowed branches
  | .loop head bindings body =>
    obtain ⟨h₁, h₂, h₃, h₄⟩ := mapSites_shape (head.names ++ rebound body ++ shadowed) body
    refine ⟨congrArg (head.names ++ ·) h₁, h₂, ?_, ?_⟩
    · simp only [Node.mapSites, Node.fixedNames, h₃, List.map_map]
      rfl
    · simp only [Node.mapSites, Node.localNames, h₄, List.map_map]
      rfl
  | .existence expression body => exact mapSites_shape shadowed body

/-- The same of a list of nodes. -/
theorem mapSites_shape (shadowed : List String) (nodes : List Node) :
    rebound (mapSites f shadowed nodes) = rebound nodes ∧
      runsHost (mapSites f shadowed nodes) = runsHost nodes ∧
      fixedNames (mapSites f shadowed nodes) = fixedNames nodes ∧
      localNames (mapSites f shadowed nodes) = localNames nodes := by
  match nodes with
  | [] => exact ⟨rfl, rfl, rfl, rfl⟩
  | node :: nodes =>
    obtain ⟨h₁, h₂, h₃, h₄⟩ := Node.mapSites_shape shadowed node
    obtain ⟨k₁, k₂, k₃, k₄⟩ := mapSites_shape (node.rebound ++ shadowed) nodes
    simp only [mapSites, rebound, runsHost, fixedNames, localNames, h₁, h₂, h₃, h₄, k₁, k₂, k₃, k₄,
      and_self]

/-- The same of the branches of a conditional. -/
theorem mapBranchSites_shape (shadowed : List String) (branches : List Branch) :
    branchesRebind (mapBranchSites f shadowed branches) = branchesRebind branches ∧
      branchesRunHost (mapBranchSites f shadowed branches) = branchesRunHost branches ∧
      branchesFixedNames (mapBranchSites f shadowed branches) = branchesFixedNames branches ∧
      branchesLocalNames (mapBranchSites f shadowed branches) = branchesLocalNames branches := by
  match branches with
  | [] => exact ⟨rfl, rfl, rfl, rfl⟩
  | ⟨condition, body⟩ :: branches =>
    obtain ⟨h₁, h₂, h₃, h₄⟩ := mapSites_shape shadowed body
    obtain ⟨k₁, k₂, k₃, k₄⟩ := mapBranchSites_shape shadowed branches
    simp only [mapBranchSites, branchesRebind, branchesRunHost, branchesFixedNames,
      branchesLocalNames, h₁, h₂, h₃, h₄, k₁, k₂, k₃, k₄, and_self]
end

mutual

/-- Rewriting every expression to itself leaves the node. -/
theorem Node.mapSites_self (shadowed : List String) (node : Node) :
    node.mapSites Site.expression shadowed = node := by
  match node with
  | .echo .. | .flag .. | .text _ | .comment _ | .host .. => rfl
  | .conditional branches =>
    exact congrArg Node.conditional (mapBranchSites_self shadowed branches)
  | .loop head bindings body =>
    have hbindings : bindings.map (fun b => ({ b with value := b.value } : Binding)) = bindings :=
      List.map_id bindings
    simp only [Node.mapSites, mapSites_self _ body, hbindings]
  | .existence expression body =>
    exact congrArg (Node.existence expression) (mapSites_self shadowed body)
  | .component tag attributes content slots =>
    have hattributes : attributes.map (·.mapExpression fun e => e) = attributes := by
      refine (List.map_congr_left fun a _ => ?_).trans (List.map_id attributes)
      obtain ⟨bound, name, value⟩ := a
      cases bound <;> simp [Attribute.mapExpression]
    simp only [Node.mapSites, hattributes]

/-- The same of a list of nodes. -/
theorem mapSites_self (shadowed : List String) (nodes : List Node) :
    mapSites Site.expression shadowed nodes = nodes := by
  match nodes with
  | [] => rfl
  | node :: nodes => simp only [mapSites, Node.mapSites_self, mapSites_self _ nodes]

/-- The same of the branches of a conditional. -/
theorem mapBranchSites_self (shadowed : List String) (branches : List Branch) :
    mapBranchSites Site.expression shadowed branches = branches := by
  match branches with
  | [] => rfl
  | ⟨condition, body⟩ :: branches =>
    cases condition <;>
    simp only [mapBranchSites, mapSites_self _ body, mapBranchSites_self _ branches,
      Option.map_some, Option.map_none]
end

end Sites

/-! ## Names for values -/

/-- A character of a name for a path. -/
theorem isIdentifierChar_of_isPathChar {c : Char} (h : isPathChar c) :
    isIdentifierChar (if c = '.' then '_' else c) := by
  split
  · decide
  · rename_i hdot
    simp only [isPathChar, Bool.or_eq_true, beq_iff_eq, hdot, or_false] at h
    simp [isIdentifierChar, h]

/-- The base of a hoist's name spells the call with underscores for dots. -/
theorem toList_hoistBase (a : DottedPath) :
    (hoistBase a).toList =
      ['_', '_'] ++ (a.name ++ '_' :: a.path.map fun c => if c = '.' then '_' else c) := by
  simp [hoistBase]

/-- The characters of a name for the value of a call. -/
theorem isIdentifierChar_of_mem_candidate {a : DottedPath} (h : a.Readable) (n : Nat) {c : Char}
    (hc : c ∈ (candidate (hoistBase a) n).toList) : isIdentifierChar c := by
  have hbase : ∀ d ∈ (hoistBase a).toList, isIdentifierChar d := by
    intro d hd
    rw [toList_hoistBase] at hd
    simp only [List.mem_append, List.mem_cons, List.mem_map, List.not_mem_nil, or_false] at hd
    rcases hd with (rfl | rfl) | hd | rfl | ⟨e, he, rfl⟩
    · decide
    · decide
    · exact isIdentifierChar_of_mem h.isIdentifier hd
    · decide
    · exact isIdentifierChar_of_isPathChar (h.isPath e he)
  rcases toList_candidate (hoistBase a) n with heq | ⟨digits, heq, -, hdigits⟩
  · exact hbase c (heq ▸ hc)
  · rw [heq, List.mem_append, List.mem_cons] at hc
    rcases hc with hc | rfl | hc
    · exact hbase c hc
    · decide
    · simp [isIdentifierChar, isWordChar, Char.isAlphanum, hdigits c hc]

/-- A name for the value of a call starts with two underscores. -/
theorem exists_candidate_eq (a : DottedPath) (n : Nat) :
    ∃ rest, (candidate (hoistBase a) n).toList = '_' :: '_' :: rest := by
  rcases toList_candidate (hoistBase a) n with heq | ⟨digits, heq, -, -⟩
  · exact ⟨_, heq.trans (toList_hoistBase a)⟩
  · exact ⟨_, heq.trans (by rw [toList_hoistBase, List.append_assoc]; rfl)⟩

/-- Every candidate for the name of a readable call is an identifier. -/
theorem isIdentifier_candidate {a : DottedPath} (h : a.Readable) (n : Nat) :
    isIdentifier (candidate (hoistBase a) n).toList := by
  obtain ⟨rest, hrest⟩ := exists_candidate_eq a n
  have hchars := fun c => isIdentifierChar_of_mem_candidate h n (c := c)
  rw [hrest] at hchars ⊢
  simp only [isIdentifier, Bool.and_eq_true, List.all_eq_true]
  exact ⟨by decide, fun c hc => hchars c (List.mem_cons_of_mem _ hc)⟩

/-- Every candidate for the name of a hoist is an internal name. -/
theorem isInternal_candidate (a : DottedPath) (n : Nat) :
    isInternal (candidate (hoistBase a) n) := by
  obtain ⟨rest, hrest⟩ := exists_candidate_eq a n
  rw [isInternal, hrest]
  rfl

/-- A number does not end like the function's name. -/
theorem functionName_of_suffix_candidate {a : DottedPath} {n : Nat}
    (h : functionName <:+ (candidate (hoistBase a) n).toList) :
    functionName <:+ (hoistBase a).toList := by
  rcases toList_candidate (hoistBase a) n with heq | ⟨digits, heq, hne, hdigits⟩
  · exact heq ▸ h
  · obtain ⟨t, ht⟩ := h
    have hlast : ((hoistBase a).toList ++ '_' :: digits).getLast? = some 't' := by
      rw [← heq, ← ht, List.getLast?_append_of_ne_nil _ (by decide)]
      rfl
    rw [List.getLast?_append_of_ne_nil _ (List.cons_ne_nil _ _),
      ← List.singleton_append, List.getLast?_append_of_ne_nil _ hne] at hlast
    exact absurd (hdigits _ (List.mem_of_getLast? hlast)) (by decide)

/-- **The names for the values of calls** are new, pairwise different, and made from their
calls. -/
structure Named (taken : Names) (calls : List DottedPath) (hoists : List Hoist) (left : Names) :
    Prop where
  map_call : hoists.map Hoist.call = calls
  left_eq : left = taken ++ hoists.map Hoist.name
  nodup : (hoists.map Hoist.name).Nodup
  notMem : ∀ h ∈ hoists, h.name ∉ taken
  candidate : ∀ h ∈ hoists, ∃ n, h.name = candidate (hoistBase h.call) n

/-- Naming calls takes each name from those that are left. -/
theorem named_nameCalls (taken : Names) (calls : List DottedPath) :
    Named taken calls (nameCalls taken calls).1 (nameCalls taken calls).2 := by
  induction calls generalizing taken with
  | nil => exact ⟨rfl, (List.append_nil taken).symm, List.nodup_nil, by simp [nameCalls],
    by simp [nameCalls]⟩
  | cons call calls ih =>
    have hrest := ih (reserve (hoistBase call) taken).2
    have hfresh := fresh_notMem taken (hoistBase call)
    have hnew : ∀ h ∈ (nameCalls (reserve (hoistBase call) taken).2 calls).1,
        h.name ∉ taken ∧ h.name ≠ fresh taken (hoistBase call) := by
      intro h hh
      have := hrest.notMem h hh
      simpa [reserve] using this
    refine ⟨?_, ?_, ?_, ?_, ?_⟩
    · exact congrArg (call :: ·) hrest.map_call
    · refine hrest.left_eq.trans ?_
      simp [nameCalls, reserve]
    · refine List.nodup_cons.mpr ⟨fun hmem => ?_, hrest.nodup⟩
      obtain ⟨h, hh, heq⟩ := List.mem_map.mp hmem
      exact (hnew h hh).2 heq
    · intro h hh
      rcases List.mem_cons.mp hh with rfl | hh
      · exact hfresh
      · exact (hnew h hh).1
    · intro h hh
      rcases List.mem_cons.mp hh with rfl | hh
      · exact exists_fresh taken (hoistBase call)
      · exact hrest.candidate h hh

/-! ## A round -/

/-- The variable that takes the place of a call in a round. -/
def heldBy (wanted : Wanted) (hoists : List Hoist) (shadowed : List String) (a : DottedPath) :
    Option (List Char) :=
  if wanted (String.ofList a.name) shadowed then
    (hoists.find? (·.call = a)).map (·.name.toList)
  else none

/-- The expression of a site after a round. -/
def rewritten (wanted : Wanted) (hoists : List Hoist) (site : Site) : String :=
  accessor.respell (replaceCall wanted hoists site.shadowed) site.expression

/-- The hoists of a round. -/
def roundHoists (wanted : Wanted) (nodes : List Node) (taken : Names) : List Hoist :=
  (nameCalls taken (repeated (wantedCalls wanted nodes))).1

section Round

variable {wanted : Wanted} {hoists : List Hoist} {shadowed : List String} {site : Site}

/-- Replacing a call looks up the hoist that holds it at the site. -/
theorem replaceCall_eq (a : DottedPath) :
    replaceCall wanted hoists shadowed a = heldText (heldBy wanted hoists shadowed) a := by
  unfold replaceCall heldText heldBy
  split
  · cases hoists.find? (·.call = a) <;> rfl
  · rfl

/-- A call that is replaced is wanted, and its variable is the one of its hoist. -/
theorem exists_of_heldBy {a : DottedPath} {x : List Char}
    (h : heldBy wanted hoists shadowed a = some x) :
    wanted (String.ofList a.name) shadowed = true ∧ ∃ k ∈ hoists, k.call = a ∧ k.name.toList =
      x := by
  unfold heldBy at h
  split at h
  · rename_i hwanted
    obtain ⟨k, hk, rfl⟩ := Option.map_eq_some_iff.mp h
    have hcall := List.find?_some hk
    exact ⟨hwanted, k, List.mem_of_find?_eq_some hk, of_decide_eq_true hcall, rfl⟩
  · simp at h

/-- The text of an expression after a round. -/
theorem toList_rewritten :
    (rewritten wanted hoists site).toList =
      spelled (exchanged (heldBy wanted hoists site.shadowed)
        (accessor.pieces site.expression.toList)) := by
  have hwrite : replaceCall wanted hoists site.shadowed =
      heldText (heldBy wanted hoists site.shadowed) := funext replaceCall_eq
  rw [rewritten, Phrase.respell, String.toList_ofList, spelled_exchanged, hwrite]

/-- Without hoists nothing is rewritten. -/
theorem rewritten_nil : rewritten wanted [] = Site.expression := by
  funext site
  have hwrite : replaceCall wanted [] site.shadowed = accessor.write := by
    funext a
    unfold replaceCall
    split <;> rfl
  rw [rewritten, hwrite, Phrase.respell_write]

/-- **A round** replaces the hoisted calls at all sites, also where nothing is repeated. -/
theorem hoistRepeated_eq (wanted : Wanted) (nodes : List Node) (taken : Names) :
    hoistRepeated wanted nodes taken =
      (mapSites (rewritten wanted (roundHoists wanted nodes taken)) [] nodes,
        (roundHoists wanted nodes taken).map Hoist.binding,
        taken ++ (roundHoists wanted nodes taken).map Hoist.name) := by
  have hnamed := named_nameCalls taken (repeated (wantedCalls wanted nodes))
  unfold roundHoists hoistRepeated
  split
  · rename_i hnil
    rw [hnil, nameCalls, rewritten_nil, mapSites_self, List.map_nil, List.map_nil, List.append_nil]
  · rename_i call calls hcons
    rw [hcons] at hnamed ⊢
    rw [← hnamed.left_eq]
    rfl

variable (wanted hoists site) in
/-- The text in which some calls are replaced keeps what a single replacement keeps. -/
theorem rewritten_induction (rel : List Char → List Char → Prop) (hrefl : ∀ cs, rel cs cs)
    (htrans : ∀ a b c, rel a b → rel b c → rel a c)
    (halone : ∀ before a after, accessor.pieces site.expression.toList =
    before ++ .phrase a :: after →
      (∃ x, heldBy wanted hoists site.shadowed a = some x) → StandsAlone before (spelled after))
    (hstep : ∀ before a rest x k, accessor.pieces (spelled before ++ (a.call ++ rest)) =
        before ++ .phrase a :: accessor.pieces rest → StandsAlone before rest →
      wanted (String.ofList a.name) site.shadowed = true → k ∈ hoists → k.call = a →
      k.name.toList = x →
      rel (spelled before ++ (a.call ++ rest)) (spelled before ++ '$' :: (x ++ rest))) :
    rel site.expression.toList (rewritten wanted hoists site).toList := by
  have hcut := isCut_pieces site.expression.toList
  have htext := spelled_pieces site.expression.toList
  rw [toList_rewritten]
  suffices hwritten : rel (spelled ([] ++ accessor.pieces site.expression.toList))
      (spelled ([] ++ exchanged (heldBy wanted hoists site.shadowed)
        (accessor.pieces site.expression.toList))) by
    rwa [List.nil_append, List.nil_append, htext] at hwritten
  refine written_induction hrefl htrans ?_
  intro before a after x heq hx
  rw [List.nil_append] at heq
  obtain ⟨hwanted, k, hk, hcall, hname⟩ := exists_of_heldBy hx
  have hold := halone before a after heq ⟨x, hx⟩
  rw [heq] at hcut
  refine hstep before a _ x k (hcut.pieces_append (hold.noLoneQuote.stayOpen _ _)) ?_ hwanted hk
    hcall hname
  exact ⟨hold.noLoneQuote, hold.notGlued, hold.notMember, hold.notStatic,
    stopsAt_exchanged hold.stops⟩

end Round

/-! ## What a round keeps -/

/-- A call that stands by itself in an expression may be exchanged for a variable that holds its
value. -/
structure Host.Lawful (host : Host) : Prop where
  exchange : ∀ {expression : String} {before after : List CallPiece} {a : DottedPath}
    {x : List Char} {s : Store host.Value},
    accessor.pieces expression.toList = before ++ .phrase a :: after →
    StandsAlone before (spelled after) → isIdentifier x →
    s (String.ofList x) = host.eval (String.ofList a.call) s →
    host.eval (String.ofList (spelled before ++ '$' :: (x ++ spelled after))) s =
      host.eval expression s

/-- The calls of a site that are replaced in a round stand by themselves. -/
def StandAlone (wanted : Wanted) (hoists : List Hoist) (site : Site) : Prop :=
  ∀ before a after, accessor.pieces site.expression.toList = before ++ .phrase a :: after →
    (∃ x, heldBy wanted hoists site.shadowed a = some x) → StandsAlone before (spelled after)

/-- Text with a character that is no blank and none of `$slot` is no echo of the default slot. -/
theorem isSlotEcho_eq_false {cs : List Char} {c : Char} (hmem : c ∈ cs)
    (hblank : Text.isBlank c = false) (hslot : c ∉ ['$', 's', 'l', 'o', 't']) :
    Node.isSlotEcho (String.ofList cs) = false := by
  have hdrop : ∀ l : List Char, c ∈ l → c ∈ l.dropWhile Text.isBlank := by
    intro l hl
    rw [← List.takeWhile_append_dropWhile (p := Text.isBlank) (l := l), List.mem_append] at hl
    rcases hl with hl | hl
    · rw [List.mem_takeWhile_imp hl] at hblank
      simp at hblank
    · exact hl
  have htrim : c ∈ Text.trim cs :=
    List.mem_reverse.mpr (hdrop _ (List.mem_reverse.mpr (hdrop cs hmem)))
  unfold Node.isSlotEcho trimBlanks
  rw [String.toList_ofList, beq_eq_false_iff_ne]
  intro heq
  have hlist := congrArg String.toList heq
  rw [String.toList_ofList] at hlist
  rw [hlist] at htrim
  exact hslot htrim

section Kept

variable {host : Host} {wanted : Wanted} {hoists : List Hoist} {site : Site} {apart : List String}

/-- The name of a hoist is made from its call. -/
def NamedByCall (hoists : List Hoist) : Prop :=
  ∀ h ∈ hoists, ∃ n, h.name = candidate (hoistBase h.call) n

/-- **A replaced expression keeps its value** wherever the variables that are not shadowed hold the
values of their calls. -/
theorem keeps_rewritten (hlaw : host.Lawful) (hnamed : NamedByCall hoists)
    (hwanted : ∀ name shadowed, wanted name shadowed = true → name ∉ shadowed)
    (halone : StandAlone wanted hoists site)
    (hapart : ∀ x ∈ mentioned site.expression, x ∉ apart) :
    Keeps host apart hoists (rewritten wanted hoists) site := by
  constructor
  · intro s s' hs
    have hkept := rewritten_induction wanted hoists site
      (fun t t' => host.eval (String.ofList t) s' = host.eval (String.ofList t') s')
      (fun _ => rfl) (fun _ _ _ => Eq.trans) halone
      fun before a rest x k hpieces halone hname hk hcall hx => by
        subst hcall hx
        obtain ⟨n, hn⟩ := hnamed k hk
        have hcut : IsCut (before ++ .phrase k.call :: accessor.pieces rest) :=
          hpieces ▸ isCut_pieces _
        have hident : isIdentifier k.name.toList := hn ▸ isIdentifier_candidate hcut.readable n
        have hrest := spelled_pieces rest
        have hheld := hs.held k hk (hwanted _ _ hname)
        have hexchange : host.eval (String.ofList (spelled before ++
              '$' :: (k.name.toList ++ spelled (accessor.pieces rest)))) s' =
            host.eval (String.ofList (spelled before ++ (k.call.call ++ rest))) s' :=
          hlaw.exchange (by rw [String.toList_ofList, hpieces]) (by rwa [hrest]) hident
            (by rw [String.ofList_toList, hheld]; rfl)
        rw [hrest] at hexchange
        exact hexchange.symm
    rw [String.ofList_toList, String.ofList_toList] at hkept
    rw [hs.eval_eq hapart, hkept]
  · have hkept := rewritten_induction wanted hoists site
      (fun t t' => Node.isSlotEcho (String.ofList t') = Node.isSlotEcho (String.ofList t))
      (fun _ => rfl) (fun _ _ _ h₁ h₂ => h₂.trans h₁) halone
      fun before a rest x k _ _ _ hk hcall hx => by
        subst hcall hx
        obtain ⟨n, hn⟩ := hnamed k hk
        obtain ⟨name, hname⟩ := exists_candidate_eq k.call n
        rw [isSlotEcho_eq_false (c := '_') (by rw [hn, hname]; simp) (by decide) (by decide),
          isSlotEcho_eq_false (c := '(') (by rw [call_eq]; simp [callOpening]) (by decide)
            (by decide)]
    rwa [String.ofList_toList, String.ofList_toList] at hkept

/-- A replaced expression mentions what it mentioned before, and names of hoists. -/
theorem mentioned_rewritten (hnamed : NamedByCall hoists) (halone : StandAlone wanted hoists site)
    {x : String} (hx : x ∈ mentioned (rewritten wanted hoists site)) :
    x ∈ mentioned site.expression ∨ x ∈ hoists.map Hoist.name := by
  have hkept := rewritten_induction wanted hoists site
    (fun t t' => ∀ y ∈ namesFrom 0 t', y ∈ namesFrom 0 t ∨
      ∃ h ∈ hoists, h.name.toList = y)
    (fun _ _ hy => .inl hy)
    (fun _ _ _ h₁ h₂ y hy => by
      rcases h₂ y hy with hy | hy
      · exact h₁ y hy
      · exact .inr hy)
    halone
    fun before a rest x k hpieces halone _ hk hcall hx y hy => by
      subst hcall hx
      obtain ⟨n, hn⟩ := hnamed k hk
      have hcut : IsCut (before ++ .phrase k.call :: accessor.pieces rest) :=
        hpieces ▸ isCut_pieces _
      obtain ⟨left, right, hold, hnew⟩ := exists_names_exchange hcut halone
      rw [hnew _ (hn ▸ isIdentifier_candidate hcut.readable n)] at hy
      rw [hold]
      simp only [List.mem_append, List.mem_cons] at hy ⊢
      rcases hy with hy | rfl | hy
      · exact .inl (.inl hy)
      · exact .inr ⟨k, hk, rfl⟩
      · exact .inl (.inr (.inr hy))
  obtain ⟨y, hy, rfl⟩ :
    ∃ y ∈ namesFrom 0 (rewritten wanted hoists site).toList, String.ofList y = x :=
    List.mem_map.mp hx
  rcases hkept y hy with hold | ⟨h, hh, rfl⟩
  · exact .inl (List.mem_map.mpr ⟨y, hold, rfl⟩)
  · exact .inr (List.mem_map.mpr ⟨h, hh, String.ofList_toList.symm⟩)

/-- The variable of a call is mentioned. -/
theorem mem_mentioned_of_mem_all {expression : String} {a : DottedPath}
    (h : a ∈ accessor.all expression) : String.ofList a.name ∈ mentioned expression := by
  obtain ⟨p, hp, hpa⟩ := List.mem_filterMap.mp h
  cases p with
  | phrase b =>
    obtain rfl := Option.some.inj hpa
    exact List.mem_map_of_mem (name_mem_namesFrom hp 0)
  | literal | char => simp [Piece.phrase?] at hpa

/-- A call mentions its variable and nothing else. -/
theorem mentioned_call {a : DottedPath} (h : a.Readable) :
    mentioned (String.ofList a.call) = [String.ofList a.name] := by
  have := namesFrom_call h 0 []
  rw [List.append_nil, namesFrom_nil] at this
  rw [mentioned_ofList, this]
  rfl

end Kept

/-! ## How often calls occur -/

/-- The calls of a tree, outside of slots, in order. -/
def calls (nodes : List Node) : List DottedPath := (expressions nodes).flatMap accessor.all

/-- A filtered list counts an element as the list does, or not at all. -/
theorem count_filter_eq {α : Type} [DecidableEq α] (p : α → Bool) (a : α) (l : List α) :
    (l.filter p).count a = if p a then l.count a else 0 := by
  split
  · rename_i h
    exact List.count_filter h
  · rename_i h
    exact List.count_eq_zero_of_not_mem fun hmem => h (List.mem_filter.mp hmem).2

section Count

variable {wanted : Wanted} {hoists : List Hoist} {repeats owned : DottedPath → Prop}

/-- The calls that are left of settled expressions are those that are not replaced. -/
theorem settled_rewritten {site : Site} (hnamed : NamedByCall hoists)
    (hsettled : Settled repeats owned (accessor.pieces site.expression.toList))
    (hheld : ∀ a x, heldBy wanted hoists site.shadowed a = some x → repeats a ∧ owned a) :
    Settled repeats owned (accessor.pieces (rewritten wanted hoists site).toList) ∧
      accessor.all (rewritten wanted hoists site) =
        (accessor.all site.expression).filter fun a =>
          (heldBy wanted hoists site.shadowed a).isNone := by
  have hcut := isCut_pieces site.expression.toList
  have hheldBy : ∀ a x, .phrase a ∈ accessor.pieces site.expression.toList →
      heldBy wanted hoists site.shadowed a = some x → repeats a ∧ owned a ∧ isIdentifier x ∧
        (functionName <:+ x → functionName <:+ (hoistBase a).toList) := by
    intro a x hmem hx
    obtain ⟨-, k, hk, rfl, rfl⟩ := exists_of_heldBy hx
    obtain ⟨n, hn⟩ := hnamed k hk
    rw [hn]
    exact ⟨(hheld _ _ hx).1, (hheld _ _ hx).2,
      isIdentifier_candidate (hcut.readable_of_mem hmem) n,
      functionName_of_suffix_candidate⟩
  rw [← List.nil_append (accessor.pieces site.expression.toList)] at hcut hsettled
  obtain ⟨hcut', hsettled'⟩ := hsettled.exchanged hcut hheldBy
  have hpieces : accessor.pieces (rewritten wanted hoists site).toList =
      exchanged (heldBy wanted hoists site.shadowed) (accessor.pieces site.expression.toList) := by
    rw [toList_rewritten]
    exact hcut'
  rw [hpieces]
  refine ⟨hsettled', ?_⟩
  rw [Phrase.all, hpieces, phrases_exchanged]
  rfl

variable (wanted) in
/-- A hoisted call is left exactly where it is not wanted. -/
theorem count_left_add_count_wanted {a : DottedPath} (ha : a ∈ hoists.map Hoist.call)
    (sites : List Site) :
    (sites.flatMap fun site => (accessor.all site.expression).filter fun a =>
        (heldBy wanted hoists site.shadowed a).isNone).count a +
      (sites.flatMap fun site => (accessor.all site.expression).filter fun a =>
        wanted (String.ofList a.name) site.shadowed).count a =
      (sites.flatMap fun site => accessor.all site.expression).count a := by
  have hfind : (hoists.find? (·.call = a)).isSome := by
    obtain ⟨k, hk, rfl⟩ := List.mem_map.mp ha
    exact List.find?_isSome.mpr ⟨k, hk, decide_eq_true rfl⟩
  induction sites with
  | nil => rfl
  | cons site sites ih =>
    simp only [List.flatMap_cons, List.count_append, count_filter_eq]
    have hheld : (heldBy wanted hoists site.shadowed a).isNone =
        !wanted (String.ofList a.name) site.shadowed := by
      obtain ⟨k, hk⟩ := Option.isSome_iff_exists.mp hfind
      unfold heldBy
      cases wanted (String.ofList a.name) site.shadowed <;> simp [hk]
    rw [hheld]
    cases wanted (String.ofList a.name) site.shadowed <;> simp <;> omega

/-- **A call does not occur more often after a round**, even together with the values of the new
variables, if exactly those of its occurrences are left that are not replaced. -/
theorem count_calls_round {nodes : List Node} {taken : Names} {a : DottedPath}
    (hleft : ∀ site ∈ sites [] nodes,
      (accessor.all (rewritten wanted (roundHoists wanted nodes taken) site)).count a =
        ((accessor.all site.expression).filter fun b =>
          (heldBy wanted (roundHoists wanted nodes taken) site.shadowed b).isNone).count a) :
    (calls (mapSites (rewritten wanted (roundHoists wanted nodes taken)) [] nodes)).count a +
      ((roundHoists wanted nodes taken).map Hoist.call).count a ≤ (calls nodes).count a := by
  have hnamed := named_nameCalls taken (repeated (wantedCalls wanted nodes))
  generalize hhoists : roundHoists wanted nodes taken = hoists at hleft ⊢
  have hcall : hoists.map Hoist.call = repeated (wantedCalls wanted nodes) :=
    hhoists ▸ hnamed.map_call
  have hleft : (calls (mapSites (rewritten wanted hoists) [] nodes)).count a =
      ((sites [] nodes).flatMap fun site => (accessor.all site.expression).filter fun b =>
        (heldBy wanted hoists site.shadowed b).isNone).count a := by
    rw [calls, expressions_mapSites, List.flatMap_map, List.count_flatMap, List.count_flatMap]
    exact congrArg List.sum (List.map_congr_left hleft)
  have hall : calls nodes = (sites [] nodes).flatMap fun site => accessor.all site.expression := by
    rw [calls, ← map_sites [], List.flatMap_map]
  by_cases ha : a ∈ hoists.map Hoist.call
  · have hsum := count_left_add_count_wanted wanted ha (sites [] nodes)
    have hwanted : 1 < (wantedCalls wanted nodes).count a := by
      rw [hcall, repeated, List.mem_filter] at ha
      exact of_decide_eq_true ha.2
    have hone : (hoists.map Hoist.call).count a ≤ 1 := by
      rw [hcall]
      exact List.nodup_iff_count_le_one.mp ((nodup_eraseDups _).filter _) a
    rw [hleft, hall]
    have hdef : wantedCalls wanted nodes = (sites [] nodes).flatMap fun site =>
      (accessor.all site.expression).filter fun a =>
        wanted (String.ofList a.name) site.shadowed := rfl
    rw [hdef] at hwanted
    omega
  · rw [List.count_eq_zero_of_not_mem ha, hleft, hall, Nat.add_zero]
    refine List.Sublist.count_le a ?_
    induction sites [] nodes with
    | nil => exact List.Sublist.slnil
    | cons site sites ih => exact List.filter_sublist.append ih

end Count

/-! ## What is kept by rounds -/

/-- What is asked of expressions in which calls may be replaced, `moved` saying which, is kept by a
round: calls that are moved stand by themselves, and of the calls that are counted, among them
those on variables of the program, exactly those are left that are not replaced. -/
structure KeptByRounds (good : List CallPiece → Prop) (moved counted : DottedPath → Prop) :
    Prop where
  standsAlone : ∀ {before after : List CallPiece} {a : DottedPath},
    good (before ++ .phrase a :: after) → moved a → StandsAlone before (spelled after)
  call : ∀ {a : DottedPath}, a.Readable → good [.phrase a]
  round : ∀ {wanted : Wanted} {hoists : List Hoist} {site : Site}, NamedByCall hoists →
    good (accessor.pieces site.expression.toList) →
    (∀ a x, heldBy wanted hoists site.shadowed a = some x → moved a) →
    good (accessor.pieces (rewritten wanted hoists site).toList) ∧
      ∀ a, counted a → (accessor.all (rewritten wanted hoists site)).count a =
        ((accessor.all site.expression).filter fun b =>
          (heldBy wanted hoists site.shadowed b).isNone).count a
  counted_of_program : ∀ a, isInternal (String.ofList a.name) = false → counted a

/-- A call alone is settled. -/
theorem settled_phrase {repeats owned : DottedPath → Prop} (a : DottedPath) :
    Settled repeats owned [.phrase a] := by
  intro before b after heq _
  obtain ⟨rfl, rfl⟩ : before = [] ∧ after = [] := by
    cases before with
    | nil => exact ⟨rfl, (List.cons.inj heq).2.symm⟩
    | cons p before => simp at heq
  refine ⟨⟨by simp [NoLoneQuote], by simp, by decide, by decide, stopsAt_nil _⟩, fun _ => ?_⟩
  exact ⟨fun hopening => absurd hopening (by decide), fun _ hparen => absurd hparen (by decide)⟩

/-- Settled expressions stay settled. -/
theorem keptByRounds_settled (repeats owned : DottedPath → Prop) :
    KeptByRounds (Settled repeats owned) (fun a => repeats a ∧ owned a) fun _ => True where
  standsAlone h ha := h.standsAlone _ _ _ rfl ha.1
  call _ := settled_phrase _
  round hnamed hsettled hheld :=
    have h := settled_rewritten hnamed hsettled hheld
    ⟨h.1, fun a _ => congrArg (List.count a) h.2⟩
  counted_of_program _ _ := trivial

end ViewCompiler.Template
