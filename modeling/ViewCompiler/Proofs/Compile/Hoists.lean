import ViewCompiler.Proofs.Compile.Declared
import ViewCompiler.Proofs.Compile.Introducing
import ViewCompiler.Proofs.Compile.Totality
import ViewCompiler.Proofs.Php.Execution

/-!
# The names of a unit's local variables

The local variables of a unit have different names, and none of them is a name that the generated
code or the data uses (`hoists_unitOf`). Only names that the compiler has taken itself are avoided:
a variable of the template that is spelled like a name for a call can be captured
(`exists_name_occurs`), and exactly such a variable is (`not_occurs_name_iff`).
-/

namespace ViewCompiler.Template

open Expression (DottedPath)

/-- In a name for the value of a call, an underscore stands between the variable and the path. -/
theorem candidate_ne (a : DottedPath) (n : Nat) (word : List Char) (h : '_' ∉ word) :
    candidate (hoistBase a) n ≠ String.ofList ('_' :: '_' :: word) := by
  intro heq
  obtain ⟨tail, htail, hbase⟩ : ∃ tail, '_' ∈ tail ∧ (hoistBase a).toList = ['_', '_'] ++ tail :=
    ⟨_, List.mem_append_right _ List.mem_cons_self, toList_hoistBase a⟩
  obtain ⟨rest, hrest, hlist⟩ : ∃ rest, '_' ∈ rest ∧
      (candidate (hoistBase a) n).toList = ['_', '_'] ++ rest := by
    rcases toList_candidate (hoistBase a) n with hlist | ⟨digits, hlist, -, -⟩
    · exact ⟨tail, htail, hlist.trans hbase⟩
    · refine ⟨tail ++ '_' :: digits, List.mem_append_left _ htail, ?_⟩
      rw [hlist, hbase, List.append_assoc]
  rw [heq, String.toList_ofList] at hlist
  have hsplit : ['_', '_'] ++ word = ['_', '_'] ++ rest := hlist
  obtain rfl : word = rest := List.append_cancel_left hsplit
  exact h hrest

mutual

/-- The variables that the loops in a node assign, those in slots included. -/
def Node.loopNames : Node → List String
  | .conditional branches => branchesLoopNames branches
  | .loop head _ body => head.names ++ loopNames body
  | .existence _ body => loopNames body
  | .component _ _ content slots => loopNames content ++ slotsLoopNames slots
  | _ => []

/-- The variables that the loops in nodes assign, those in slots included. -/
def loopNames : List Node → List String
  | [] => []
  | node :: nodes => node.loopNames ++ loopNames nodes

/-- The variables that the loops in branches assign, those in slots included. -/
def branchesLoopNames : List Branch → List String
  | [] => []
  | ⟨_, body⟩ :: branches => loopNames body ++ branchesLoopNames branches

/-- The variables that the loops in named slots assign. -/
def slotsLoopNames : List NamedSlot → List String
  | [] => []
  | ⟨_, body⟩ :: slots => loopNames body ++ slotsLoopNames slots
end

end ViewCompiler.Template

namespace ViewCompiler.Compile

open Expression (DottedPath)
open Php
open Template

/-! ## Unique names -/

/-- **The names of a unit's local variables.** Names were taken for calls from the start, each the
first candidate for its call that was free at that moment. All local variables of the unit, those
of loops and of closures at any depth included, are bound to these calls under these names, each
once. They are different from each other, from the names that generated code uses, and from what is
taken from the data. -/
structure NamesUnique (u : RenderUnit) (hoists : List Hoist) (taken : Names) : Prop where
  takes : Takes [] hoists taken
  perm : u.allLocals.Perm (hoists.map Hoist.binding)
  nodup : (u.allLocals.map Binding.name).Nodup
  notGenerated : ∀ b ∈ u.allLocals, b.name ∉ [dataName, outputVariable, itemsVariable]
  notDeclared : ∀ b ∈ u.allLocals, b.name ∉ u.declared

/-- A parsed template has a unit, and the names of its local variables are unique. -/
theorem exists_namesUnique {template : String} {nodes : List Node}
    (hparse : parse template = .ok nodes) (path : String) :
    ∃ u form taken hoists, (unitOf path (withCalls nodes)).run [] = .ok ((u, form), taken) ∧
      NamesUnique u hoists taken := by
  obtain ⟨hlocals, hslots⟩ := (derivesAll_of_parse hparse).locals_eq
  obtain ⟨hcalls, hslotCalls⟩ := locals_withCalls nodes
  obtain ⟨⟨u, form⟩, taken, hrun⟩ := succeeds_unitOf path (withCalls nodes) []
  obtain ⟨hoists, htakes, hadds⟩ :=
    introduces_unitOf path (hcalls.trans hlocals) (hslotCalls.trans hslots) _ _ _ hrun
  have hperm : u.allLocals.Perm (hoists.map Hoist.binding) := hadds
  have hname : ∀ b ∈ u.allLocals, ∃ a n, b.name = candidate (hoistBase a) n := by
    intro b hb
    obtain ⟨k, hk, rfl⟩ := List.mem_map.mp (hperm.subset hb)
    obtain ⟨-, n, hn, -⟩ := htakes.exists_candidate k hk
    exact ⟨k.call, n, hn⟩
  refine ⟨u, form, taken, hoists, hrun, htakes, hperm, ?_, fun b hb => ?_, fun b hb => ?_⟩
  · have hnames : (u.allLocals.map Binding.name).Perm taken := by
      have hmap := hperm.map Binding.name
      rw [List.map_map] at hmap
      rw [htakes.left_eq, List.nil_append]
      exact hmap
    exact hnames.nodup_iff.mpr (htakes.nodup List.nodup_nil)
  · obtain ⟨a, n, hn⟩ := hname b hb
    simp only [hn, List.mem_cons, List.not_mem_nil, or_false, not_or]
    exact ⟨candidate_ne a n "data".toList (by decide), candidate_ne a n "out".toList (by decide),
      candidate_ne a n "items".toList (by decide)⟩
  · obtain ⟨a, n, hn⟩ := hname b hb
    rw [gives_declared path (withCalls nodes) _ _ _ hrun, hn]
    exact notMem_declaredNames (isInternal_candidate a n)

/-- **The names that deduplication introduces are unique in a unit**, and the search for a name
ends after as many candidates as there are taken names and takes the name that it finds, nothing
else. -/
theorem hoists_unitOf {template : String} {nodes : List Node} (hparse : parse template = .ok nodes)
    (path : String) :
    (∃ u form taken hoists, (unitOf path (withCalls nodes)).run [] = .ok ((u, form), taken) ∧
      (∀ indent, compile template path indent = .ok ⟨u.print indent, form⟩) ∧
      NamesUnique u hoists taken) ∧
    ∀ (base : String) (taken : Names), IsFirstFree taken base (reserve base taken).1 ∧
      (reserve base taken).2 = taken ++ [(reserve base taken).1] := by
  obtain ⟨u, form, taken, hoists, hrun, hnames⟩ := exists_namesUnique hparse path
  exact ⟨⟨u, form, taken, hoists, hrun, compile_of_run hparse hrun, hnames⟩,
    fun base taken => ⟨isFirstFree_fresh taken base, rfl⟩⟩

/-- A template with a repeated call and another one in a slot; their paths differ in a dot and an
underscore only. -/
def sharedBaseTemplate : String :=
  "\x7b\x7b $u.a_b \x7d\x7d\x7b\x7b $u.a_b \x7d\x7d" ++
    "<x-a>\x7b\x7b $u.a.b \x7d\x7d\x7b\x7b $u.a.b \x7d\x7d</x-a>"

/-- The names of its unit, in the order in which they are taken. -/
theorem hoists_unitOf_sharedBase :
    ∃ nodes u form taken hoists, parse sharedBaseTemplate = .ok nodes ∧
      (unitOf "" (withCalls nodes)).run [] = .ok ((u, form), taken) ∧
      taken = ["__u_a_b", "__u_a_b_2"] ∧ NamesUnique u hoists taken := by
  have hcheck : ((parse sharedBaseTemplate).toOption.any fun nodes =>
      ((unitOf "" (withCalls nodes)).run []).toOption.any fun result =>
        result.2 = ["__u_a_b", "__u_a_b_2"]) = true := by decide +kernel
  obtain ⟨nodes, hparse, htaken⟩ := exists_parse_of_any hcheck
  obtain ⟨⟨u, form, taken, hoists, hrun, -, hnames⟩, -⟩ := hoists_unitOf hparse ""
  rw [hrun] at htaken
  exact ⟨nodes, u, form, taken, hoists, hparse, hrun, of_decide_eq_true htaken, hnames⟩

/-! ## The variables of the tree -/

/-- The name is a variable of the tree: it is free in it, or a loop of the tree assigns it. -/
def Occurs (x : String) (nodes : List Node) : Prop :=
  x ∈ freeVariables nodes [] ∨ x ∈ loopNames nodes

/-- The name is spelled like one that is tried for a call that a local variable of the unit is
bound to: like the name of the local variable, or a candidate before it. -/
def SpelledForCall (u : RenderUnit) (x : String) : Prop :=
  ∃ b ∈ u.allLocals, ∃ a : DottedPath, a.Readable ∧ b.value = String.ofList a.call ∧
    ∃ m n, m ≤ n ∧ x = candidate (hoistBase a) m ∧ b.name = candidate (hoistBase a) n

/-- The names that are spelled like one for a call that is hoisted are the names of the local
variables: with the name of a local variable all candidates before it are taken, too. -/
theorem NamesUnique.spelledForCall_iff {u : RenderUnit} {hoists : List Hoist} {taken : Names}
    (h : NamesUnique u hoists taken) {x : String} :
    SpelledForCall u x ↔ ∃ b ∈ u.allLocals, b.name = x := by
  constructor
  · rintro ⟨b, hb, a, ha, hvalue, m, n, hmn, rfl, hname⟩
    obtain ⟨k, hk, rfl⟩ := List.mem_map.mp (h.perm.subset hb)
    obtain ⟨hcall, n', hn', hbefore⟩ := h.takes.exists_candidate k hk
    obtain rfl : k.call = a := hcall.eq_of_call_eq ha (String.ofList_injective hvalue)
    obtain rfl : n' = n := candidate_injective _ (hn'.symm.trans hname)
    have hmem := hbefore m hmn
    rw [h.takes.left_eq, List.nil_append] at hmem
    obtain ⟨k', hk', heq⟩ := List.mem_map.mp hmem
    exact ⟨k'.binding, h.perm.symm.subset (List.mem_map_of_mem hk'), heq⟩
  · rintro ⟨b, hb, rfl⟩
    obtain ⟨k, hk, rfl⟩ := List.mem_map.mp (h.perm.subset hb)
    obtain ⟨hcall, n, hn, -⟩ := h.takes.exists_candidate k hk
    exact ⟨k.binding, hb, k.call, hcall, rfl, n, n, le_rfl, hn, hn⟩

/-- **When hoisting captures no variable of the tree**: if none of the variables that occur in it
begins like the names that generated code keeps for itself, and exactly if none of them is spelled
like a name that is tried for a call that is hoisted. Such a name begins in this way, and as a
variable of the tree it is never taken from the data. -/
theorem not_occurs_name_iff {template : String} {nodes : List Node}
    (hparse : parse template = .ok nodes) (path : String) :
    ∃ u form taken, (unitOf path (withCalls nodes)).run [] = .ok ((u, form), taken) ∧
      ((∀ x, Occurs x (withCalls nodes) → isInternal x = false) →
        ∀ b ∈ u.allLocals, ¬ Occurs b.name (withCalls nodes)) ∧
      ((∀ b ∈ u.allLocals, ¬ Occurs b.name (withCalls nodes)) ↔
        ∀ x, Occurs x (withCalls nodes) → ¬ SpelledForCall u x) ∧
      ∀ x, SpelledForCall u x → isInternal x = true ∧ x ∉ u.declared := by
  obtain ⟨u, form, taken, hoists, hrun, hnames⟩ := exists_namesUnique hparse path
  have hinternal : ∀ x, SpelledForCall u x → isInternal x = true := by
    rintro x ⟨-, -, a, -, -, m, -, -, rfl, -⟩
    exact isInternal_candidate a m
  refine ⟨u, form, taken, hrun, fun hplain b hb hoccurs => ?_, ⟨fun hfree x hoccurs hx => ?_,
    fun hapart b hb hoccurs => hapart b.name hoccurs (hnames.spelledForCall_iff.mpr ⟨b, hb, rfl⟩)⟩,
    fun x hx => ⟨hinternal x hx, ?_⟩⟩
  · have hname := hinternal b.name (hnames.spelledForCall_iff.mpr ⟨b, hb, rfl⟩)
    rw [hplain b.name hoccurs] at hname
    cases hname
  · obtain ⟨b, hb, rfl⟩ := hnames.spelledForCall_iff.mp hx
    exact hfree b hb hoccurs
  · rw [gives_declared path (withCalls nodes) _ _ _ hrun]
    exact notMem_declaredNames (hinternal x hx)

/-- A template with a repeated call on a variable of a loop; its variables begin like the names
that generated code keeps for itself. -/
def similarTemplate : String :=
  "@each($__us as $__u)\x7b\x7b $__u.n \x7d\x7d\x7b\x7b $__u.n \x7d\x7d@endeach"

/-- Its call is hoisted, and none of its variables is captured. -/
theorem not_occurs_name_similar :
    ∃ nodes u form, parse similarTemplate = .ok nodes ∧
      (unitOf "" (withCalls nodes)).run [] = .ok ((u, form), ["____u_n"]) ∧
      Occurs "__u" (withCalls nodes) ∧
      ∀ b ∈ u.allLocals, ¬ Occurs b.name (withCalls nodes) := by
  have hcheck : ((parse similarTemplate).toOption.any fun nodes =>
      reads [] (withCalls nodes) ++ loopNames (withCalls nodes) = ["__us", "__u"] ∧
        ((unitOf "" (withCalls nodes)).run []).toOption.any fun result =>
          result.2 = ["____u_n"]) = true := by decide +kernel
  obtain ⟨nodes, hparse, hnodes⟩ := exists_parse_of_any hcheck
  obtain ⟨hvariables, htaken⟩ := of_decide_eq_true hnodes
  obtain ⟨u, form, taken, hrun, -, hiff, -⟩ := not_occurs_name_iff hparse ""
  rw [hrun] at htaken
  obtain rfl : taken = ["____u_n"] := of_decide_eq_true htaken
  have hoccurs : ∀ x, Occurs x (withCalls nodes) ↔ x = "__us" ∨ x = "__u" := by
    intro x
    rw [Occurs, mem_freeVariables, ← List.mem_append, hvariables, List.mem_pair]
  refine ⟨nodes, u, form, hparse, hrun, (hoccurs _).mpr (.inr rfl), hiff.mpr ?_⟩
  rintro x hx ⟨-, -, a, -, -, m, -, -, hm, -⟩
  rcases (hoccurs x).mp hx with rfl | rfl
  · exact candidate_ne a m ['u', 's'] (by decide) hm.symm
  · exact candidate_ne a m ['u'] (by decide) hm.symm

/-- The local variables ahead of a unit are those of its deduplicated tree. -/
theorem locals_of_run {path : String} {nodes : List Node} {u : RenderUnit} {form : Strategy}
    {taken left : Names} (hrun : (unitOf path nodes).run taken = .ok ((u, form), left)) :
    u.locals = ((dedup nodes).run taken).1.2 := by
  obtain ⟨result, middle, hdedup, hrun⟩ := exists_of_run_bind hrun
  obtain ⟨body, between, -, hunit⟩ := exists_of_run_bind hrun
  cases hunit
  rw [eq_of_run_taking hdedup]

/-- A template with a repeated call and a variable that is spelled like its name. -/
def clashingTemplate : String :=
  "\x7b\x7b $u.n \x7d\x7d\x7b\x7b $u.n \x7d\x7d\x7b\x7b $__u_n \x7d\x7d"

/-- **Hoisting can capture a variable of the tree.** -/
theorem exists_name_occurs :
    ∃ nodes u form taken, parse clashingTemplate = .ok nodes ∧
      (unitOf "" (withCalls nodes)).run [] = .ok ((u, form), taken) ∧
      ∃ b ∈ u.allLocals, Occurs b.name (withCalls nodes) := by
  have hcheck : ((parse clashingTemplate).toOption.any fun nodes =>
      ((dedup (withCalls nodes)).run []).1.2.any fun b =>
        (reads [] (withCalls nodes)).contains b.name) = true := by decide +kernel
  obtain ⟨nodes, hparse, hclash⟩ := exists_parse_of_any hcheck
  obtain ⟨b, hb, hreads⟩ := List.any_eq_true.mp hclash
  obtain ⟨⟨u, form⟩, taken, hrun⟩ := succeeds_unitOf "" (withCalls nodes) []
  refine ⟨nodes, u, form, taken, hparse, hrun, b, List.mem_append_left _ ?_,
    .inl (mem_freeVariables.mpr (List.contains_iff_mem.mp hreads))⟩
  rwa [locals_of_run hrun]

end ViewCompiler.Compile
