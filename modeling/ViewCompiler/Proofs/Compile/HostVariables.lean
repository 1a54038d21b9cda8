import ViewCompiler.Proofs.Compile.Captures
import ViewCompiler.Proofs.Compile.Declared
import ViewCompiler.Proofs.Expression.HostCode

/-!
# Variables of embedded host code

What a tree reads its unit takes from the data and a closure over it captures, by the names alone
(`mem_declared_of_mem_reads`, `mem_uses_of_mem_reads`). So the variables that embedded host code
shows are bound wherever the code stands (`binds_of_shows`), if no quote of a comment in the code
is closed behind the comment. An apostrophe in a comment can hide a variable otherwise
(`exists_shows_notMem_freeVariables`).
-/

namespace ViewCompiler.Compile

open Expression (CommentsKeepQuotes InCode Inside Literal Shows closeQuote?
  commentsKeepQuotes_of_forall forall_mem_of_all inside_of_closeQuote? stopsAt_cons stopsAt_nil)
open Php
open Template

variable {nodes body content : List Node} {x code : String} {echo : Bool}

/-- The unit of a tree takes from the data what the tree reads, if a template may take it. -/
theorem mem_declared_of_mem_reads (path : String) (hx : x ∈ reads [] nodes) :
    ∃ u form taken, (unitOf path nodes).run [] = .ok ((u, form), taken) ∧
      (isDeclarable x = true ∨ x = slotName → x ∈ u.declared) := by
  obtain ⟨⟨u, form⟩, taken, hrun⟩ := succeeds_unitOf path nodes []
  refine ⟨u, form, taken, hrun, fun htakes => ?_⟩
  rw [gives_declared path nodes _ _ _ hrun, mem_declaredNames]
  exact ⟨mem_freeVariables.mpr hx, htakes⟩

/-- Content that reads a variable becomes a closure with a body. -/
theorem slotForm_of_mem_reads (hx : x ∈ reads [] nodes) :
    slotForm nodes = .statements ∨ slotForm nodes = .buffered := by
  have htexts : nodes.all Node.isText = false := by
    rw [Bool.eq_false_iff]
    intro htexts
    rw [reads_eq_flatMap] at hx
    obtain ⟨node, hnode, hx⟩ := List.mem_flatMap.mp hx
    have htext := List.all_eq_true.mp htexts node hnode
    match node with
    | .text _ => cases hx
  have hfree : (freeVariables nodes []).isEmpty = false := by
    rw [List.isEmpty_eq_false_iff]
    exact List.ne_nil_of_mem (mem_freeVariables.mpr hx)
  rw [slotForm, htexts, hfree, Bool.and_false]
  split
  · cases ‹false = true›
  · split
    · exact .inl rfl
    · exact .inr rfl

/-- The value of a slot captures what the content reads, if a closure may capture it. -/
theorem mem_uses_of_mem_reads (path : String) (taken : Names) (hx : x ∈ reads [] content) :
    ∃ value left, (slot path content).run taken = .ok (value, left) ∧
      (x ∉ uncapturable → x ∈ value.uses) := by
  rw [← reads_trimSlot] at hx
  obtain ⟨value, left, hrun, -, huses, -⟩ := exists_run_slot path taken (slotForm_of_mem_reads hx)
  exact ⟨value, left, hrun, fun hcapturable => huses ▸ mem_captured.mpr ⟨hx, hcapturable⟩⟩

/-- **No variable that embedded host code shows is missed**, if no quote of a comment in the code
is closed behind the comment: wherever the code stands in a tree, in no loop that binds the
variable, the variable is free in the tree, the unit takes it from the data, and the value of every
slot around the code captures it. -/
theorem binds_of_shows (hbody : Within x nodes body) (hhost : .host code echo ∈ body)
    (hshows : Shows code.toList x.toList) (hquotes : CommentsKeepQuotes code.toList) :
    (∀ bound, x ∉ bound → x ∈ freeVariables nodes bound) ∧
      (∀ path, ∃ u form taken, (unitOf path nodes).run [] = .ok ((u, form), taken) ∧
        (isDeclarable x = true ∨ x = slotName → x ∈ u.declared)) ∧
      ∀ content, Within x content body → ∀ path taken, ∃ value left,
        (slot path content).run taken = .ok (value, left) ∧
          (x ∉ uncapturable → x ∈ value.uses) := by
  have hread : x ∈ reads [] body := by
    refine reads_subset [] hhost ?_
    rw [Node.reads, unbound_nil]
    exact Expression.mem_mentioned_of_shows hshows hquotes
  have hx := hbody.mem_reads hread
  exact ⟨fun bound hbound => mem_freeVariables.mpr (Template.mem_reads.mpr ⟨hx, hbound⟩),
    fun path => mem_declared_of_mem_reads path hx,
    fun content hcontent path taken => mem_uses_of_mem_reads path taken (hcontent.mem_reads hread)⟩

/-- Host code with a static property, a string with an escaped variable, and a comment whose quote
is closed nowhere. -/
def openQuoteCode : String := "echo A::$s . \"\\$c $x\"; // it's"

/-- The host code in the slot of a component. -/
def openQuoteTree : List Node := [.component "x-c" [] [.host openQuoteCode false] []]

/-- The variable in the string is bound. -/
theorem binds_of_shows_openQuote :
    Shows openQuoteCode.toList "x".toList ∧ CommentsKeepQuotes openQuoteCode.toList ∧
      "x" ∈ freeVariables openQuoteTree [] ∧
      (∃ u form taken, (unitOf defaultNamespace openQuoteTree).run [] = .ok ((u, form), taken) ∧
        "x" ∈ u.declared) ∧
      ∃ value left, (slot defaultNamespace [.host openQuoteCode false]).run [] =
        .ok (value, left) ∧ "x" ∈ value.uses := by
  have hshows : Shows openQuoteCode.toList "x".toList := by
    have hcode : InCode "echo A::$s . ".toList "\"\\$c $x\"; // it's".toList :=
      (InCode.start openQuoteCode.toList).append_plain "echo A::$s . ".toList
        (forall_mem_of_all (by decide))
    have hfront : Inside '"' "\\$c ".toList :=
      inside_of_closeQuote? (show closeQuote? '"' "\\$c \"".toList = some (_, []) from rfl)
    have hstring : Literal.IsTerminated ⟨'"', "\\$c $x".toList⟩ :=
      ⟨rfl,
        inside_of_closeQuote? (show closeQuote? '"' "\\$c $x\"".toList = some (_, []) from rfl)⟩
    exact @Shows.interpolated _ _ _ _ "\\$c ".toList [] _ rfl hcode hstring rfl rfl hfront rfl
      (stopsAt_nil _)
  have hquotes : CommentsKeepQuotes openQuoteCode.toList :=
    commentsKeepQuotes_of_forall (by decide +kernel)
  have hbody : Within "x" openQuoteTree [.host openQuoteCode false] :=
    .content List.mem_cons_self (.refl _)
  obtain ⟨hfree, hunit, hslot⟩ := binds_of_shows hbody List.mem_cons_self hshows hquotes
  obtain ⟨u, form, taken, hrun, hdeclared⟩ := hunit defaultNamespace
  obtain ⟨value, left, hvalue, huses⟩ := hslot _ (.refl _) defaultNamespace []
  exact ⟨hshows, hquotes, hfree [] List.not_mem_nil,
    ⟨u, form, taken, hrun, hdeclared (.inl (by decide))⟩, value, left, hvalue, huses (by decide)⟩

/-- Host code whose comments have quotes that are closed in one behind. -/
def apostropheCode : String := "// it's\necho $x; // it's"

/-- A template with this host code. -/
def apostropheTemplate : String := "<?php " ++ apostropheCode ++ "\n?>"

/-- The code shows its variable. -/
theorem shows_apostropheCode : Shows apostropheCode.toList "x".toList := by
  have hcomment : InCode "// it's".toList "\necho $x; // it's".toList :=
    @InCode.comment [] "// it's".toList _ (.start _)
      (.line (by decide) (by decide) (forall_mem_of_all (by decide)) fun c hc => by cases hc; rfl)
  have hecho : InCode "// it's\necho ".toList "$x; // it's".toList :=
    hcomment.append_plain "\necho ".toList (forall_mem_of_all (by decide))
  exact @Shows.code _ _ _ "; // it's".toList rfl hecho (by decide) (stopsAt_cons.mpr (by decide))
    (by decide)

/-- The node is the statements. -/
def isStatements (code : String) : Node → Bool
  | .host statements false => statements == code
  | _ => false

/-- A node that passes the check for host statements is such statements. -/
theorem eq_of_isStatements {node : Node} (h : isStatements code node = true) :
    node = .host code false := by
  unfold isStatements at h
  split at h
  · rw [beq_iff_eq.mp h]
  · cases h

/-- **An apostrophe in a comment can hide a variable**: the search takes what stands up to the next
one for a string. -/
theorem exists_shows_notMem_freeVariables :
    ∃ nodes, parse apostropheTemplate = .ok nodes ∧ .host apostropheCode false ∈ nodes ∧
      Shows apostropheCode.toList "x".toList ∧ "x" ∉ freeVariables nodes [] := by
  have hcheck : ((parse apostropheTemplate).toOption.any fun nodes =>
      nodes.any (isStatements apostropheCode) && !(reads [] nodes).contains "x") = true := by
    decide +kernel
  obtain ⟨nodes, hparse, hnodes⟩ := exists_parse_of_any hcheck
  simp only [Bool.and_eq_true, List.any_eq_true, List.contains_eq_mem, Bool.not_eq_true',
    decide_eq_false_iff_not] at hnodes
  obtain ⟨⟨node, hnode, hhost⟩, hx⟩ := hnodes
  exact ⟨nodes, hparse, eq_of_isStatements hhost ▸ hnode, shows_apostropheCode,
    mt mem_freeVariables.mp hx⟩

end ViewCompiler.Compile
