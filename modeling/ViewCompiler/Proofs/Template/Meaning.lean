import ViewCompiler.Proofs.Template.Deduplication
import ViewCompiler.Proofs.Template.Reading
import ViewCompiler.Template.Access

/-!
# What a template prints after deduplication

A parsed template is plain where its calls are settled, so deduplication keeps what it prints
(`run_dedup_withCalls`). Where a call on a loop's variable is itself the argument of a repeated
call it does not: the round in the loop makes the argument a new variable, and the round ahead of
the tree then reads this variable before the loop assigns it (`exists_run_dedup_ne`).
-/

namespace ViewCompiler.Template

open Expression

/-! ## Parsed templates -/

mutual

/-- A node as the source spells it has no local names, also with its accesses as calls. -/
theorem Derives.localNames_eq {node : Node} {source : List Char} (h : Derives node source) :
    node.withCalls.localNames = [] := by
  match h with
  | .text _ => rfl
  | .single h => cases h <;> rfl
  | .conditional _ hbody hbranches _ =>
    show localNames _ ++ branchesLocalNames _ = []
    rw [hbody.localNames_eq, hbranches.localNames_eq, List.nil_append]
  | .loop _ hbody _ => exact hbody.localNames_eq
  | .existence _ hbody _ => exact hbody.localNames_eq
  | .component .. => rfl

/-- The loops of a parsed template have no local variables. -/
theorem DerivesAll.localNames_eq {nodes : List Node} {source : List Char}
    (h : DerivesAll nodes source) : localNames (withCalls nodes) = [] := by
  match h with
  | .nil => rfl
  | .cons hnode h =>
    rw [withCalls, localNames, hnode.localNames_eq, h.localNames_eq, List.nil_append]

/-- The same of the branches of a conditional. -/
theorem DerivesBranches.localNames_eq {branches : List Branch} {source : List Char}
    (h : DerivesBranches branches source) :
    branchesLocalNames (branchesWithCalls branches) = [] := by
  match h with
  | .nil => rfl
  | .next _ hbody h =>
    rw [branchesWithCalls, branchesLocalNames, hbody.localNames_eq, h.localNames_eq,
      List.nil_append]
  | .alternative _ hbody =>
    rw [branchesWithCalls, branchesLocalNames, hbody.localNames_eq]
    rfl
end

/-! ## A host language that follows a mark -/

/-- The marking host tells whether one of the variables of a text is marked. -/
theorem Host.eval_marking (cs : List Char) (s : Store Host.marking.Value) :
    Host.marking.eval (String.ofList cs) s =
      (namesFrom 0 cs).any fun x => s (String.ofList x) := by
  show ((mentioned (String.ofList cs)).map fun x => (x, s x)).any (·.2) = _
  rw [mentioned_ofList, List.map_map, List.any_map]
  rfl

/-- The marking host is lawful. -/
theorem Host.lawful_marking : Host.marking.Lawful := by
  refine ⟨fun {expression before after a x s} hpieces halone hx hvalue => ?_⟩
  have hcut : IsCut (before ++ .phrase a :: after) := hpieces ▸ isCut_pieces _
  have hspelled := eq_spelled_of_pieces hpieces
  obtain ⟨left, right, hcall, hvariable⟩ := exists_names_exchange hcut halone
  rw [Host.eval_marking, hvariable x hx]
  have hexpression : Host.marking.eval expression s =
      (left ++ a.name :: right).any fun x => s (String.ofList x) := by
    rw [← hcall, ← hspelled, ← Host.eval_marking, String.ofList_toList]
  have hname : s (String.ofList x) = s (String.ofList a.name) := by
    rw [hvalue, Host.eval, mentioned_call hcut.readable]
    exact Bool.or_false _
  rw [hexpression, List.any_append, List.any_append, List.any_cons, List.any_cons, hname]

/-! ## Calls alone -/

/-- The pieces are one call, or no piece is a call. -/
def isPlain : List CallPiece → Bool
  | [.phrase _] => true
  | pieces => pieces.all (·.phrase?.isNone)

/-- Pieces that are plain are settled, whatever is repeated. -/
theorem settled_of_isPlain {repeats owned : DottedPath → Prop} {pieces : List CallPiece}
    (h : isPlain pieces = true) : Settled repeats owned pieces := by
  rintro before a after rfl -
  cases before with
  | nil =>
    cases after with
    | nil =>
      refine ⟨⟨fun c hc => absurd hc List.not_mem_nil, ?_, ?_, ?_, stopsAt_nil _⟩,
        fun _ => ⟨?_, ?_⟩⟩
      all_goals simp [callOpening_eq, functionName]
    | cons p after => simp [isPlain, Piece.phrase?] at h
  | cons p before =>
    cases p <;> cases before <;> simp [isPlain, Piece.phrase?] at h

/-! ## Deduplication of a template -/

/-- **Deduplication keeps what a template prints**, if every call that occurs more than once stands
by itself and a variable for a call on a loop's variable is part of no other call. -/
theorem run_dedup_withCalls {template : String} {nodes : List Node}
    (hparse : parse template = .ok nodes) (hhost : runsHost (withCalls nodes) = false)
    (hnames : ∀ x ∈ treeVariables (withCalls nodes), isInternal x = false)
    (hsettled : ∀ e ∈ expressions (withCalls nodes),
      Settled (fun a => 1 < (calls (withCalls nodes)).count a)
        (fun a => String.ofList a.name ∈ rebound (withCalls nodes)) (accessor.pieces e.toList))
    {host : Host} (hlaw : host.Lawful) (taken : Names) (s : Store host.Value) :
    (run host ((dedup (withCalls nodes)).run taken).1.1
        (host.bindAll ((dedup (withCalls nodes)).run taken).1.2 s)).1 =
      (run host (withCalls nodes) s).1 := by
  have hplain : Plain (fun a => 1 < (calls (withCalls nodes)).count a)
      (fun a => String.ofList a.name ∈ rebound (withCalls nodes)) (withCalls nodes) :=
    ⟨hnames, (derivesAll_of_parse hparse).localNames_eq, hhost, hsettled, fun _ => id, fun _ => id⟩
  exact hplain.run_dedup hlaw taken s

/-- A template with a repeated call on the variable of a loop. -/
def plainCallTemplate : String :=
  "@each($us as $u)\x7b\x7b $u.n \x7d\x7d\x7b\x7b $u.n \x7d\x7d@endeach"

/-- The call is read once in each iteration. -/
theorem run_dedup_withCalls_loop :
    ∃ nodes, parse plainCallTemplate = .ok nodes ∧
      (run Host.marking ((dedup (withCalls nodes)).run []).1.1
          (Host.marking.bindAll ((dedup (withCalls nodes)).run []).1.2 (· == "us"))).1 =
        (run Host.marking (withCalls nodes) (· == "us")).1 := by
  have hcheck : (match parse plainCallTemplate with
      | .ok nodes => !runsHost (withCalls nodes) &&
        (treeVariables (withCalls nodes)).all (!isInternal ·) &&
        (expressions (withCalls nodes)).all fun e => isPlain (accessor.pieces e.toList)
      | .error _ => false) = true := by decide +kernel
  cases hparse : parse plainCallTemplate with
  | error e =>
    rw [hparse] at hcheck
    cases hcheck
  | ok nodes =>
    rw [hparse] at hcheck
    simp only [Bool.and_eq_true, Bool.not_eq_eq_eq_not, Bool.not_true, List.all_eq_true] at hcheck
    obtain ⟨⟨hhost, hnames⟩, hcalls⟩ := hcheck
    exact ⟨nodes, rfl, run_dedup_withCalls hparse hhost hnames
      (fun e he => settled_of_isPlain (hcalls e he)) Host.lawful_marking [] _⟩

/-- A template with a call on a loop's variable as the argument of a repeated call. -/
def nestedCallTemplate : String :=
  "@each($us as $u)\x7b\x7b data_get($u.n, 'p') \x7d\x7d" ++
    "\x7b\x7b data_get($u.n, 'p') \x7d\x7d@endeach"

/-- **Deduplication does not always keep what a template prints.** -/
theorem exists_run_dedup_ne :
    ∃ nodes, parse nestedCallTemplate = .ok nodes ∧ runsHost (withCalls nodes) = false ∧
      (∀ x ∈ treeVariables (withCalls nodes), isInternal x = false) ∧ Host.marking.Lawful ∧
      ∃ s : Store Bool, (run Host.marking ((dedup (withCalls nodes)).run []).1.1
          (Host.marking.bindAll ((dedup (withCalls nodes)).run []).1.2 s)).1 ≠
        (run Host.marking (withCalls nodes) s).1 := by
  have hcheck : (match parse nestedCallTemplate with
      | .ok nodes => !runsHost (withCalls nodes) &&
        (treeVariables (withCalls nodes)).all (!isInternal ·) &&
        (run Host.marking ((dedup (withCalls nodes)).run []).1.1
          (Host.marking.bindAll ((dedup (withCalls nodes)).run []).1.2 (· == "us"))).1 !=
        (run Host.marking (withCalls nodes) (· == "us")).1
      | .error _ => false) = true := by decide +kernel
  cases hparse : parse nestedCallTemplate with
  | error e =>
    rw [hparse] at hcheck
    cases hcheck
  | ok nodes =>
    rw [hparse] at hcheck
    simp only [Bool.and_eq_true, Bool.not_eq_eq_eq_not, Bool.not_true, List.all_eq_true,
      bne_iff_ne] at hcheck
    obtain ⟨⟨hhost, hnames⟩, hne⟩ := hcheck
    exact ⟨nodes, rfl, hhost, hnames, Host.lawful_marking, _, hne⟩

end ViewCompiler.Template
