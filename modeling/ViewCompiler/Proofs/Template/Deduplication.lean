import ViewCompiler.Proofs.Template.Rounds

/-!
# Deduplication keeps what a tree prints

The pass over the loops is followed by recursion on the tree: each loop adds one round of its own
to those of its body, unless the body runs host statements (`sound_dedupLoops`). What is asked of
the expressions and which calls may be moved are parameters, as long as rounds keep it
(`KeptByRounds`). One more round ahead of the whole tree gives `run_dedup`, where the calls have to
be settled.
-/

namespace ViewCompiler.Template

open Expression

section Deduplication

variable {host : Host} {good : List CallPiece → Prop} {moved counted : DottedPath → Prop}

/-! ## The loops of a tree -/

/-- What is needed of a tree whose loops are deduplicated: its variables are those of a program,
its loops have no local variables yet, its host statements know no new names, and its calls on the
variables of loops may be moved where they are repeated. -/
structure Ready (host : Host) (good : List CallPiece → Prop) (moved : DottedPath → Prop)
    (nodes : List Node) : Prop where
  notInternal : ∀ x ∈ treeVariables nodes, isInternal x = false
  localNames_eq : localNames nodes = []
  ordinary : runsHost nodes = true → host.Ordinary
  good : ∀ e ∈ expressions nodes, good (accessor.pieces e.toList)
  moved_of_count : ∀ a, 1 < (calls nodes).count a → String.ofList a.name ∈ rebound nodes → moved a

/-- The loops of a tree are deduplicated soundly, with new names after those that were taken. -/
def Sound (host : Host) (good : List CallPiece → Prop) (counted : DottedPath → Prop)
    (taken : Names)
    (nodes : List Node) (result : List Node × Names) : Prop :=
  ∃ new, result.2 = taken ++ new ∧ (∀ x ∈ new, isInternal x = true ∧ x ∉ taken) ∧
    Deduplicated host good counted new nodes result.1

/-- New names are not among the variables of a tree that is ready. -/
theorem Ready.notMem {nodes : List Node} (h : Ready host good moved nodes) {new : List String}
    (hnew : ∀ x ∈ new, isInternal x = true) : ∀ x ∈ treeVariables nodes, x ∉ new := by
  intro x hx hmem
  have := hnew x hmem
  rw [h.notInternal x hx] at this
  exact absurd this (by decide)

/-- A part of a tree that is ready is ready. -/
theorem Ready.part {nodes nodes' : List Node} (h : Ready host good moved nodes)
    (hfixed : (fixedNames nodes').Sublist (fixedNames nodes))
    (hlocal : (localNames nodes').Sublist (localNames nodes))
    (hrebound : (rebound nodes').Sublist (rebound nodes))
    (hexpressions : (expressions nodes').Sublist (expressions nodes))
    (hhost : runsHost nodes' = true → runsHost nodes = true) : Ready host good moved nodes' := by
  refine ⟨fun x hx => h.notInternal x ?_, ?_, fun hruns => h.ordinary (hhost hruns),
    fun e he => h.good e (hexpressions.subset he), fun a ha hname => h.moved_of_count a ?_ ?_⟩
  · exact (hfixed.append (hexpressions.flatMap mentioned)).subset hx
  · rw [h.localNames_eq] at hlocal
    exact List.sublist_nil.mp hlocal
  · exact Nat.lt_of_lt_of_le ha ((hexpressions.flatMap accessor.all).count_le a)
  · exact hrebound.subset hname

/-- A list ready for deduplication is ready in its first node and in the rest. -/
theorem Ready.cons {node : Node} {nodes : List Node} (h : Ready host good moved (node :: nodes)) :
    Ready host good moved [node] ∧ Ready host good moved nodes := by
  constructor
  · apply h.part <;> simp +contextual [fixedNames, localNames, rebound, expressions, runsHost]
  · apply h.part <;> simp +contextual [fixedNames, localNames, rebound, expressions, runsHost]

/-- An existence check ready for deduplication has a ready body. -/
theorem Ready.existence {expression : String} {body : List Node}
    (h : Ready host good moved [.existence expression body]) : Ready host good moved body := by
  apply h.part <;> simp [fixedNames, localNames, rebound, expressions, runsHost, Node.fixedNames,
    Node.localNames, Node.rebound, Node.expressions, Node.runsHost]

/-- A conditional ready for deduplication is ready in its first body and in the later branches. -/
theorem Ready.branch {condition : Option String} {body : List Node} {branches : List Branch}
    (h : Ready host good moved [.conditional (⟨condition, body⟩ :: branches)]) :
    Ready host good moved body ∧ Ready host good moved [.conditional branches] := by
  constructor
  · apply h.part <;> simp +contextual [fixedNames, localNames, rebound, expressions, runsHost,
      Node.fixedNames, Node.localNames, Node.rebound, Node.expressions, Node.runsHost,
      branchesFixedNames, branchesLocalNames, branchesRebind, branchesExpressions, branchesRunHost]
  · apply h.part <;> simp +contextual [fixedNames, localNames, rebound, expressions, runsHost,
      Node.fixedNames, Node.localNames, Node.rebound, Node.expressions, Node.runsHost,
      branchesFixedNames, branchesLocalNames, branchesRebind, branchesExpressions, branchesRunHost]

/-- A loop ready for deduplication has no bindings yet and a ready body. -/
theorem Ready.loop {head : LoopHead} {bindings : List Binding} {body : List Node}
    (h : Ready host good moved [.loop head bindings body]) :
    bindings = [] ∧ Ready host good moved body := by
  constructor
  · have := h.localNames_eq
    simp only [localNames, Node.localNames, List.append_nil, List.append_eq_nil_iff,
      List.map_eq_nil_iff] at this
    exact this.1
  · apply h.part <;> simp [fixedNames, localNames, rebound, expressions, runsHost,
      Node.fixedNames, Node.localNames, Node.rebound, Node.expressions, Node.runsHost]

/-! ## The steps of the pass -/

/-- Deduplicating a list goes through its first node and takes the names left to the rest. -/
theorem run_dedupLoops_cons (node : Node) (nodes : List Node) (taken : Names) :
    (dedupLoops (node :: nodes)).run taken =
      ((node.dedupLoops.run taken).1 :: ((dedupLoops nodes).run (node.dedupLoops.run taken).2).1,
        ((dedupLoops nodes).run (node.dedupLoops.run taken).2).2) := by
  rw [dedupLoops]
  rfl

/-- Deduplicating branches goes through the first body and takes the names left to the rest. -/
theorem run_dedupBranches_cons (condition : Option String) (body : List Node)
    (branches : List Branch) (taken : Names) :
    (dedupBranches (⟨condition, body⟩ :: branches)).run taken =
      (⟨condition, ((dedupLoops body).run taken).1⟩ ::
          ((dedupBranches branches).run ((dedupLoops body).run taken).2).1,
        ((dedupBranches branches).run ((dedupLoops body).run taken).2).2) := by
  rw [dedupBranches]
  rfl

/-- A loop is deduplicated from the inside out; where its body runs host code it hoists nothing. -/
theorem run_dedupLoops_loop (head : LoopHead) (bindings : List Binding) (body : List Node)
    (taken : Names) :
    (Node.dedupLoops (.loop head bindings body)).run taken =
      if runsHost ((dedupLoops body).run taken).1 then
        (.loop head bindings ((dedupLoops body).run taken).1, ((dedupLoops body).run taken).2)
      else
        let round := hoistRepeated (ownCalls head) ((dedupLoops body).run taken).1
          ((dedupLoops body).run taken).2
        (.loop head (bindings ++ round.2.1) round.1, round.2.2) := by
  rw [Node.dedupLoops]
  show StateT.run (if runsHost ((dedupLoops body).run taken).1 then _ else _ : StateM Names Node)
    ((dedupLoops body).run taken).2 = _
  split <;> rfl

/-! ## The pass over the loops -/

/-- Two parts of a tree, one deduplicated after the other, with all new names. -/
theorem Sound.both {taken : Names} {first second first' second' : List Node} {left left' : Names}
    (hfirst : Ready host good moved first) (hsecond : Ready host good moved second)
    (h : Sound host good counted taken first (first', left))
    (h' : Sound host good counted left second (second', left')) :
    ∃ new, left' = taken ++ new ∧ (∀ x ∈ new, isInternal x = true ∧ x ∉ taken) ∧
      Deduplicated host good counted new first first' ∧
      Deduplicated host good counted new second second' := by
  obtain ⟨new, rfl, hnew, hded⟩ := h
  obtain ⟨new', rfl, hnew', hded'⟩ := h'
  refine ⟨new ++ new', List.append_assoc _ _ _, ?_, ?_, ?_⟩
  · intro x hx
    rcases List.mem_append.mp hx with hx | hx
    · exact hnew x hx
    · exact ⟨(hnew' x hx).1, fun hmem => (hnew' x hx).2 (List.mem_append_left _ hmem)⟩
  · -- The first part does not know the names that the second one adds.
    refine hded.trans (Deduplicated.refl ?_ (fun x hx => (hnew' x hx).1)
      (fun hruns => hfirst.ordinary (hded.runsHost_eq.symm.trans hruns)) hded.good)
    intro x hx hmem
    have hcases : x ∈ treeVariables first ∨ x ∈ new := by
      rcases List.mem_append.mp hx with hx | hx
      · exact (hded.fixedNames_sub x hx).imp_left (List.mem_append_left _)
      · exact (hded.mentions_sub x hx).imp_left (List.mem_append_right _)
    rcases hcases with hx | hx
    · exact hfirst.notMem (fun y hy => (hnew' y hy).1) x hx hmem
    · exact (hnew' x hmem).2 (List.mem_append_right _ hx)
  · exact (Deduplicated.refl (hsecond.notMem fun x hx => (hnew x hx).1) (fun x hx => (hnew x hx).1)
      hsecond.ordinary hsecond.good).trans hded'

/-- A tree in which nothing is bound. -/
theorem Sound.same {taken : Names} {nodes : List Node} (h : Ready host good moved nodes) :
    Sound host good counted taken nodes (nodes, taken) :=
  ⟨[], (List.append_nil _).symm, by simp,
    Deduplicated.refl (fun _ _ => List.not_mem_nil) (by simp) h.ordinary h.good⟩

/-- The variables that a construct itself mentions are not new. -/
theorem Ready.expression_notMem {nodes : List Node} (h : Ready host good moved nodes) {e : String}
    (he : e ∈ expressions nodes) {new : List String} (hnew : ∀ x ∈ new, isInternal x = true) :
    ∀ x ∈ mentioned e, x ∉ new := fun x hx =>
  h.notMem hnew x (List.mem_append_right _ (List.mem_flatMap.mpr ⟨e, he, hx⟩))

/-- **A round on a deduplicated tree is sound** if its calls are on variables of the program and
stand by themselves: the variables of the tree are old ones or taken. -/
theorem Deduplicated.soundRound {wanted : Wanted} {taken : Names} {new : List String}
    {nodes nodes' : List Node} (h : Deduplicated host good counted new nodes nodes')
    (hnames : ∀ x ∈ treeVariables nodes, isInternal x = false) (hlocal : localNames nodes = [])
    (hhost : runsHost nodes = false) (hnew : ∀ x ∈ new, isInternal x = true)
    (hwanted : ∀ name shadowed, wanted name shadowed = true → name ∉ shadowed)
    (hcalls : ∀ a ∈ repeated (wantedCalls wanted nodes'),
      isInternal (String.ofList a.name) = false)
    (halone : ∀ site ∈ sites [] nodes',
      StandAlone wanted (roundHoists wanted nodes' (taken ++ new)) site) :
    SoundRound wanted (roundHoists wanted nodes' (taken ++ new)) nodes' := by
  have hold : ∀ x ∈ treeVariables nodes, isInternal x ≠ true := fun x hx => by
    rw [hnames x hx]
    decide
  refine Template.soundRound ?_ ?_ (h.runsHost_eq.trans hhost) hwanted hcalls halone
  · intro x hx hinternal
    refine List.mem_append_right _ ?_
    rcases List.mem_append.mp hx with hx | hx
    · refine (h.fixedNames_sub x hx).resolve_left fun hx => ?_
      exact hold x (List.mem_append_left _ hx) hinternal
    · refine (h.mentions_sub x hx).resolve_left fun hx => ?_
      exact hold x (List.mem_append_right _ hx) hinternal
  · intro x hx
    refine hnew x ((h.localNames_sub x hx).resolve_left ?_)
    rw [hlocal]
    exact List.not_mem_nil

/-- A call that is repeated in the new tree is repeated in the old one, if it is counted. -/
theorem Deduplicated.count_of_repeated {new : List String} {nodes nodes' : List Node}
    (h : Deduplicated host good counted new nodes nodes') {wanted : Wanted} {a : DottedPath}
    (ha : a ∈ repeated (wantedCalls wanted nodes')) (hcounted : counted a) :
    1 < (calls nodes).count a :=
  Nat.lt_of_lt_of_le (of_mem_repeated ha).1 (h.count_le a hcounted)

section Loop

variable {new : List String} {head : LoopHead} {body body' : List Node}

/-- The variables of a loop's head are variables of the loop. -/
theorem mem_treeVariables_loop {x : String} (hx : x ∈ head.names) :
    x ∈ treeVariables [.loop head [] body] := by
  simp only [treeVariables, fixedNames, Node.fixedNames, List.mem_append]
  tauto

/-- The collection is one of a loop's expressions. -/
theorem collection_mem_expressions : head.collection ∈ expressions [.loop head [] body] := by
  simp [expressions, Node.expressions]

/-- A loop whose body is deduplicated, without a round of its own. -/
theorem Ready.deduplicated_loop (h : Ready host good moved [.loop head [] body])
    (hnew : ∀ x ∈ new, isInternal x = true)
    (hded : Deduplicated host good counted new body body') :
    Deduplicated host good counted new [.loop head [] body] [.loop head [] body'] :=
  hded.loop head (fun x hx => h.notMem hnew x (mem_treeVariables_loop hx))
    (h.expression_notMem collection_mem_expressions hnew) (h.good _ collection_mem_expressions)

/-- A loop hoists the calls on its own variables where nothing inside shadows them. -/
theorem ownCalls_iff {name : String} {shadowed : List String} :
    ownCalls head name shadowed = true ↔ name ∈ head.names ∧ name ∉ shadowed := by
  simp [ownCalls]

/-- The calls that a loop's own round replaces are on variables of the program, and they may be
moved: each of them was repeated in the old body. -/
theorem Ready.own_of_repeated (h : Ready host good moved [.loop head [] body])
    (hkept : KeptByRounds good moved counted)
    (hded : Deduplicated host good counted new body body') {a : DottedPath}
    (ha : a ∈ repeated (wantedCalls (ownCalls head) body')) :
    isInternal (String.ofList a.name) = false ∧ moved a := by
  obtain ⟨-, shadowed, hwanted⟩ := of_mem_repeated ha
  have hname : String.ofList a.name ∈ head.names := (ownCalls_iff.mp hwanted).1
  have hprogram := h.notInternal _ (mem_treeVariables_loop hname)
  refine ⟨hprogram, h.moved_of_count a ?_ ?_⟩
  · have hcount := hded.count_of_repeated ha (hkept.counted_of_program a hprogram)
    simp only [calls, expressions, Node.expressions, List.map_nil, List.append_nil,
      List.cons_append, List.nil_append, List.flatMap_cons, List.count_append] at hcount ⊢
    omega
  · simp only [rebound, Node.rebound, List.append_nil]
    exact List.mem_append_left _ hname

/-- The round of a loop is sound on its deduplicated body. -/
theorem Ready.soundRound_loop (h : Ready host good moved [.loop head [] body])
    (hkept : KeptByRounds good moved counted) (hhost : runsHost body = false) (taken : Names)
    (hnew : ∀ x ∈ new, isInternal x = true)
    (hded : Deduplicated host good counted new body body') :
    SoundRound (ownCalls head) (roundHoists (ownCalls head) body' (taken ++ new)) body' :=
  hded.soundRound h.loop.2.notInternal h.loop.2.localNames_eq hhost hnew
    (fun _ _ hwanted => (ownCalls_iff.mp hwanted).2)
    (fun _ ha => (h.own_of_repeated hkept hded ha).1)
    fun _ => standAlone_roundHoists (fun _ ha => (h.own_of_repeated hkept hded ha).2)
      fun e he _ _ _ heq => hkept.standsAlone (heq ▸ hded.good e he)

/-- **A loop is deduplicated soundly** if its body was and runs no host statements: its own round
comes on top. -/
theorem Sound.loop {taken left : Names} (hkept : KeptByRounds good moved counted)
    (hlaw : host.Lawful) (hready : Ready host good moved [.loop head [] body])
    (hhost : runsHost body = false) (h : Sound host good counted taken body (body', left)) :
    let round := hoistRepeated (ownCalls head) body' left
    Sound host good counted taken [.loop head [] body]
      ([.loop head round.2.1 round.1], round.2.2) := by
  obtain ⟨new, rfl, hnew, hded⟩ := h
  have hnewInternal : ∀ x ∈ new, isInternal x = true := fun x hx => (hnew x hx).1
  have hmoved : ∀ a ∈ repeated (wantedCalls (ownCalls head) body'), moved a :=
    fun a ha => (hready.own_of_repeated hkept hded ha).2
  have hround := hready.soundRound_loop hkept hhost taken hnewInternal hded
  have hnamed := named_nameCalls (taken ++ new) (repeated (wantedCalls (ownCalls head) body'))
  have hinternal : ∀ x ∈ (roundHoists (ownCalls head) body' (taken ++ new)).map Hoist.name,
      isInternal x = true := fun x hx => hround.named.isInternal hx
  have hold := hready.deduplicated_loop hnewInternal hded
  have hgood : ∀ e ∈ expressions (mapSites (rewritten (ownCalls head)
      (roundHoists (ownCalls head) body' (taken ++ new))) [] body'),
      good (accessor.pieces e.toList) := by
    intro e he
    rw [expressions_mapSites] at he
    obtain ⟨site, hsite, rfl⟩ := List.mem_map.mp he
    exact (hkept.roundHoists hmoved hded.good hsite).1
  have hcalls : ∀ k ∈ roundHoists (ownCalls head) body' (taken ++ new),
      String.ofList k.call.name ∈ mentions body' := by
    intro k hk
    have hcount := (of_mem_repeated (call_mem_repeated hk)).1
    exact mem_mentions_of_mem_calls (List.count_pos_iff.mp (Nat.lt_of_succ_lt hcount))
  -- Neither the names of the body nor those of the round are known to the loop's head.
  have hnewRound := Deduplicated.round hkept hround
    (fun x hx => hready.notMem hinternal x (mem_treeVariables_loop hx))
    (hready.expression_notMem collection_mem_expressions hinternal) hcalls hold.good hgood
    (fun a ha => count_calls_round fun site hsite =>
      (hkept.roundHoists hmoved hded.good hsite).2 a ha) hlaw
  intro round
  simp only [round, hoistRepeated_eq]
  refine ⟨new ++ (roundHoists (ownCalls head) body' (taken ++ new)).map Hoist.name,
    List.append_assoc _ _ _, fun x hx => ?_, hold.trans hnewRound⟩
  rcases List.mem_append.mp hx with hx | hx
  · exact hnew x hx
  · refine ⟨hinternal x hx, fun hmem => ?_⟩
    obtain ⟨k, hk, rfl⟩ := List.mem_map.mp hx
    exact hnamed.notMem k hk (List.mem_append_left _ hmem)

/-- A loop whose body runs host statements gets no round of its own. -/
theorem Sound.loop_host {taken left : Names} (hready : Ready host good moved [.loop head [] body])
    (h : Sound host good counted taken body (body', left)) :
    Sound host good counted taken [.loop head [] body] ([.loop head [] body'], left) := by
  obtain ⟨new, rfl, hnew, hded⟩ := h
  exact ⟨new, rfl, hnew, hready.deduplicated_loop (fun x hx => (hnew x hx).1) hded⟩

end Loop

mutual

/-- Deduplicating the loops of a ready node is sound for a lawful host. -/
theorem Node.sound_dedupLoops (hkept : KeptByRounds good moved counted) (hlaw : host.Lawful)
    (node : Node) (h : Ready host good moved [node]) (taken : Names) :
    Sound host good counted taken [node]
      ([(node.dedupLoops.run taken).1], (node.dedupLoops.run taken).2) := by
  match node with
  | .text _ | .comment _ | .echo .. | .host .. | .flag .. | .component .. =>
    rw [Node.dedupLoops]
    exact Sound.same h
    all_goals simp
  | .conditional branches =>
    rw [Node.dedupLoops]
    exact sound_dedupBranches hkept hlaw branches h taken
  | .existence expression body =>
    obtain ⟨new, hleft, hnew, hded⟩ := sound_dedupLoops hkept hlaw body h.existence taken
    have hmem : expression ∈ expressions [.existence expression body] := List.mem_cons_self
    rw [Node.dedupLoops]
    exact ⟨new, hleft, hnew, hded.existence expression
      (h.expression_notMem hmem fun x hx => (hnew x hx).1) (h.good _ hmem)⟩
  | .loop head bindings body =>
    obtain ⟨rfl, hbody⟩ := h.loop
    have hsound := sound_dedupLoops hkept hlaw body hbody taken
    obtain ⟨new, -, -, hded⟩ := id hsound
    rw [run_dedupLoops_loop, hded.runsHost_eq]
    cases hhost : runsHost body with
    | true => exact Sound.loop_host h hsound
    | false => exact Sound.loop hkept hlaw h hhost hsound

/-- **The pass over the loops is sound.** -/
theorem sound_dedupLoops (hkept : KeptByRounds good moved counted) (hlaw : host.Lawful)
    (nodes : List Node) (h : Ready host good moved nodes) (taken : Names) :
    Sound host good counted taken nodes ((dedupLoops nodes).run taken) := by
  match nodes with
  | [] => exact Sound.same h
  | node :: nodes =>
    obtain ⟨new, hleft, hnew, hfirst, hrest⟩ := Sound.both h.cons.1 h.cons.2
      (Node.sound_dedupLoops hkept hlaw node h.cons.1 taken)
      (sound_dedupLoops hkept hlaw nodes h.cons.2 _)
    rw [run_dedupLoops_cons]
    exact ⟨new, hleft, hnew, hfirst.cons hrest⟩

/-- The same of the branches of a conditional. -/
theorem sound_dedupBranches (hkept : KeptByRounds good moved counted) (hlaw : host.Lawful)
    (branches : List Branch) (h : Ready host good moved [.conditional branches]) (taken : Names) :
    Sound host good counted taken [.conditional branches]
      ([.conditional ((dedupBranches branches).run taken).1],
        ((dedupBranches branches).run taken).2) := by
  match branches with
  | [] => exact Sound.same h
  | ⟨condition, body⟩ :: branches =>
    obtain ⟨new, hleft, hnew, hbody, hrest⟩ := Sound.both h.branch.1 h.branch.2
      (sound_dedupLoops hkept hlaw body h.branch.1 taken)
      (sound_dedupBranches hkept hlaw branches h.branch.2 _)
    have hmem :
      ∀ e ∈ condition, e ∈ expressions [.conditional (⟨condition, body⟩ :: branches)] := by
      intro e he
      simp [expressions, Node.expressions, branchesExpressions, Option.mem_def.mp he]
    rw [run_dedupBranches_cons]
    exact ⟨new, hleft, hnew, Deduplicated.branch condition
      (fun e he => h.expression_notMem (hmem e he) fun x hx => (hnew x hx).1)
      (fun e he => h.good e (hmem e he)) hbody hrest⟩
end

/-- A tree prints the same after the pass over its loops. -/
theorem Ready.run_dedupLoops {nodes : List Node} (h : Ready host good moved nodes)
    (hkept : KeptByRounds good moved counted) (hlaw : host.Lawful) (taken : Names)
    (s : Store host.Value) :
    (run host ((dedupLoops nodes).run taken).1 s).1 = (run host nodes s).1 := by
  obtain ⟨new, -, -, hded⟩ := sound_dedupLoops hkept hlaw nodes h taken
  exact (hded.relates s s ⟨fun _ _ => rfl, fun k hk => absurd hk List.not_mem_nil⟩).1.symm

/-! ## The round ahead of the tree -/

/-- The pass at top level leaves a tree that runs host code, and makes one round over any other. -/
theorem run_dedupTop_eq (nodes : List Node) (taken : Names) :
    ((dedupTop nodes).run taken).1 =
      if runsHost nodes then (nodes, [])
      else
        let round := hoistRepeated freeCalls nodes taken
        (round.1, round.2.1) := by
  rw [dedupTop]
  show (StateT.run (if runsHost nodes then _ else _ :
    StateM Names (List Node × List Binding)) taken).1 = _
  split <;> rfl

/-- Deduplication is the pass over the loops, then the pass at top level. -/
theorem run_dedup_eq (nodes : List Node) (taken : Names) :
    ((dedup nodes).run taken).1 =
      if runsHost ((dedupLoops nodes).run taken).1 then (((dedupLoops nodes).run taken).1, [])
      else
        let round := hoistRepeated freeCalls ((dedupLoops nodes).run taken).1
          ((dedupLoops nodes).run taken).2
        (round.1, round.2.1) := run_dedupTop_eq _ _

/-- The names taken after deduplication are those of the loops and of the round at top level. -/
theorem left_dedup (nodes : List Node) (taken : Names) :
    ((dedup nodes).run taken).2 =
      if runsHost ((dedupLoops nodes).run taken).1 then ((dedupLoops nodes).run taken).2
      else (hoistRepeated freeCalls ((dedupLoops nodes).run taken).1
        ((dedupLoops nodes).run taken).2).2.2 := by
  rw [dedup]
  show (StateT.run (if runsHost ((dedupLoops nodes).run taken).1 then _ else _ :
    StateM Names (List Node × List Binding)) ((dedupLoops nodes).run taken).2).2 = _
  split <;> rfl

variable {repeats owned : DottedPath → Prop}

/-- What is needed of a tree for both passes: its variables are those of a program, its loops have
no local variables yet, it runs no host statements, and its calls are settled. -/
structure Plain (repeats owned : DottedPath → Prop) (nodes : List Node) : Prop where
  notInternal : ∀ x ∈ treeVariables nodes, isInternal x = false
  localNames_eq : localNames nodes = []
  runsHost_eq : runsHost nodes = false
  settled : ∀ e ∈ expressions nodes, Settled repeats owned (accessor.pieces e.toList)
  repeats_of_count : ∀ a, 1 < (calls nodes).count a → repeats a
  owned_of_rebound : ∀ a, String.ofList a.name ∈ rebound nodes → owned a

/-- A plain tree is ready for deduplication. -/
theorem Plain.ready {nodes : List Node} (h : Plain repeats owned nodes) :
    Ready host (Settled repeats owned) (fun a => repeats a ∧ owned a) nodes :=
  ⟨h.notInternal, h.localNames_eq,
    fun hruns => absurd (h.runsHost_eq.symm.trans hruns) Bool.false_ne_true, h.settled,
    fun a hcount hname => ⟨h.repeats_of_count a hcount, h.owned_of_rebound a hname⟩⟩

/-- A plain tree prints the same after deduplication. -/
theorem Plain.run_dedup {nodes : List Node} (h : Plain repeats owned nodes) (hlaw : host.Lawful)
    (taken : Names) (s : Store host.Value) :
    (run host ((dedup nodes).run taken).1.1
      (host.bindAll ((dedup nodes).run taken).1.2 s)).1 = (run host nodes s).1 := by
  obtain ⟨new, hleft, hnew, hded⟩ :=
    sound_dedupLoops (keptByRounds_settled repeats owned) hlaw nodes h.ready taken
  have hhost : runsHost ((dedupLoops nodes).run taken).1 = false :=
    hded.runsHost_eq.trans h.runsHost_eq
  rw [run_dedup_eq, if_neg (by rw [hhost]; decide), hleft, hoistRepeated_eq]
  -- The calls that are repeated now were repeated in the old tree, so they are on old variables.
  have hcount : ∀ a ∈ repeated (wantedCalls freeCalls ((dedupLoops nodes).run taken).1),
      1 < (calls nodes).count a := fun a ha => hded.count_of_repeated ha trivial
  have hround : SoundRound freeCalls
      (roundHoists freeCalls ((dedupLoops nodes).run taken).1 (taken ++ new))
      ((dedupLoops nodes).run taken).1 := by
    refine hded.soundRound h.notInternal h.localNames_eq h.runsHost_eq (fun x hx => (hnew x hx).1)
      (fun name shadowed hw => by simpa [freeCalls] using hw) (fun a ha => ?_) fun site =>
        standAlone_roundHoists (fun a ha => h.repeats_of_count a (hcount a ha))
          fun e he => (hded.good e he).standsAlone
    have hmem : a ∈ calls nodes := List.count_pos_iff.mp (Nat.lt_of_succ_lt (hcount a ha))
    exact h.notInternal _ (List.mem_append_right _ (mem_mentions_of_mem_calls hmem))
  have hsame : ∀ apart, Shared host apart [] [] s s := fun _ =>
    ⟨fun _ _ => rfl, fun k hk => absurd hk List.not_mem_nil⟩
  obtain ⟨hout, -⟩ := hded.relates s s (hsame _)
  obtain ⟨hout', -⟩ := hround.run_eq hlaw (hsame _)
  exact (hout.trans hout').symm

end Deduplication

end ViewCompiler.Template
