import ViewCompiler.Proofs.Template.DedupReads
import ViewCompiler.Proofs.Template.Meaning
import ViewCompiler.Proofs.Template.Standing

/-!
# The passes one by one

What a tree prints after only one of the two passes of deduplication. The pass ahead of the tree
(`dedupTop`) replaces calls on names that no loop shadows, so each of them has the same value
wherever it is replaced, and its variable is free in the tree (`run_bindAll_dedupTop`). The pass
over the loops (`dedupLoops`) replaces calls on a loop's own variables where no inner loop may have
assigned them; a loop that runs host statements is left alone, and these know no new variable, so
they may stand anywhere (`run_dedupLoops_of_standing`).

A call is found by its spelling, whatever stands in front of it: the end of the name of another
function counts as the accessor function, and its call is torn apart (`exists_run_dedupTop_ne`,
`exists_run_dedupLoops_ne`). So both theorems ask that the calls that are replaced stand by
themselves.
-/

namespace ViewCompiler.Template

open Expression

/-! ## The pass ahead of the tree -/

/-- Wherever a call is replaced by a variable that is bound ahead of the tree, it stands by
itself. -/
def HoistedAlone (nodes : List Node) (hoisted : List Binding) : Prop :=
  ∀ site ∈ sites [] nodes, ∀ before a after,
    accessor.pieces site.expression.toList = before ++ .phrase a :: after →
    String.ofList a.name ∉ site.shadowed → (∃ b ∈ hoisted, b.value = String.ofList a.call) →
    StandsAlone before (spelled after)

section TopLevel

variable {nodes : List Node} {taken : Names}

/-- Where hoisted calls stand by themselves, the calls that the round replaces do. -/
theorem HoistedAlone.standAlone
    (h : HoistedAlone nodes ((roundHoists freeCalls nodes taken).map Hoist.binding)) :
    ∀ site ∈ sites [] nodes, StandAlone freeCalls (roundHoists freeCalls nodes taken) site := by
  rintro site hsite before a after heq ⟨x, hx⟩
  obtain ⟨hwanted, k, hk, rfl, -⟩ := exists_of_heldBy hx
  exact h site hsite before k.call after heq (by simpa [freeCalls] using hwanted)
    ⟨k.binding, List.mem_map_of_mem hk, rfl⟩

/-- The round ahead of a tree whose variables are not internal is sound. -/
theorem soundRound_freeCalls (hlocal : localNames nodes = [])
    (hnames : ∀ x ∈ treeVariables nodes, isInternal x = false) (hhost : runsHost nodes = false)
    (halone : HoistedAlone nodes ((roundHoists freeCalls nodes taken).map Hoist.binding)) :
    SoundRound freeCalls (roundHoists freeCalls nodes taken) nodes := by
  refine soundRound (fun x hx hinternal => ?_) ?_ hhost
    (fun name shadowed hwanted => by simpa [freeCalls] using hwanted) (fun a ha => ?_)
    halone.standAlone
  · rw [hnames x hx] at hinternal
    cases hinternal
  · rw [hlocal]
    exact fun x hx => absurd hx List.not_mem_nil
  · have hmem : a ∈ calls nodes :=
      List.count_pos_iff.mp (Nat.lt_of_succ_lt (of_mem_repeated ha).1)
    exact hnames _ (List.mem_append_right _ (mem_mentions_of_mem_calls hmem))

/-- What is bound ahead of a tree reads one variable, and this is free in the tree. -/
theorem exists_mentioned_of_mem_dedupTop (hlocal : localNames nodes = []) {b : Binding}
    (hb : b ∈ ((dedupTop nodes).run taken).1.2) :
    ∃ x ∈ freeVariables nodes [], mentioned b.value = [x] := by
  rw [run_dedupTop_eq] at hb
  split at hb
  · cases hb
  · rw [hoistRepeated_eq] at hb
    obtain ⟨k, hk, rfl⟩ := List.mem_map.mp hb
    obtain ⟨hmem, -⟩ := List.mem_filter.mp (call_mem_repeated hk)
    refine ⟨_, mem_freeVariables.mpr ?_, mentioned_call (readable_of_mem_roundHoists hk)⟩
    exact mem_reads_of_mem_freeCalls (List.mem_eraseDups.mp hmem)
      (by rw [hlocal]; exact List.not_mem_nil)

/-- **A tree without local variables prints the same after the pass ahead of it**, if the calls
that the pass replaces stand by themselves; and what is bound ahead of it reads free variables of
the tree. -/
theorem run_bindAll_dedupTop (hlocal : localNames nodes = [])
    (hnames : ∀ x ∈ treeVariables nodes, isInternal x = false)
    (halone : HoistedAlone nodes ((dedupTop nodes).run taken).1.2)
    {host : Host} (hlaw : host.Lawful) (s : Store host.Value) :
    (run host ((dedupTop nodes).run taken).1.1
        (host.bindAll ((dedupTop nodes).run taken).1.2 s)).1 = (run host nodes s).1 ∧
      ∀ b ∈ ((dedupTop nodes).run taken).1.2,
        ∃ x ∈ freeVariables nodes [], mentioned b.value = [x] := by
  refine ⟨?_, fun b => exists_mentioned_of_mem_dedupTop hlocal⟩
  rw [run_dedupTop_eq] at halone ⊢
  cases hhost : runsHost nodes with
  | true => rfl
  | false =>
    simp only [hhost, Bool.false_eq_true, if_false, hoistRepeated_eq] at halone ⊢
    have hround := soundRound_freeCalls hlocal hnames hhost halone
    exact (hround.run_eq hlaw ⟨fun _ _ => rfl, fun k hk => absurd hk List.not_mem_nil⟩).1.symm

end TopLevel

/-- A tree with a repeated call, and a loop that assigns the variable of the call. -/
def reboundTree : List Node :=
  [.echo "data_get($u, 'n')" true, .echo "data_get($u, 'n')" true,
    .loop ⟨"$us", "u", none⟩ [] [.echo "data_get($u, 'n')" true]]

/-- The call is read once for the two places in front of the loop. -/
theorem run_bindAll_dedupTop_rebound :
    localNames reboundTree = [] ∧ (∀ x ∈ treeVariables reboundTree, isInternal x = false) ∧
      HoistedAlone reboundTree ((dedupTop reboundTree).run []).1.2 ∧ Host.marking.Lawful ∧
      (run Host.marking ((dedupTop reboundTree).run []).1.1
          (Host.marking.bindAll ((dedupTop reboundTree).run []).1.2 (· == "us"))).1 =
        (run Host.marking reboundTree (· == "us")).1 := by
  have hnames : ∀ x ∈ treeVariables reboundTree, isInternal x = false := by decide +kernel
  have hplain : ∀ e ∈ expressions reboundTree, isPlain (accessor.pieces e.toList) = true := by
    decide +kernel
  have halone : HoistedAlone reboundTree ((dedupTop reboundTree).run []).1.2 := by
    intro site hsite before a after heq _ _
    have hsettled : Settled (fun _ => True) (fun _ => True)
        (accessor.pieces site.expression.toList) :=
      settled_of_isPlain (hplain _ (map_sites [] reboundTree ▸ List.mem_map_of_mem hsite))
    exact (hsettled before a after heq trivial).1
  exact ⟨rfl, hnames, halone, Host.lawful_marking,
    (run_bindAll_dedupTop rfl hnames halone Host.lawful_marking _).1⟩

/-! ## The pass over the loops -/

/-- The calls that the rounds of a tree's loops may move: they are on a variable of a loop and
occur more than once. -/
def MovedInLoops (nodes : List Node) (a : DottedPath) : Prop :=
  String.ofList a.name ∈ rebound nodes ∧ 1 < (calls nodes).count a

/-- **A tree without local variables prints the same after the pass over its loops**, if the calls
that the pass may move are standing. Host statements may run anywhere in the tree. -/
theorem run_dedupLoops_of_standing {nodes : List Node} (hlocal : localNames nodes = [])
    (hnames : ∀ x ∈ treeVariables nodes, isInternal x = false)
    (hstanding : ∀ e ∈ expressions nodes,
      Standing (MovedInLoops nodes) (accessor.pieces e.toList))
    {host : Host} (hlaw : host.Lawful) (hordinary : host.Ordinary) (taken : Names)
    (s : Store host.Value) :
    (run host ((dedupLoops nodes).run taken).1 s).1 = (run host nodes s).1 := by
  have hready : Ready host (Standing (MovedInLoops nodes)) (MovedInLoops nodes) nodes :=
    ⟨hnames, hlocal, fun _ => hordinary, hstanding, fun _ hcount hname => ⟨hname, hcount⟩⟩
  have hprogram : ∀ a, MovedInLoops nodes a → ofProgram a = true := by
    intro a ha
    have hmem := List.mem_append_left (mentions nodes) ((rebound_sublist nodes).subset ha.1)
    simp [ofProgram, hnames _ hmem]
  exact hready.run_dedupLoops (keptByRounds_standing hprogram) hlaw taken s

/-- A host language like `Host.marking`, whose host statements assign the variable `x`: it is
marked if they mention a marked variable. -/
abbrev Host.assigning : Host :=
  { Host.marking with
    perform := fun code s => ("", Function.update s "x" (Host.marking.eval code s)) }

/-- The assigning host is lawful. -/
theorem Host.lawful_assigning : Host.assigning.Lawful := ⟨Host.lawful_marking.exchange⟩

/-- The statements of the assigning host agree on stores that differ on internal names. -/
theorem Host.ordinary_assigning : Host.assigning.Ordinary := by
  refine ⟨fun {code apart s s'} hcode hagree => ⟨rfl, fun x hx => ?_⟩⟩
  have heval : Host.marking.eval code s = Host.marking.eval code s' :=
    eval_congr fun y hy => hagree y fun hmem => (hcode y hmem).2 hy
  show Function.update s "x" _ x = Function.update s' "x" _ x
  rw [heval]
  by_cases hxx : x = "x"
  · rw [hxx, Function.update_self, Function.update_self]
  · rw [Function.update_of_ne hxx, Function.update_of_ne hxx]
    exact hagree x hx

/-- A tree with a repeated call in a loop that a loop with a host statement surrounds. -/
def assigningTree : List Node :=
  [.loop ⟨"$us", "v", none⟩ [] [.host "$x = $v;" false,
    .loop ⟨"$us", "u", none⟩ [] [.echo "data_get($u, 'n')" true, .echo "data_get($u, 'n')" true],
    .echo "$x" true]]

/-- The call is read once in each iteration of the inner loop. -/
theorem run_dedupLoops_of_standing_assigning :
    localNames assigningTree = [] ∧ (∀ x ∈ treeVariables assigningTree, isInternal x = false) ∧
      (∀ e ∈ expressions assigningTree,
        Standing (MovedInLoops assigningTree) (accessor.pieces e.toList)) ∧
      Host.assigning.Lawful ∧ Host.assigning.Ordinary ∧
      (run Host.assigning ((dedupLoops assigningTree).run []).1 (· == "us")).1 =
        (run Host.assigning assigningTree (· == "us")).1 := by
  have hnames : ∀ x ∈ treeVariables assigningTree, isInternal x = false := by decide +kernel
  have hplain : ∀ e ∈ expressions assigningTree, isPlain (accessor.pieces e.toList) = true := by
    decide +kernel
  have hstanding : ∀ e ∈ expressions assigningTree,
      Standing (MovedInLoops assigningTree) (accessor.pieces e.toList) := fun e he =>
    (settled_of_isPlain (hplain e he)).standing fun _ ha => ⟨ha, ha⟩
  exact ⟨rfl, hnames, hstanding, Host.lawful_assigning, Host.ordinary_assigning,
    run_dedupLoops_of_standing rfl hnames hstanding Host.lawful_assigning Host.ordinary_assigning
      [] _⟩

/-! ## The end of another function's name -/

/-- What stands at the start of a call of `metadata_get`. -/
def metadataOpening : List Char := ['m', 'e', 't', 'a'] ++ callOpening

/-- A host language in which an expression is true exactly if it starts with a call of
`metadata_get`. Every collection has one element. -/
abbrev Host.metadata : Host where
  Value := Bool
  value expression _ := metadataOpening.isPrefixOf expression.toList
  holds := id
  isPresent := id
  shown v := if v then "1" else ""
  escaped v := if v then "1" else ""
  elements v := [(v, v)]
  component _ _ _ _ _ := ""
  perform _ s := ("", s)

/-- A call that stands by itself is no part of a call of `metadata_get`. -/
theorem Host.lawful_metadata : Host.metadata.Lawful := by
  refine ⟨fun {expression before after a x s} hpieces halone _ _ => ?_⟩
  show metadataOpening.isPrefixOf (String.ofList _).toList =
    metadataOpening.isPrefixOf expression.toList
  rw [String.toList_ofList, eq_spelled_of_pieces hpieces, Bool.eq_iff_iff,
    List.isPrefixOf_iff_prefix, List.isPrefixOf_iff_prefix]
  constructor
  · intro h
    have hbefore := Text.prefix_of_prefix_append_cons (by decide) h
    exact hbefore.trans (List.prefix_append _ _)
  · rintro ⟨rest, hrest⟩
    rcases List.append_eq_append_iff.mp hrest with ⟨k, hk, -⟩ | ⟨k, hk, hcall⟩
    · exact ⟨k ++ '$' :: (x ++ spelled after), by rw [hk, List.append_assoc]⟩
    · cases k with
      | nil => exact ⟨'$' :: (x ++ spelled after), by rw [hk, List.append_nil]⟩
      | cons c k =>
        -- The call would start within the name, behind a letter.
        rw [call_eq] at hcall
        obtain rfl : c = 'd' := (List.cons.inj hcall).1.symm
        have hfront : 'd' ∉ ['m', 'e', 't', 'a'] := by decide
        have htail : 'd' ∉ callOpening.tail := by decide
        obtain ⟨hmeta, -, -⟩ := (List.append_cons_inj_of_notMem hfront htail).mp hk
        have hglued := (halone.notGlued 'a' (by rw [← hmeta]; rfl)).1
        exact absurd hglued (by decide)

/-- A tree with a repeated call of another function, whose name ends like the accessor
function's. -/
def metadataEchoes : List Node :=
  [.echo "metadata_get($u, 'n')" true, .echo "metadata_get($u, 'n')" true]

/-- **The pass ahead of a tree does not always keep what it prints.** -/
theorem exists_run_dedupTop_ne :
    localNames metadataEchoes = [] ∧
      (∀ x ∈ treeVariables metadataEchoes, isInternal x = false) ∧ Host.metadata.Lawful ∧
      ∃ s : Store Bool, (run Host.metadata ((dedupTop metadataEchoes).run []).1.1
          (Host.metadata.bindAll ((dedupTop metadataEchoes).run []).1.2 s)).1 ≠
        (run Host.metadata metadataEchoes s).1 := by
  refine ⟨rfl, by decide +kernel, Host.lawful_metadata, fun _ => false, ?_⟩
  decide +kernel

/-- The echoes of a loop. -/
def metadataLoop : List Node := [.loop ⟨"$us", "u", none⟩ [] metadataEchoes]

/-- **The pass over the loops does not always keep what a tree prints.** -/
theorem exists_run_dedupLoops_ne :
    localNames metadataLoop = [] ∧ (∀ x ∈ treeVariables metadataLoop, isInternal x = false) ∧
      Host.metadata.Lawful ∧ Host.metadata.Ordinary ∧
      ∃ s : Store Bool, (run Host.metadata ((dedupLoops metadataLoop).run []).1 s).1 ≠
        (run Host.metadata metadataLoop s).1 := by
  refine ⟨rfl, by decide +kernel, Host.lawful_metadata, ⟨fun _ hagree => ⟨rfl, hagree⟩⟩,
    fun _ => false, ?_⟩
  decide +kernel

end ViewCompiler.Template
