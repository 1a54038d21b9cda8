import Mathlib.Data.List.Perm.Subperm
import ViewCompiler.Proofs.Expression.Occurrences
import ViewCompiler.Proofs.Template.Hoisting

/-!
# Calls that are part of nothing else

A call is `Detached` if nothing next to it makes it part of another name, and a variable with the
name for its value would not be called as the accessor function. `RepeatsDetached` asks this of
every two calls that are the same, where a call on the value of a call counts as one of its own,
and as every call that it may come to be when the calls inside have names.

When a variable takes the place of a detached call, each call that is there afterwards follows one
that was there before, so nothing that is asked of the calls gets lost (`covers_exchange`).
-/

namespace ViewCompiler.Template

open Expression

/-! ## What calls may come to be -/

/-- What a call may come to be when variables take the places of calls inside it. -/
inductive Becomes : NestedCall → NestedCall → Prop where
  | same (c : NestedCall) : Becomes c c
  | bound {name path next : List Char} {paths : List (List Char)} {c : NestedCall} (n : Nat)
    (h : Becomes ⟨(candidate (hoistBase ⟨name, path⟩) n).toList, next :: paths⟩ c) :
    Becomes ⟨name, path :: next :: paths⟩ c

/-- Two calls are the same or may come to be the same. -/
def MayMeet (c c' : NestedCall) : Prop := ∃ d, Becomes c d ∧ Becomes c' d

/-- The call is whole, and it is not called as a function if the name for its value ends like that
of the accessor function. -/
structure Detached (o : Occurrence) : Prop where
  whole : Whole o.before o.after
  notCalled : ∀ a : DottedPath, Becomes o.call a.nested →
    functionName <:+ (hoistBase a).toList → ¬ ['('] <+: o.after

/-- Every two of the calls that are the same or may come to be the same are detached. -/
def RepeatsDetached (os : List Occurrence) : Prop :=
  os.Pairwise fun o o' => MayMeet o.call o'.call → Detached o ∧ Detached o'

/-- What a call comes to be has the same outermost path. -/
theorem Becomes.getLast?_eq {c d : NestedCall} (h : Becomes c d) :
    d.paths.getLast? = c.paths.getLast? := by
  induction h with
  | same c => rfl
  | bound n h ih => rw [ih, List.getLast?_cons_cons]

/-- Calls with other outermost paths never come to be the same. -/
theorem not_mayMeet {c c' : NestedCall} (h : c.paths.getLast? ≠ c'.paths.getLast?) :
    ¬ MayMeet c c' := by
  rintro ⟨d, hd, hd'⟩
  exact h (hd.getLast?_eq.symm.trans hd'.getLast?_eq)

/-! ## Calls that follow others -/

/-- The second call stands where the first one stood: it becomes nothing else, and it is detached
if the first one was. -/
structure Follows (o o' : Occurrence) : Prop where
  becomes : ∀ d, Becomes o'.call d → Becomes o.call d
  detached : Detached o → Detached o'

open Classical in
/-- How many of the calls are of a kind. -/
noncomputable def number (kind : Occurrence → Prop) (os : List Occurrence) :
    Nat := os.countP (kind ·)

section Number

variable {kind : Occurrence → Prop} {os os' : List Occurrence}

/-- Counting goes through two lists one after the other. -/
theorem number_append : number kind (os ++ os') = number kind os + number kind os' :=
  List.countP_append

/-- A kind is counted at all if one occurrence is of it. -/
theorem number_pos_iff : 0 < number kind os ↔ ∃ o ∈ os, kind o := by simp [number]

/-- An occurrence of the kind counts one more. -/
theorem number_cons_of_pos {o : Occurrence} (h : kind o) :
    number kind (o :: os) = number kind os + 1 := List.countP_cons_of_pos (by simpa using h)

variable (kind) in
/-- Part of the occurrences counts no more than all of them. -/
theorem number_le_of_subperm (h : os'.Subperm os) :
    number kind os' ≤ number kind os := h.countP_le _

end Number

/-- Of every kind of calls that passes from each call to the one it follows, the second list holds
no more than the first. -/
def Covers (os os' : List Occurrence) : Prop :=
  ∀ kind : Occurrence → Prop, (∀ o o', Follows o o' → kind o' → kind o) →
    number kind os' ≤ number kind os

namespace Covers

variable {os os' os'' : List Occurrence} {o o' : Occurrence}

/-- Every list of occurrences covers itself. -/
theorem refl (os : List Occurrence) : Covers os os := fun _ _ => Nat.le_refl _

/-- Covering goes through a list in between. -/
theorem trans (h : Covers os os') (h' : Covers os' os'') : Covers os os'' := fun kind hkind =>
  Nat.le_trans (h' kind hkind) (h kind hkind)

/-- Occurrences cover every part of them, in any order. -/
theorem of_subperm (h : os'.Subperm os) :
    Covers os os' := fun kind _ => number_le_of_subperm kind h

/-- Occurrences cover the empty list. -/
theorem nil (os : List Occurrence) : Covers os [] := .of_subperm List.nil_subperm

/-- Lists put one after the other cover what each of them covers. -/
theorem append {ps ps' : List Occurrence} (h : Covers os os') (h' : Covers ps ps') :
    Covers (os ++ ps) (os' ++ ps') := fun kind hkind => by
  rw [number_append, number_append]
  exact Nat.add_le_add (h kind hkind) (h' kind hkind)

/-- An occurrence covers one that follows from it. -/
theorem singleton (h : Follows o o') : Covers [o] [o'] := fun kind hkind => by
  by_cases hkind' : kind o'
  · rw [number_cons_of_pos hkind', number_cons_of_pos (hkind o o' h hkind')]
  · have hnone : number kind [o'] = 0 := by simp [number, hkind']
    exact hnone ▸ Nat.zero_le _

/-- Two occurrences in a row cover what follows from each. -/
theorem cons (h : Follows o o') (h' : Covers os os') : Covers (o :: os) (o' :: os') :=
  (singleton h).append h'

end Covers

/-! ## Repeated calls -/

namespace RepeatsDetached

variable {os os' : List Occurrence} {d : NestedCall}

/-- A call is detached if there is another one that may come to be the same. -/
theorem detached (h : RepeatsDetached os) (hcount : 1 < number (Becomes ·.call d) os)
    {o : Occurrence}
    (ho : o ∈ os) (hd : Becomes o.call d) : Detached o := by
  obtain ⟨pre, post, rfl⟩ := List.append_of_mem ho
  obtain ⟨-, hpost, hpre⟩ := List.pairwise_append.mp h
  rw [number_append, number_cons_of_pos hd] at hcount
  have hother : 0 < number (Becomes ·.call d) pre ∨ 0 < number (Becomes ·.call d) post := by omega
  rcases hother with hother | hother
  · obtain ⟨c, hc, hcd⟩ := number_pos_iff.mp hother
    exact (hpre c hc o List.mem_cons_self ⟨d, hcd, hd⟩).2
  · obtain ⟨c, hc, hcd⟩ := number_pos_iff.mp hother
    exact ((List.pairwise_cons.mp hpost).1 c hc ⟨d, hd, hcd⟩).1

/-- **Calls that follow others are detached where they are repeated**, if those are. -/
theorem covers (h : RepeatsDetached os) (hcovers : Covers os os') : RepeatsDetached os' := by
  refine List.pairwise_iff_forall_sublist.mpr fun {o o'} hsub ⟨d, hd, hd'⟩ => ?_
  have hcount : 1 < number (Becomes ·.call d) os := by
    have htwo : number (Becomes ·.call d) [o, o'] = 2 := by
      rw [number_cons_of_pos hd, number_cons_of_pos hd']
      rfl
    have hle := number_le_of_subperm (Becomes ·.call d) hsub.subperm
    have hsame := hcovers (Becomes ·.call d) fun _ _ hfollows => hfollows.becomes d
    omega
  -- A call that is not detached would follow one that is not, but all that come to be this are.
  have hall : ∀ c ∈ os', Becomes c.call d → Detached c := by
    intro c hc hcd
    by_contra hnot
    have hpos : 0 < number (fun c => Becomes c.call d ∧ ¬ Detached c) os' :=
      number_pos_iff.mpr ⟨c, hc, hcd, hnot⟩
    have hsame := hcovers (fun c => Becomes c.call d ∧ ¬ Detached c) fun _ _ hfollows hc =>
      ⟨hfollows.becomes d hc.1, fun hdetached => hc.2 (hfollows.detached hdetached)⟩
    obtain ⟨b, hb, hbd, hnot'⟩ := number_pos_iff.mp (Nat.lt_of_lt_of_le hpos hsame)
    exact hnot' (h.detached hcount hb hbd)
  exact ⟨hall o (hsub.subset (by simp)) hd, hall o' (hsub.subset (by simp)) hd'⟩

end RepeatsDetached

/-- Calls around a call follow the calls around another, if a relation leads from one to the
next. -/
theorem covers_layers (rel : Occurrence → Occurrence → Prop)
    (hfollows : ∀ o o', rel o o' → Follows o o')
    (houter : ∀ o o' outer', rel o o' → o'.outer? = some outer' →
      ∃ outer, o.outer? = some outer ∧ rel outer outer')
    {o o' : Occurrence} (h : rel o o') : Covers o.layers o'.layers := by
  fun_induction Occurrence.layers o' generalizing o with
  | case1 o' hnone =>
    obtain ⟨rest, hrest⟩ := o.exists_layers_eq
    rw [hrest]
    refine Covers.trans (.of_subperm ?_) (.singleton (hfollows o o' h))
    exact (List.Sublist.cons_cons o (List.nil_sublist rest)).subperm
  | case2 o' outer' hsome ih =>
    obtain ⟨outer, hsome', hrel⟩ := houter o o' outer' h hsome
    rw [Occurrence.layers_of_some hsome']
    exact .cons (hfollows o o' h) (ih hrel)

/-! ## Exchange -/

section Exchange

variable {u t w x : List Char} {a : DottedPath}

/-- A call detached from what surrounds it stays so when a later call is exchanged for a name. -/
theorem Detached.exchange_after {call : NestedCall}
    (h : Detached ⟨u, call, t ++ (a.call ++ w)⟩) : Detached ⟨u, call, t ++ '$' :: (x ++ w)⟩ := by
  refine ⟨h.whole.exchange_after, fun c hc hname hparen => h.notCalled c hc hname ?_⟩
  exact (Text.prefix_of_prefix_append_cons (by decide) hparen).trans (List.prefix_append _ _)

/-- The calls around a place before the place of an exchange stay. -/
theorem covers_layers_after (before : List Char) (call : NestedCall) (m : List Char) :
    Covers (Occurrence.mk before call (m ++ (a.call ++ w))).layers
      (Occurrence.mk before call (m ++ '$' :: (x ++ w))).layers := by
  refine covers_layers (fun o o' => ∃ before call m, o = ⟨before, call, m ++ (a.call ++ w)⟩ ∧
    o' = ⟨before, call, m ++ '$' :: (x ++ w)⟩) ?_ ?_ ⟨before, call, m, rfl, rfl⟩
  · rintro - - ⟨before, call, m, rfl, rfl⟩
    exact ⟨fun _ => id, Detached.exchange_after⟩
  · rintro - - outer ⟨before, call, m, rfl, rfl⟩ h
    obtain ⟨m', hafter, hold⟩ := Occurrence.outer?_exchange_after (a := a) h
    refine ⟨_, hold, outer.before, outer.call, m', rfl, ?_⟩
    rw [← hafter]

/-- The calls before the place of an exchange stay. -/
theorem covers_placed_after (pieces : List CallPiece) :
    Covers ((placed u pieces (t ++ (a.call ++ w))).flatMap Occurrence.layers)
      ((placed u pieces (t ++ '$' :: (x ++ w))).flatMap Occurrence.layers) := by
  induction pieces generalizing u with
  | nil => exact .refl []
  | cons p pieces ih =>
    rw [placed, placed, List.flatMap_append, List.flatMap_append]
    refine .append ?_ ih
    cases p with
    | literal l => exact .refl []
    | char c => exact .refl []
    | phrase c =>
      have := covers_layers_after (a := a) (w := w) (x := x) u c.nested (spelled pieces ++ t)
      simpa [Piece.phrase?] using this

/-- The calls around a place behind the place of an exchange stay. -/
theorem covers_layers_before (hx : isIdentifier x) {m : List Char} (hne : m ≠ [])
    (hstops : StopsAt isIdentifierChar m) (hcalled : functionName <:+ x → ¬ ['('] <+: m)
    (call : NestedCall) (after : List Char) :
    Covers (Occurrence.mk (u ++ (a.call ++ m)) call after).layers
      (Occurrence.mk (u ++ '$' :: (x ++ m)) call after).layers := by
  refine covers_layers (fun o o' => ∃ m call after, m ≠ [] ∧ StopsAt isIdentifierChar m ∧
    (functionName <:+ x → ¬ ['('] <+: m) ∧ o = ⟨u ++ (a.call ++ m), call, after⟩ ∧
    o' = ⟨u ++ '$' :: (x ++ m), call, after⟩) ?_ ?_
      ⟨m, call, after, hne, hstops, hcalled, rfl, rfl⟩
  · rintro - - ⟨m, call, after, hne, -, -, rfl, rfl⟩
    exact ⟨fun _ => id, fun h => ⟨h.whole.exchange_before hx hne, h.notCalled⟩⟩
  · rintro - - outer ⟨m, call, after, hne, hstops, hcalled, rfl, rfl⟩ h
    obtain ⟨m', rfl, hbefore, hold⟩ := Occurrence.outer?_exchange_before (a := a) hx hstops hne
      hcalled h
    have hne' : m' ≠ [] := by
      rintro rfl
      exact absurd (stopsAt_cons.mp hstops) (by decide)
    refine ⟨_, hold, m', outer.call, outer.after, hne', (stopsAt_append_iff hne').mp hstops,
      fun hname hparen => hcalled hname (hparen.trans (List.prefix_append _ _)), rfl, ?_⟩
    rw [← hbefore]

/-- The calls behind the place of an exchange stay. -/
theorem covers_placed_before (hx : isIdentifier x) (pieces : List CallPiece)
    (hstops : StopsAt isIdentifierChar (t ++ (spelled pieces ++ w)))
    (hcalled : functionName <:+ x → ¬ ['('] <+: t ++ (spelled pieces ++ w)) :
    Covers ((placed (u ++ (a.call ++ t)) pieces w).flatMap Occurrence.layers)
      ((placed (u ++ '$' :: (x ++ t)) pieces w).flatMap Occurrence.layers) := by
  induction pieces generalizing t with
  | nil => exact .refl []
  | cons p pieces ih =>
    rw [placed, placed, List.flatMap_append, List.flatMap_append]
    rw [spelled_cons, List.append_assoc] at hstops hcalled
    refine .append ?_ ?_
    · cases p with
      | literal l => exact .refl []
      | char c => exact .refl []
      | phrase c =>
        have hne : t ≠ [] := ne_nil_of_stopsAt (c := c) hstops
        have := covers_layers_before (u := u) (a := a) hx hne ((stopsAt_append_iff hne).mp hstops)
          (fun hname hparen => hcalled hname (hparen.trans (List.prefix_append _ _)))
          c.nested (spelled pieces ++ w)
        simpa [Piece.phrase?] using this
    · rw [← List.append_assoc] at hstops hcalled
      have := ih hstops hcalled
      simpa using this

/-- A call on the value of a call follows when the call inside has a name. -/
theorem covers_layers_bound (n : Nat) (before path after : List Char) :
    Covers (Occurrence.mk before ⟨a.name, [a.path, path]⟩ after).layers
      (Occurrence.mk before ⟨(candidate (hoistBase a) n).toList, [path]⟩ after).layers := by
  have hbound : ∀ next paths d, Becomes ⟨(candidate (hoistBase a) n).toList, next :: paths⟩ d →
      Becomes ⟨a.name, a.path :: next :: paths⟩ d := fun _ _ _ => .bound n
  refine covers_layers (fun o o' => ∃ before next paths after,
    o = ⟨before, ⟨a.name, a.path :: next :: paths⟩, after⟩ ∧
    o' = ⟨before, ⟨(candidate (hoistBase a) n).toList, next :: paths⟩, after⟩) ?_ ?_
    ⟨before, path, [], after, rfl, rfl⟩
  · rintro - - ⟨before, next, paths, after, rfl, rfl⟩
    exact ⟨hbound next paths, fun h =>
      ⟨h.whole, fun c hc => h.notCalled c (hbound next paths _ hc)⟩⟩
  · rintro - - ⟨before', call', after'⟩ ⟨before, next, paths, after, rfl, rfl⟩ h
    obtain ⟨path, hne, hpath, hbefore, hafter, hcall⟩ := Occurrence.outer?_eq_some_iff.mp h
    obtain rfl : call' = _ := hcall
    exact ⟨⟨before', ⟨a.name, a.path :: next :: paths ++ [path]⟩, after'⟩,
      Occurrence.outer?_eq_some_iff.mpr ⟨path, hne, hpath, hbefore, hafter, rfl⟩,
      before', next, paths ++ [path], after', rfl, rfl⟩

/-- A call alone in a text. -/
def alone (a : DottedPath) : Occurrence := ⟨[], a.nested, []⟩

/-- A call alone is detached. -/
theorem detached_alone (a : DottedPath) : Detached (alone a) :=
  ⟨⟨by simp [alone], by simp [alone], by simp [alone], stopsAt_nil _⟩, by simp [alone]⟩

/-- A call is followed by itself alone. -/
theorem follows_alone (before after : List Char) (a : DottedPath) :
    Follows ⟨before, a.nested, after⟩ (alone a) := ⟨fun _ => id, fun _ => detached_alone a⟩

/-- What is left of the calls at three places when the first call at the second place goes
elsewhere. -/
theorem covers_around {os os' ps ps' rest rest' : List Occurrence} {o o' : Occurrence}
    (h : Covers os os') (ho : Follows o o') (hrest : Covers rest rest') (h' : Covers ps ps') :
    Covers (os ++ (o :: rest ++ ps)) (os' ++ (rest' ++ ps') ++ [o']) := fun kind hkind => by
  have := h kind hkind
  have := Covers.singleton ho kind hkind
  have := hrest kind hkind
  have := h' kind hkind
  have hcons : o :: rest = [o] ++ rest := rfl
  rw [hcons]
  simp only [number_append]
  omega

section AtOnePlace

variable {before after pre rest : List CallPiece} {path : List Char}

/-- The first case of an exchange: the pieces around the call stay, and the variable is read as
characters. The calls around the one whose place is taken are no more. -/
theorem covers_exchange_apart (hx : isIdentifier x)
    (hcalled : functionName <:+ x → ¬ ['('] <+: spelled after)
    (hstops : StopsAt isIdentifierChar (spelled after))
    (hold : IsCut (before ++ .phrase a :: after))
    (hnew : IsCut (before ++ (variablePieces x ++ after))) :
    Covers (occurrencesIn (spelled (before ++ .phrase a :: after)))
      (occurrencesIn (spelled before ++ '$' :: (x ++ spelled after)) ++ [alone a]) := by
  have hpieces : accessor.pieces (spelled before ++ '$' :: (x ++ spelled after)) =
      before ++ (variablePieces x ++ after) := by
    rw [← hnew, spelled_append, spelled_append, spelled_variablePieces]
    rfl
  have hcalls : occurrencesIn (spelled before ++ '$' :: (x ++ spelled after)) =
      (placed [] before ('$' :: (x ++ spelled after))).flatMap Occurrence.layers ++
        ([] ++
          (placed (spelled before ++ '$' :: (x ++ [])) after []).flatMap Occurrence.layers) := by
    rw [occurrencesIn, hpieces, placed_append, placed_append, variablePieces, placed_map_char]
    simp [Piece.text]
  obtain ⟨around, hlayers⟩ :=
    (Occurrence.mk (spelled before) a.nested (spelled after)).exists_layers_eq
  have hbehind : Covers ((placed (spelled before ++ a.call) after []).flatMap Occurrence.layers)
      ((placed (spelled before ++ '$' :: (x ++ [])) after []).flatMap Occurrence.layers) := by
    have := covers_placed_before (u := spelled before) (t := []) (a := a) (w := []) hx after
    rw [List.nil_append, List.append_nil, List.append_nil] at this
    exact this hstops hcalled
  rw [occurrencesIn_of_pieces hold, hcalls, hlayers]
  exact covers_around (covers_placed_after (t := []) before) (follows_alone _ _ _) (.nil _) hbehind

/-- The other case: with the variable in place of the call, the call around it is a piece. -/
theorem covers_exchange_nested (hx : isIdentifier x)
    (hbound : Covers (Occurrence.mk (spelled pre) ⟨a.name, [a.path, path]⟩ (spelled rest)).layers
      (Occurrence.mk (spelled pre) ⟨x, [path]⟩ (spelled rest)).layers)
    (hold : IsCut (pre ++ callOpening.map .char ++ .phrase a :: (endingPieces path ++ rest)))
    (hnew : IsCut (pre ++ .phrase ⟨x, path⟩ :: rest)) :
    Covers (occurrencesIn
        (spelled (pre ++ callOpening.map .char ++ .phrase a :: (endingPieces path ++ rest))))
      (occurrencesIn (spelled (pre ++ callOpening.map .char) ++
        '$' :: (x ++ spelled (endingPieces path ++ rest))) ++ [alone a]) := by
  have hpieces : accessor.pieces (spelled (pre ++ callOpening.map .char) ++
      '$' :: (x ++ spelled (endingPieces path ++ rest))) = pre ++ .phrase ⟨x, path⟩ :: rest := by
    rw [← hnew]
    simp [Piece.text, call_eq]
  have hpath : (DottedPath.mk x path).Readable := hnew.readable
  have hlayers : (Occurrence.mk (spelled (pre ++ callOpening.map .char)) a.nested
      (spelled (endingPieces path ++ rest))).layers =
      ⟨spelled (pre ++ callOpening.map .char), a.nested, spelled (endingPieces path ++ rest)⟩ ::
        (Occurrence.mk (spelled pre) ⟨a.name, [a.path, path]⟩ (spelled rest)).layers :=
    Occurrence.layers_of_some (Occurrence.outer?_eq_some_iff.mpr
      ⟨path, hpath.path_ne_nil, hpath.isPath, by simp, by simp, rfl⟩)
  -- The pieces of the call around the variable are characters, in which no calls are.
  have hbefore : placed [] (pre ++ callOpening.map .char)
      (a.call ++ spelled (endingPieces path ++ rest)) =
      placed [] pre (callOpening ++ (a.call ++ (callEnding path ++ spelled rest))) := by
    rw [placed_append, placed_map_char]
    simp
  have hbehind : placed (spelled (pre ++ callOpening.map .char) ++ a.call)
      (endingPieces path ++ rest) [] =
      placed ((spelled pre ++ callOpening) ++ (a.call ++ callEnding path)) rest [] := by
    rw [placed_append, placed_endingPieces]
    simp
  have hcall : (DottedPath.mk x path).call = callOpening ++ '$' :: (x ++ callEnding path) := by
    simp [call_eq]
  rw [occurrencesIn_of_pieces hold, hlayers, hbefore, hbehind,
    occurrencesIn_of_pieces hpieces, hcall,
    ← List.append_assoc (spelled pre)]
  have hstops : StopsAt isIdentifierChar (callEnding path ++ (spelled rest ++ [])) :=
    stopsAt_cons.mpr (by decide)
  have hfront := covers_placed_after (u := []) (t := callOpening) (a := a) (x := x)
    (w := callEnding path ++ spelled rest) pre
  have hback := covers_placed_before (u := spelled pre ++ callOpening) (a := a) hx rest hstops
    (by simp [callEnding])
  simpa [DottedPath.nested] using covers_around hfront (follows_alone _ _ _) hbound hback

end AtOnePlace

/-- **When a variable takes the place of a detached call**, the calls that are there afterwards
follow the other calls, and the call alone follows the one whose place is taken. -/
theorem covers_exchange {before after : List CallPiece}
    (hcut : IsCut (before ++ .phrase a :: after))
    (h : Detached ⟨spelled before, a.nested, spelled after⟩) (n : Nat) :
    Covers (occurrencesIn (spelled (before ++ .phrase a :: after)))
      (occurrencesIn (spelled before ++
        '$' :: ((candidate (hoistBase a) n).toList ++ spelled after)) ++ [alone a]) := by
  have hident := isIdentifier_candidate hcut.readable n
  have hcalled : functionName <:+ (candidate (hoistBase a) n).toList → ¬ ['('] <+: spelled after :=
    fun hname => h.notCalled a (.same _) (functionName_of_suffix_candidate hname)
  rcases exists_pieces_exchange hcut h.whole.stops hident hcalled with
    hnew | ⟨pre, path, rest, rfl, rfl, hnew⟩
  · exact covers_exchange_apart hident hcalled h.whole.stops hcut hnew
  · exact covers_exchange_nested hident (covers_layers_bound n _ _ _) hcut hnew

end Exchange

/-! ## Replacing all calls that are held -/

section Held

variable {held : DottedPath → Option (List Char)}

/-- The calls among pieces that are held. -/
def heldCalls (held : DottedPath → Option (List Char)) (pieces : List CallPiece) :
    List DottedPath :=
  (pieces.filterMap Piece.phrase?).filter fun a => (held a).isSome

/-- What is written instead of pieces starts with a variable or as they do. -/
theorem head?_exchanged (held : DottedPath → Option (List Char)) (pieces : List CallPiece) :
    (spelled (exchanged held pieces)).head? = some '$' ∨
      (spelled (exchanged held pieces)).head? = (spelled pieces).head? := by
  cases pieces with
  | nil => exact .inr rfl
  | cons p pieces =>
    rw [spelled_exchanged, List.flatMap_cons, spelled_cons]
    cases p with
    | literal l => exact .inr rfl
    | char c => exact .inr rfl
    | phrase a =>
      rw [Piece.text, Piece.text, heldText, call_eq]
      cases held a with
      | some x => exact .inl rfl
      | none => exact .inr rfl

/-- A detached call stays detached when calls behind it are replaced. -/
theorem Detached.exchanged {before : List Char} {call : NestedCall} {pieces : List CallPiece}
    (h : Detached ⟨before, call, spelled pieces⟩) :
    Detached ⟨before, call, spelled (exchanged held pieces)⟩ := by
  obtain ⟨⟨hglued, hmember, hstatic, hstops⟩, hcalled⟩ := h
  refine ⟨⟨hglued, hmember, hstatic, stopsAt_exchanged hstops⟩, fun a ha hname hparen => ?_⟩
  obtain ⟨rest, hrest⟩ := hparen
  have hhead : (spelled (Template.exchanged held pieces)).head? = some '(' :=
    (congrArg List.head? hrest).symm
  rcases head?_exchanged held pieces with hdollar | hsame
  · rw [hhead] at hdollar
    cases hdollar
  · obtain ⟨rest, hrest⟩ := List.head?_eq_some_iff.mp (hsame.symm.trans hhead)
    exact hcalled a ha hname ⟨rest, hrest.symm⟩

/-- Replacing calls closes no double quote. -/
theorem closes_exchanged {pieces : List CallPiece}
    (h : ∀ a, .phrase a ∈ pieces → a.Readable ∧ ∀ x, held a = some x → isIdentifier x)
    (escaped : Bool) :
    closes '"' escaped (spelled pieces) =
      closes '"' escaped (spelled (exchanged held pieces)) := by
  rw [spelled_exchanged]
  refine closes_flatMap_text (fun a ha => ⟨(h a ha).1.plain_call, ?_⟩) escaped
  rw [heldText]
  cases hx : held a with
  | some x => exact plain_variable ((h a ha).2 x hx)
  | none => exact (h a ha).1.plain_call

/-- In front of pieces in which calls are replaced, the pieces of a text stay. -/
theorem isCut_exchanged_behind {before todo : List CallPiece} {a : DottedPath}
    (hcut : IsCut (before ++ .phrase a :: todo))
    (h : ∀ c, .phrase c ∈ todo → ∀ x, held c = some x → isIdentifier x) :
    IsCut (before ++ .phrase a :: accessor.pieces (spelled (exchanged held todo))) := by
  have hreadable : ∀ c, .phrase c ∈ todo → c.Readable ∧ ∀ x, held c = some x → isIdentifier x := by
    intro c hc
    have hmem : .phrase c ∈ before ++ .phrase a :: todo := by simp [hc]
    exact ⟨hcut.readable_of_mem hmem, h c hc⟩
  have hsame := hcut.pieces_append (quotesStayOpen_call
    (closes_append (closes_exchanged hreadable) a.call))
  rw [← hsame]
  exact isCut_pieces _

/-- **When variables take the places of detached calls**, the calls that are there afterwards
follow the other calls, and each call alone follows one whose place is taken. -/
theorem covers_exchanged {before todo : List CallPiece} (hcut : IsCut (before ++ todo))
    (hheld : ∀ pre a post x, before ++ todo = pre ++ .phrase a :: post → held a = some x →
      Detached ⟨spelled pre, a.nested, spelled post⟩ ∧ ∃ n, x =
        (candidate (hoistBase a) n).toList) :
    Covers (occurrencesIn (spelled (before ++ todo)))
      (occurrencesIn (spelled (before ++ exchanged held todo)) ++
        (heldCalls held todo).map alone) := by
  induction todo generalizing before with
  | nil => simpa [exchanged, heldCalls] using Covers.refl _
  | cons p todo ih =>
    have hassoc : before ++ p :: todo = (before ++ [p]) ++ todo := by simp
    have hcons : exchanged held (p :: todo) = heldPieces held p ++ exchanged held todo :=
      List.flatMap_cons
    have hrest := ih (hassoc ▸ hcut) (hassoc ▸ hheld)
    rw [← hassoc, List.append_assoc] at hrest
    rw [hcons]
    cases p with
    | literal l => exact hrest
    | char c => exact hrest
    | phrase a =>
      cases hx : held a with
      | none => simpa [heldPieces, heldCalls, Piece.phrase?, hx] using hrest
      | some x =>
        obtain ⟨hdetached, n, rfl⟩ := hheld before a todo x rfl hx
        have hidentifiers : ∀ c, .phrase c ∈ todo → ∀ y, held c = some y → isIdentifier y := by
          intro c hc y hy
          obtain ⟨pre, post, rfl⟩ := List.append_of_mem hc
          have heq : before ++ .phrase a :: (pre ++ .phrase c :: post) =
              (before ++ .phrase a :: pre) ++ .phrase c :: post := by simp
          obtain ⟨-, m, rfl⟩ := hheld _ c post y heq hy
          exact isIdentifier_candidate (heq ▸ hcut).readable m
        have hdetached' : Detached ⟨spelled before, a.nested,
            spelled (accessor.pieces (spelled (exchanged held todo)))⟩ := by
          rw [spelled_pieces]
          exact hdetached.exchanged
        -- The rest is replaced first, so the call is exchanged in front of the rest as it is then.
        have hstep := covers_exchange (isCut_exchanged_behind hcut hidentifiers) hdetached' n
        have htext :
          spelled (before ++ .phrase a :: accessor.pieces (spelled (exchanged held todo))) =
            spelled (before ++ ([.phrase a] ++ exchanged held todo)) := by simp
        rw [htext, spelled_pieces] at hstep
        have hall := hrest.trans (hstep.append (.refl _))
        simpa [heldPieces, heldCalls, Piece.phrase?, Piece.text, hx] using hall

end Held

end ViewCompiler.Template
