import Mathlib.Data.List.Basic
import ViewCompiler.Expression.Paren
import ViewCompiler.Proofs.Expression.Reference

/-!
# Scanning an expression

An expression is scanned character by character: a quote opens a literal, a backslash in a literal
takes the next character away, and a parenthesis outside of literals opens or closes a group. The
state of the scan is where the next character stands (`Quoting`) and how many groups are open. Text
without quotes and parentheses and whole literals change nothing.

The reader of a group goes through these states too (`balance?_eq_find?`), so what it finds is told
of the scan: from a scan with a group open it is the first return to depth zero
(`find?_eq_some_iff_returns`), and the text up to it stays inside the group whatever stands behind
it (`find?_take`).
-/

namespace ViewCompiler.Expression

/-! ## One character -/

/-- Neither a quote nor a parenthesis. -/
def isPlainChar (c : Char) : Bool := !isQuote c && c != '(' && c != ')'

/-- Where a character stands: outside of literals, in one with this quote, or behind a backslash in
one. -/
inductive Quoting where
  | outside
  | inside (quote : Char)
  | escaped (quote : Char)
deriving DecidableEq

/-- Where the character behind this one stands. -/
def Quoting.step : Quoting → Char → Quoting
  | .outside, c => if isQuote c then .inside c else .outside
  | .inside quote, c =>
    if c = '\\' then .escaped quote else if c = quote then .outside else .inside quote
  | .escaped quote, _ => .inside quote

/-- A scan: where the next character stands, and how many groups are open. -/
structure Scan where
  quoting : Quoting
  depth : Int
deriving DecidableEq

/-- How many groups more are open behind a character that stands outside of literals. -/
def groupsOpened (c : Char) : Int := if c = '(' then 1 else if c = ')' then -1 else 0

namespace Scan

/-- Nothing is open. -/
def start : Scan := ⟨.outside, 0⟩

/-- The scan behind one more character. -/
def step (s : Scan) (c : Char) : Scan where
  quoting := s.quoting.step c
  depth := if s.quoting = .outside then s.depth + groupsOpened c else s.depth

/-- The scan behind a text. -/
def run (s : Scan) (cs : List Char) : Scan := cs.foldl step s

/-- Nothing is scanned in no steps. -/
@[simp] theorem run_nil (s : Scan) : s.run [] = s := rfl

/-- A text is scanned character by character. -/
@[simp] theorem run_cons (s : Scan) (c : Char) (cs : List Char) :
    s.run (c :: cs) = (s.step c).run cs := rfl

/-- Two texts are scanned one after the other. -/
@[simp] theorem run_append (s : Scan) (cs ds : List Char) :
    s.run (cs ++ ds) = (s.run cs).run ds := List.foldl_append

section Step

variable (depth : Int)

/-- A quote opens a literal. -/
theorem step_quote {c : Char} (h : isQuote c = true) :
    step ⟨.outside, depth⟩ c = ⟨.inside c, depth⟩ := by
  have hparens : c ≠ '(' ∧ c ≠ ')' := by
    constructor <;> rintro rfl <;> exact absurd h (by decide)
  simp [step, Quoting.step, groupsOpened, h, hparens.1, hparens.2]

/-- A parenthesis outside of literals closes one. -/
theorem step_close : step ⟨.outside, depth⟩ ')' = ⟨.outside, depth - 1⟩ := rfl

/-- A plain character changes nothing outside of literals. -/
theorem step_plain {c : Char} (h : isPlainChar c = true) :
    step ⟨.outside, depth⟩ c = ⟨.outside, depth⟩ := by
  simp only [isPlainChar, Bool.and_eq_true, Bool.not_eq_true', bne_iff_ne] at h
  simp [step, Quoting.step, groupsOpened, h.1.1, h.1.2, h.2]

/-- A backslash in a literal escapes the next character. -/
theorem step_backslash (quote : Char) :
    step ⟨.inside quote, depth⟩ '\\' = ⟨.escaped quote, depth⟩ := rfl

/-- Behind an escaped character the literal goes on. -/
theorem step_escaped (quote c : Char) :
    step ⟨.escaped quote, depth⟩ c = ⟨.inside quote, depth⟩ := rfl

/-- A literal goes on up to its quote. -/
theorem step_inside {quote c : Char} (hback : c ≠ '\\') :
    step ⟨.inside quote, depth⟩ c =
      ⟨if c = quote then .outside else .inside quote, depth⟩ := by
  simp [step, Quoting.step, hback]

end Step

/-! ## Texts that leave the scan as it was -/

/-- Text without quotes and parentheses opens and closes nothing. -/
theorem run_plain {plain : List Char} (h : ∀ c ∈ plain, isPlainChar c = true) (depth : Int) :
    run ⟨.outside, depth⟩ plain = ⟨.outside, depth⟩ := by
  induction plain with
  | nil => rfl
  | cons c plain ih =>
    obtain ⟨hc, hplain⟩ := List.forall_mem_cons.mp h
    rw [run_cons, step_plain depth hc, ih hplain]

/-- What stands between the quotes of a literal does not close it. -/
theorem run_inside {quote : Char} {inside : List Char} (h : Inside quote inside) (depth : Int) :
    run ⟨.inside quote, depth⟩ inside = ⟨.inside quote, depth⟩ := by
  induction h with
  | nil => rfl
  | escape c _ ih => rw [run_cons, run_cons, step_backslash, step_escaped, ih]
  | plain hback hquote _ ih => rw [run_cons, step_inside depth hback, if_neg hquote, ih]

/-- No group is opened or closed in a literal. -/
theorem depth_run_of_append_inside {quote : Char} {before after : List Char}
    (h : Inside quote (before ++ after)) (depth : Int) :
    (run ⟨.inside quote, depth⟩ before).depth = depth := by
  generalize htext : before ++ after = inside at h
  induction h generalizing before with
  | nil => rw [(List.append_eq_nil_iff.mp htext).1, run_nil]
  | escape c _ ih =>
    match before with
    | [] => rfl
    | [d] =>
      obtain ⟨rfl, -⟩ := List.cons.inj htext
      rfl
    | d :: e :: before =>
      obtain ⟨rfl, htail⟩ := List.cons.inj htext
      obtain ⟨rfl, hrest⟩ := List.cons.inj htail
      rw [run_cons, run_cons, step_backslash, step_escaped, ih hrest]
  | plain hback hquote _ ih =>
    match before with
    | [] => rfl
    | d :: before =>
      obtain ⟨rfl, htail⟩ := List.cons.inj htext
      rw [run_cons, step_inside depth hback, if_neg hquote, ih htail]

/-- A literal is closed where it ends. -/
theorem run_literal {l : Literal} (h : l.IsTerminated) (depth : Int) :
    run ⟨.outside, depth⟩ l.text = ⟨.outside, depth⟩ := by
  have hback : l.quote ≠ '\\' := by
    intro heq
    exact absurd (heq ▸ h.isQuote) (by decide)
  rw [Literal.text, run_cons, step_quote depth h.isQuote, run_append, run_inside h.inside,
    run_cons,
    step_inside depth hback, if_pos rfl, run_nil]

/-! ## Returns -/

/-- The text brings the depth back to zero, and only its last character does. -/
def Returns (s : Scan) (cs : List Char) : Prop :=
  (s.run cs).depth = 0 ∧
    ∀ before after, cs = before ++ after → after ≠ [] → 0 < (s.run before).depth

/-- At the end of the text the scan has returned exactly if nothing is open. -/
theorem returns_nil {s : Scan} : s.Returns [] ↔ s.depth = 0 := by
  refine ⟨fun h => h.1, fun h => ⟨h, fun before after htext hafter => ?_⟩⟩
  exact absurd (List.append_eq_nil_iff.mp htext.symm).2 hafter

/-- The scan returns at the end if something is open now and it returns from the next step. -/
theorem returns_cons {s : Scan} {c : Char} {cs : List Char} :
    s.Returns (c :: cs) ↔ 0 < s.depth ∧ (s.step c).Returns cs := by
  constructor
  · rintro ⟨hzero, hpos⟩
    refine ⟨hpos [] _ rfl (List.cons_ne_nil c cs), hzero, fun before after htext hafter => ?_⟩
    exact hpos (c :: before) after (by rw [htext, List.cons_append]) hafter
  · rintro ⟨hs, hzero, hpos⟩
    refine ⟨hzero, fun before after htext hafter => ?_⟩
    cases before with
    | nil => exact hs
    | cons d before =>
      obtain ⟨rfl, htail⟩ := List.cons.inj htext
      exact hpos before after htail hafter

/-! ## The search -/

/-- How far the text is to the first parenthesis that closes the one group open in front of it. -/
def find? (s : Scan) : List Char → Option Nat
  | [] => none
  | c :: cs => if c = ')' ∧ s = ⟨.outside, 1⟩ then some 0 else ((s.step c).find? cs).map (· + 1)

/-- The search goes on behind a character that does not close the last group. -/
theorem find?_cons {s : Scan} {c : Char} (h : ¬ (c = ')' ∧ s = ⟨.outside, 1⟩)) (cs : List Char) :
    s.find? (c :: cs) = ((s.step c).find? cs).map (· + 1) := by
  rw [find?, if_neg h]

/-- Inside a literal nothing closes a group. -/
theorem find?_cons_of_quoting {s : Scan} (h : s.quoting ≠ .outside) (c : Char) (cs : List Char) :
    s.find? (c :: cs) = ((s.step c).find? cs).map (· + 1) :=
  find?_cons (by rintro ⟨-, rfl⟩; exact h rfl) cs

/-- **The reader of a group searches through the states of the scan**, from inside of a literal or
outside and at any depth. -/
theorem balance?_eq_find? (quote : Option Char) (depth : Int) (cs : List Char) :
    balance? quote depth cs = find? ⟨quote.elim .outside .inside, depth⟩ cs := by
  fun_induction balance? quote depth cs with
  | case1 => rfl
  | case2 depth quote => rfl
  | case3 quote depth c cs ih =>
    -- The reader takes the backslash and the character behind it at once.
    rw [Option.elim_some, find?_cons_of_quoting (by simp), step_backslash,
      find?_cons_of_quoting (by simp), step_escaped, ih, Option.map_map]
    rfl
  | case4 quote depth c cs hnil hcons ih =>
    rw [Option.elim_some, find?_cons_of_quoting (by simp),
      step_inside depth (ne_backslash hnil hcons), ih]
    by_cases hquote : c = quote <;> simp [hquote]
  | case5 depth c cs hquote ih =>
    have hparen : c ≠ ')' := by
      rintro rfl
      exact absurd hquote (by decide)
    rw [Option.elim_none, find?_cons (fun h => hparen h.1), step_quote depth hquote, ih]
    rfl
  | case6 depth c cs hquote hopen ih =>
    obtain rfl := beq_iff_eq.mp hopen
    rw [Option.elim_none, find?_cons (by simp), ih]
    rfl
  | case7 depth c cs hquote hopen hclose hone =>
    rw [Option.elim_none, find?, if_pos ⟨beq_iff_eq.mp hclose, by rw [beq_iff_eq.mp hone]⟩]
  | case8 depth c cs hquote hopen hclose hone ih =>
    obtain rfl := beq_iff_eq.mp hclose
    have hdepth : (⟨.outside, depth⟩ : Scan) ≠ ⟨.outside, 1⟩ :=
      fun heq => hone (beq_iff_eq.mpr (congrArg Scan.depth heq))
    rw [Option.elim_none, find?_cons (fun h => hdepth h.2), step_close, ih]
    rfl
  | case9 depth c cs hquote hopen hclose ih =>
    have hplain : isPlainChar c = true := by
      simp [isPlainChar, Bool.eq_false_iff.mpr hquote, bne, Bool.eq_false_iff.mpr hopen,
        Bool.eq_false_iff.mpr hclose]
    rw [Option.elim_none, find?_cons (fun h => hclose (beq_iff_eq.mpr h.1)),
      step_plain depth hplain, ih]
    rfl

/-- A number that is counted one up was found one down. -/
theorem map_succ_eq_some_succ {found : Option Nat} {i : Nat} :
    found.map (· + 1) = some (i + 1) ↔ found = some i := by
  cases found <;> simp

/-- A group stays open behind a character that does not close the last one. -/
theorem depth_step_pos {s : Scan} {c : Char} (hs : 0 < s.depth)
    (h : ¬ (c = ')' ∧ s = ⟨.outside, 1⟩)) : 0 < (s.step c).depth := by
  obtain ⟨quoting, depth⟩ := s
  dsimp only at hs
  by_cases hout : quoting = .outside
  · subst hout
    by_cases hopen : c = '('
    · simp [step, groupsOpened, hopen]
      omega
    · by_cases hclose : c = ')'
      · have hne : depth ≠ 1 := by
          rintro rfl
          exact h ⟨hclose, rfl⟩
        simp [step, groupsOpened, hclose]
        omega
      · simpa [step, groupsOpened, hopen, hclose] using hs
  · simpa [step, hout] using hs

/-- **The parenthesis found with a group open is the first one that brings the depth back to
zero.** -/
theorem find?_eq_some_iff_returns {s : Scan} (hs : 0 < s.depth) (cs : List Char) (i : Nat) :
    s.find? cs = some i ↔ i < cs.length ∧ s.Returns (cs.take (i + 1)) := by
  induction cs generalizing s i with
  | nil => simp [find?]
  | cons c cs ih =>
    rw [List.take_succ_cons, returns_cons, List.length_cons]
    by_cases hlast : c = ')' ∧ s = ⟨.outside, 1⟩
    · obtain ⟨rfl, rfl⟩ := hlast
      rw [find?, if_pos ⟨rfl, rfl⟩, step_close]
      cases i with
      | zero => simp [returns_nil]
      | succ i =>
        -- No group is left open for one more character.
        cases cs with
        | nil => simp
        | cons d cs => simp [List.take_succ_cons, returns_cons]
    · have hstep := depth_step_pos hs hlast
      rw [find?_cons hlast]
      cases i with
      | zero => simp [returns_nil, Int.ne_of_gt hstep]
      | succ i =>
        rw [map_succ_eq_some_succ, ih hstep, Nat.succ_lt_succ_iff]
        simp [hs]

/-- **Up to the parenthesis that closes a group, the text stays inside the group whatever stands
behind it.** -/
theorem find?_take {s : Scan} {cs : List Char} {i : Nat} (h : s.find? cs = some i) :
    (∃ rest, cs = cs.take i ++ ')' :: rest) ∧
      ∀ other, s.find? (cs.take i ++ other) = (find? ⟨.outside, 1⟩ other).map (· + i) := by
  induction cs generalizing s i with
  | nil => cases h
  | cons c cs ih =>
    by_cases hlast : c = ')' ∧ s = ⟨.outside, 1⟩
    · rw [find?, if_pos hlast] at h
      obtain rfl := Option.some.inj h
      obtain ⟨rfl, rfl⟩ := hlast
      exact ⟨⟨cs, rfl⟩, fun other => Option.map_id'.symm⟩
    · rw [find?_cons hlast] at h
      obtain ⟨j, hj, rfl⟩ := Option.map_eq_some_iff.mp h
      obtain ⟨⟨rest, hrest⟩, hother⟩ := ih hj
      refine ⟨⟨rest, ?_⟩, fun other => ?_⟩
      · rw [List.take_succ_cons, List.cons_append, ← hrest]
      · rw [List.take_succ_cons, List.cons_append, find?_cons hlast, hother, Option.map_map]
        rfl

end Scan

end ViewCompiler.Expression
