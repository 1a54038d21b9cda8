import ViewCompiler.Project.Config
import ViewCompiler.Proofs.Path

/-!
# Settings that are resolved

Resolving settings replaces their paths by those of the places they lead to, which are canonical,
so resolving again changes nothing, whatever the root, and a project at those settings has exactly
these places (`resolve_once`). Which relative spellings lead to one place is told without following
them: by rules that leave out or put in what adds nothing to a path (`SameWay`).
-/

namespace ViewCompiler

/-! ## Relative spellings -/

/-- The parts of a text between slashes. -/
def partsOf (text : String) : List String := (text.toList.splitOn '/').map String.ofList

/-- The parts that are names: neither empty nor a dot. -/
def namesIn (parts : List String) : List String :=
  parts.filter fun part => part != "" && part != "."

/-- Two ways from a base, as parts between slashes, that name the same path: a dot and the nothing
between two slashes add nothing, a name and a step up from it cancel out, there is no step up from
the root, and the way up to the root and down again to the base leads nowhere. -/
inductive SameWay (base : Place) : List String → List String → Prop where
  | refl (parts : List String) : SameWay base parts parts
  | symm {parts others : List String} (h : SameWay base parts others) : SameWay base others parts
  | trans {parts others more : List String} (h : SameWay base parts others)
    (h' : SameWay base others more) : SameWay base parts more
  | dot (before after : List String) : SameWay base (before ++ "." :: after) (before ++ after)
  | slashes (before after : List String) : SameWay base (before ++ "" :: after) (before ++ after)
  | back {name : String} (h : IsFileName name) (before after : List String) :
    SameWay base (before ++ name :: ".." :: after) (before ++ after)
  | above {steps : Nat} (h : base.length ≤ steps) (after : List String) :
    SameWay base (List.replicate steps ".." ++ ".." :: after) (List.replicate steps ".." ++ after)
  | around (after : List String) :
    SameWay base (List.replicate base.length ".." ++ (base ++ after)) after

/-- Two lists of names are followed one after the other. -/
theorem climb_append (place : Place) (names others : List String) :
    climb place (names ++ others) = climb (climb place names) others := List.foldl_append

/-- Names are followed one by one. -/
theorem climb_cons (place : Place) (name : String) (names : List String) :
    climb place (name :: names) = climb (climb place [name]) names :=
      climb_append place [name] names

/-- Two dots lead one step up. -/
theorem climb_dots (place : Place) : climb place [".."] = place.dropLast := rfl

/-- Any other name leads down. -/
theorem climb_name {name : String} (h : name ≠ "..") (place : Place) :
    climb place [name] = place ++ [name] := by
  simp [climb, h]

/-- There is no step up from the root. -/
theorem climb_replicate_dots {place : Place} {steps : Nat} (h : place.length ≤ steps) :
    climb place (List.replicate steps "..") = [] := by
  induction steps generalizing place with
  | zero => exact List.eq_nil_of_length_eq_zero (Nat.le_zero.mp h)
  | succ steps ih =>
    rw [List.replicate_succ, climb_cons, climb_dots]
    refine ih ?_
    rw [List.length_dropLast]
    omega

/-- A resolved place has no two dots in it. -/
theorem IsResolved.dots_notMem {place : Place} (h : IsResolved place) : ".." ∉ place :=
  fun hmem => (h _ hmem).ne_dots rfl

/-- The names in two lists of parts are those in one and then those in the other. -/
theorem namesIn_append (parts others : List String) :
    namesIn (parts ++ others) = namesIn parts ++ namesIn others := List.filter_append ..

/-- Parts that are all names are the names in them. -/
theorem namesIn_eq_self {parts : List String} (h : ∀ part ∈ parts, part ≠ "" ∧ part ≠ ".") :
    namesIn parts = parts := by
  rw [namesIn, List.filter_eq_self]
  intro part hpart
  simpa using h part hpart

/-- Two dots are a name. -/
theorem namesIn_replicate_dots (steps : Nat) :
    namesIn (List.replicate steps "..") = List.replicate steps ".." := by
  refine namesIn_eq_self fun part hpart => ?_
  obtain rfl := List.eq_of_mem_replicate hpart
  decide

/-- All parts of a resolved place are names. -/
theorem IsResolved.namesIn {place : Place} (h : IsResolved place) : namesIn place = place :=
  namesIn_eq_self fun name hname => ⟨(h name hname).ne_empty, (h name hname).ne_dot⟩

/-- **Two ways that name the same path lead to the same place.** -/
theorem SameWay.climb_eq {base : Place} (hbase : IsResolved base) {parts others : List String}
    (h : SameWay base parts others) :
    climb base (namesIn parts) = climb base (namesIn others) := by
  induction h with
  | refl => rfl
  | symm _ ih => exact ih.symm
  | trans _ _ ih ih' => exact ih.trans ih'
  | dot before after => rw [namesIn_append, namesIn_append]; rfl
  | slashes before after => rw [namesIn_append, namesIn_append]; rfl
  | @back name hname before after =>
    have hnames : namesIn (name :: ".." :: after) = name :: ".." :: namesIn after := by
      rw [← List.singleton_append, namesIn_append,
        namesIn_eq_self (List.forall_mem_singleton.mpr ⟨hname.ne_empty, hname.ne_dot⟩)]
      rfl
    rw [namesIn_append, namesIn_append, hnames, climb_append, climb_append, climb_cons,
      climb_name hname.ne_dots, climb_cons, climb_dots, List.dropLast_concat]
  | @above steps hsteps after =>
    have hnames : namesIn (".." :: after) = ".." :: namesIn after := rfl
    rw [namesIn_append, namesIn_append, hnames, namesIn_replicate_dots, climb_append, climb_append,
      climb_replicate_dots hsteps]
    rfl
  | around after =>
    rw [namesIn_append, namesIn_append, namesIn_replicate_dots, hbase.namesIn, climb_append,
      climb_replicate_dots (Nat.le_refl _), climb_append, climb_eq_append hbase.dots_notMem,
      List.nil_append]

/-- Behind the way up to the root, a place and further parts name the place that the parts lead to.
-/
theorem SameWay.down {base place : Place} {parts : List String} (hplace : IsResolved place)
    (hparts : ∀ part ∈ namesIn parts, part ≠ ".." → IsFileName part) :
    SameWay base (List.replicate base.length ".." ++ (place ++ parts))
      (List.replicate base.length ".." ++ climb place (namesIn parts)) := by
  induction parts generalizing place with
  | nil =>
    rw [List.append_nil]
    exact .refl _
  | cons part parts ih =>
    have hassoc : List.replicate base.length ".." ++ (place ++ part :: parts) =
        (List.replicate base.length ".." ++ place) ++ part :: parts := by rw [List.append_assoc]
    by_cases hname : part != "" && part != "."
    · have hnames : namesIn (part :: parts) = part :: namesIn parts :=
        List.filter_cons_of_pos hname
      rw [hnames] at hparts ⊢
      obtain ⟨hpart, hrest⟩ := List.forall_mem_cons.mp hparts
      rw [climb_cons]
      by_cases hdots : part = ".."
      · subst hdots
        rw [climb_dots]
        obtain rfl | ⟨above, last, hconcat⟩ := List.eq_nil_or_concat place
        · exact (SameWay.above (Nat.le_refl _) parts).trans (ih hplace hrest)
        · rw [List.concat_eq_append] at hconcat
          subst hconcat
          have habove : IsResolved above :=
            fun name hmem => hplace name (List.mem_append_left _ hmem)
          have hlast : IsFileName last :=
            hplace last (List.mem_append_right _ (List.mem_singleton_self last))
          rw [List.dropLast_concat, List.append_assoc, List.singleton_append, ← List.append_assoc]
          refine (SameWay.back hlast _ parts).trans ?_
          rw [List.append_assoc]
          exact ih habove hrest
      · rw [climb_name hdots, List.append_cons]
        exact ih (List.forall_mem_append.mpr
          ⟨hplace, List.forall_mem_singleton.mpr (hpart hdots)⟩) hrest
    · have hnames : namesIn (part :: parts) = namesIn parts := List.filter_cons_of_neg hname
      rw [hnames] at hparts ⊢
      rw [hassoc]
      have hskip : SameWay base ((List.replicate base.length ".." ++ place) ++ part :: parts)
          ((List.replicate base.length ".." ++ place) ++ parts) := by
        by_cases hempty : part = ""
        · exact hempty ▸ .slashes _ _
        · have hdot : part = "." := by simpa [hempty] using hname
          exact hdot ▸ .dot _ _
      refine hskip.trans ?_
      rw [List.append_assoc]
      exact ih hplace hparts

/-- The names of a path that is read are those among its parts. -/
theorem names_ofText (text : String) : (Path.ofText text).names = namesIn (partsOf text) := rfl

/-- A name in a text that is not two dots is that of a file or a folder. -/
theorem isFileName_of_mem_namesIn {text part : String} (h : part ∈ namesIn (partsOf text))
    (hdots : part ≠ "..") :
    IsFileName part := isFileName_of_mem_ofText (names_ofText text ▸ h) hdots

/-- A relative path is followed from the base. -/
theorem place_of_here {path : Path} (h : path.start = .here) (base : Place) :
    path.place base = climb base path.names := by
  rw [Path.place, h]

/-- **Relative texts lead to the same place exactly if they name the same path.** -/
theorem placeOfText_eq_iff {base : Place} (hbase : IsResolved base) {text other : String}
    (htext : (Path.ofText text).start = .here) (hother : (Path.ofText other).start = .here) :
    placeOfText base text = placeOfText base other ↔
      SameWay base (partsOf text) (partsOf other) := by
  rw [placeOfText, placeOfText, place_of_here htext, place_of_here hother, names_ofText,
    names_ofText]
  refine ⟨fun heq => ?_, fun h => h.climb_eq hbase⟩
  have hdown (text : String) : SameWay base (partsOf text)
      (List.replicate base.length ".." ++ climb base (namesIn (partsOf text))) :=
    (SameWay.around (partsOf text)).symm.trans
      (.down hbase fun _ => isFileName_of_mem_namesIn)
  exact (hdown text).trans (heq ▸ (hdown other).symm)

/-! ## Resolving -/

/-- The path starts at the root, and its names are those of files and folders: none is empty, a dot
or two dots. -/
structure Path.IsCanonical (path : Path) : Prop where
  start_eq : path.start = .root
  isResolved : IsResolved path.names

/-- The path of a resolved place is canonical. -/
theorem isCanonical_ofPlace {place : Place} (h : IsResolved place) :
    (Path.ofPlace place).IsCanonical := ⟨rfl, h⟩

/-- A path that starts at a root leads to one place from everywhere. -/
theorem place_eq_of_start_ne {path : Path} (h : path.start ≠ .here) (base other : Place) :
    path.place base = path.place other := by
  rw [Path.place, Path.place]
  cases hstart : path.start with
  | here => exact absurd hstart h
  | root | secondRoot => rfl

/-- **Settings are resolved once and for all.** The paths of settings are read from texts, and so
are the roots, which are followed from where the process is. Resolved settings have canonical paths
and stay as they are when they are resolved again; a path that starts at a root is resolved to the
same path for every root; two relative paths are resolved to the same path exactly if they name the
same; and the places of a project at resolved settings are those of its paths. -/
theorem resolve_once {config resolved : Config} {here : Place} {views cache root : String}
    (hviews : config.views = .ofText views) (hcache : config.cache = .ofText cache)
    (hhere : IsResolved here) (hresolved : resolved = config.resolve (placeOfText here root)) :
    (∀ other, resolved.resolve (placeOfText here other) = resolved) ∧
      resolved.views.IsCanonical ∧ resolved.cache.IsCanonical ∧
      (config.views.start ≠ .here →
        ∀ other, (config.resolve (placeOfText here other)).views = resolved.views) ∧
      (config.cache.start ≠ .here →
        ∀ other, (config.resolve (placeOfText here other)).cache = resolved.cache) ∧
      (∀ spelling, config.views.start = .here → (Path.ofText spelling).start = .here →
        (({ config with views := .ofText spelling }.resolve (placeOfText here root)).views =
            resolved.views ↔
          SameWay (placeOfText here root) (partsOf spelling) (partsOf views))) ∧
      (∀ spelling, config.cache.start = .here → (Path.ofText spelling).start = .here →
        (({ config with cache := .ofText spelling }.resolve (placeOfText here root)).cache =
            resolved.cache ↔
          SameWay (placeOfText here root) (partsOf spelling) (partsOf cache))) ∧
      ∀ elsewhere, Path.ofPlace (resolved.project elsewhere).views = resolved.views ∧
        Path.ofPlace (resolved.project elsewhere).cache = resolved.cache := by
  have hbase : IsResolved (placeOfText here root) := hhere.placeOfText root
  have hviewsPlace : IsResolved (config.views.place (placeOfText here root)) := by
    rw [hviews]
    exact hbase.placeOfText views
  have hcachePlace : IsResolved (config.cache.place (placeOfText here root)) := by
    rw [hcache]
    exact hbase.placeOfText cache
  have hinjective {place place' : Place} : Path.ofPlace place = Path.ofPlace place' ↔
      place = place' := by
    simp [Path.ofPlace]
  subst hresolved
  refine ⟨fun other => ?_, isCanonical_ofPlace hviewsPlace, isCanonical_ofPlace hcachePlace,
    fun h other => congrArg Path.ofPlace (place_eq_of_start_ne h _ _),
    fun h other => congrArg Path.ofPlace (place_eq_of_start_ne h _ _),
    fun spelling h hspelling => ?_, fun spelling h hspelling => ?_, fun elsewhere => ?_⟩
  · simp only [Config.resolve, Path.place_ofPlace hviewsPlace.dots_notMem,
      Path.place_ofPlace hcachePlace.dots_notMem]
  · refine hinjective.trans ?_
    rw [hviews] at h ⊢
    exact placeOfText_eq_iff hbase hspelling h
  · refine hinjective.trans ?_
    rw [hcache] at h ⊢
    exact placeOfText_eq_iff hbase hspelling h
  · simp only [Config.resolve, Config.project, Path.place_ofPlace hviewsPlace.dots_notMem,
      Path.place_ofPlace hcachePlace.dots_notMem, and_self]

/-- Settings with more steps up than there are folders above `/home/r`, and with a path from the
root. -/
def climbingConfig : Config where
  views := .ofText "../../../v//./w"
  cache := .ofText "/c/../d"

/-- They are resolved once, and their views can be spelled with other detours. -/
theorem resolve_once_climbing :
    (climbingConfig.resolve (placeOfText ["home"] "r")).views.text = "/v/w" ∧
      (climbingConfig.resolve (placeOfText ["home"] "r")).resolve (placeOfText ["home"] "../q") =
        climbingConfig.resolve (placeOfText ["home"] "r") ∧
      (climbingConfig.resolve (placeOfText ["home"] "../q")).cache =
        (climbingConfig.resolve (placeOfText ["home"] "r")).cache ∧
      SameWay (placeOfText ["home"] "r") (partsOf "../..//v/x/../w/")
        (partsOf "../../../v//./w") :=
  by
  obtain ⟨hagain, -, -, -, hcache, hviews, -, -⟩ :=
    @resolve_once climbingConfig _ ["home"] "../../../v//./w" "/c/../d" "r" rfl rfl (by decide) rfl
  refine ⟨by decide +kernel, hagain "../q", hcache (by decide +kernel) "../q", ?_⟩
  exact (hviews "../..//v/x/../w/" (by decide +kernel) (by decide +kernel)).mp (by decide +kernel)

end ViewCompiler
