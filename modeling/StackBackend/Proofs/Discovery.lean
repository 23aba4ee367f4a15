import Mathlib.Data.List.Find
import StackBackend.Host.Simulated
import StackBackend.Proofs.Ancestors
import StackBackend.Proofs.Results

/-! Where the settings for an input are looked for.

The search climbs the path of the input as it is written. A path that can be followed passes through
directories only (`Reaches`), and each of its ancestors stops at one of those that it has `passed`,
so what is found is the settings file of the last of these that has one (`discovers_passed`). Where
the path never turns back these are the input's directory and the directories above it, as far up as
the place where the path starts; that is all of them for an absolute path only
(`discoverSettings_nearest`). Otherwise the rule that settings govern everything below them fails in
both ways: settings above the working directory are not seen, and those of a directory that the path
leaves again are (`discovery_not_upward`). -/
namespace StackBackend.World

open StackBackend.Path (isSilent)

/-! ### Following a path -/

/-- The place that a segment leads to. -/
def stepTo (segment : List Char) (here : Place) : Place :=
  if isSilent segment then here
  else if segment = ['.', '.'] then here.tail
  else String.ofList segment :: here

/-- Some segments lead to a directory. -/
def Reaches (w : World) (start : Place) (segments : List (List Char)) (here : Place) : Prop :=
  w.walk start segments = .ok here ∧ w.enter here = .ok ()

section Walk
variable {w : World} {start here : Place} {segments : List (List Char)}

theorem walk_cons_eq_ok {s : List Char} : w.walk start (s :: segments) = .ok here ↔
    w.enter start = .ok () ∧ (isSilent s ∨ s = ['.', '.'] ∨ checkName s = .ok ()) ∧
      w.walk (stepTo s start) segments = .ok here := by
  rw [walk, check_eq_ok, stepTo]
  split
  next hsilent => simp [hsilent]
  next hnamed =>
    split
    next hup => simp [hup]
    next hup => simp [hnamed, hup, check_eq_ok]

theorem walk_eq (h : w.walk start segments = .ok here) :
    here = segments.reverse.foldr stepTo start := by
  induction segments generalizing start with
  | nil => exact (Except.ok.inj h).symm
  | cons s segments ih =>
    obtain ⟨-, -, h⟩ := walk_cons_eq_ok.mp h
    rw [ih h, List.reverse_cons, List.foldr_append, List.foldr_cons, List.foldr_nil]

theorem walk_append {front back : List (List Char)} : w.walk start (front ++ back) = .ok here ↔
    ∃ between, w.walk start front = .ok between ∧ w.walk between back = .ok here := by
  induction front generalizing start with
  | nil => simp [walk]
  | cons s front ih => simp [walk_cons_eq_ok, ih, and_assoc]

/-- A way to a directory starts at a directory. -/
theorem Reaches.enter (h : w.Reaches start segments here) : w.enter start = .ok () := by
  obtain ⟨hwalk, henter⟩ := h
  cases segments with
  | nil =>
    obtain rfl := Except.ok.inj hwalk
    exact henter
  | cons s segments => exact (walk_cons_eq_ok.mp hwalk).1

theorem Reaches.front {front back : List (List Char)} (h : w.Reaches start (front ++ back) here) :
    w.Reaches start front (front.reverse.foldr stepTo start) := by
  obtain ⟨between, hfront, hback⟩ := walk_append.mp h.1
  obtain rfl := walk_eq hfront
  exact ⟨hfront, Reaches.enter ⟨hback, h.2⟩⟩

/-- Silent segments make no difference. -/
theorem reaches_filter :
    w.Reaches start (segments.filter (!isSilent ·)) here ↔ w.Reaches start segments here := by
  induction segments generalizing start with
  | nil => rfl
  | cons s segments ih =>
    by_cases hs : isSilent s
    · rw [List.filter_cons_of_neg (by simp [hs]), ih]
      have hstay : stepTo s start = start := by simp [stepTo, hs]
      constructor
      · intro h
        exact ⟨walk_cons_eq_ok.mpr ⟨h.enter, .inl hs, hstay.symm ▸ h.1⟩, h.2⟩
      · intro h
        exact ⟨hstay ▸ (walk_cons_eq_ok.mp h.1).2.2, h.2⟩
    · rw [List.filter_cons_of_pos (by simp [hs])]
      simp only [Reaches, walk_cons_eq_ok, and_assoc] at ih ⊢
      rw [ih]

end Walk

/-! ### Passing and climbing -/

/-- The directories that the path of a file passes, the one that the file is in first. -/
def passed (w : World) (input : Path) : List Place :=
  (segmentsOf input).reverse.tail.scanr stepTo (w.startOf input)

theorem passed_eq {w : World} {input : Path} {front : List (List Char)} {name : List Char}
    (h : segmentsOf input = front ++ [name]) :
    w.passed input = front.reverse.scanr stepTo (w.startOf input) := by
  rw [passed, h, List.reverse_append, List.reverse_singleton, List.singleton_append, List.tail_cons]

/-- A place and everything above it. -/
def upward : Place → List Place
  | [] => [[]]
  | name :: up => (name :: up) :: upward up

def hasSettings (w : World) (dir : Place) : Bool := (w.entry? (Settings.fileName :: dir)).isSome

theorem foldr_filter_silent (start : Place) (segments : List (List Char)) :
    (segments.filter (!isSilent ·)).foldr stepTo start = segments.foldr stepTo start := by
  rw [List.foldr_filter]
  congr 1
  funext s here
  by_cases hs : isSilent s <;> simp [stepTo, hs]

/-- Directories that are passed twice in a row are as good as passed once. -/
theorem find?_scanr_filter (has : Place → Bool) (start : Place) (segments : List (List Char)) :
    ((segments.filter (!isSilent ·)).scanr stepTo start).find? has =
      (segments.scanr stepTo start).find? has := by
  induction segments with
  | nil => rfl
  | cons s segments ih =>
    by_cases hs : isSilent s
    · have hstay : (s :: segments).foldr stepTo start = segments.foldr stepTo start := by
        simp [stepTo, hs]
      rw [List.filter_cons_of_neg (by simp [hs]), ih, List.scanr_cons, hstay]
      cases hhas : has (segments.foldr stepTo start) with
      | false => rw [List.find?_cons_of_neg (by simp [hhas])]
      | true => rw [List.find?_cons_of_pos hhas, Path.scanr_eq, List.find?_cons_of_pos hhas]
    · rw [List.filter_cons_of_pos (by simp [hs]), List.scanr_cons, List.scanr_cons, List.foldr_cons,
        List.foldr_cons, foldr_filter_silent, List.find?_cons, List.find?_cons, ih]

theorem mem_upward {d p : Place} (h : d ∈ upward p) : d <:+ p := by
  induction p with
  | nil => simpa [upward] using h
  | cons name up ih =>
    rcases List.mem_cons.mp h with rfl | h
    · exact List.suffix_rfl
    · exact (ih h).trans (List.suffix_cons ..)

/-- A path that never turns back passes the directories between its ends. -/
theorem filter_upward (start : Place) {segments : List (List Char)}
    (h : ∀ s ∈ segments, ¬ isSilent s ∧ s ≠ ['.', '.']) :
    (upward (segments.foldr stepTo start)).filter start.isSuffixOf = segments.scanr stepTo start ∧
      start <:+ segments.foldr stepTo start := by
  induction segments with
  | nil =>
    refine ⟨?_, List.suffix_rfl⟩
    cases start with
    | nil => rfl
    | cons name up =>
      have hnone : (upward up).filter (name :: up).isSuffixOf = [] := by
        refine List.filter_eq_nil_iff.mpr fun d hd hsuffix => ?_
        have habove := (mem_upward hd).length_le
        have hbelow := (List.isSuffixOf_iff_suffix.mp hsuffix).length_le
        rw [List.length_cons] at hbelow
        omega
      have hself : (name :: up).isSuffixOf (name :: up) :=
        List.isSuffixOf_iff_suffix.mpr List.suffix_rfl
      rw [List.foldr_nil, List.scanr_nil, upward, List.filter_cons_of_pos hself, hnone]
  | cons s segments ih =>
    obtain ⟨⟨hnamed, hforth⟩, hsegments⟩ := List.forall_mem_cons.mp h
    obtain ⟨hfilter, hsuffix⟩ := ih hsegments
    have hstep : (s :: segments).foldr stepTo start =
        String.ofList s :: segments.foldr stepTo start := by
      simp [stepTo, hnamed, hforth]
    have hlonger := hsuffix.trans (List.suffix_cons (String.ofList s) _)
    rw [List.scanr_cons, hstep, upward,
      List.filter_cons_of_pos (List.isSuffixOf_iff_suffix.mpr hlonger), hfilter]
    exact ⟨rfl, hlonger⟩

/-! ### Searching -/

theorem slash_not_mem_fileName : '/' ∉ Settings.fileName.toList := by decide

/-- The settings file of a directory, under the path of the directory. -/
theorem find_settings {w : World} {dir : Path} {here : Place}
    (hreach : w.Reaches (w.startOf dir) dir.names here)
    (hlen : Text.byteLength (dir.join ⟨Settings.fileName⟩).text.toList ≤ longestPath) :
    w.find (dir.join ⟨Settings.fileName⟩) = (w.entry? (Settings.fileName :: here)).elim
      (.error .notFound) fun e => .ok (Settings.fileName :: here, e) := by
  obtain ⟨front, hsegments, hfront⟩ := Path.segments_join slash_not_mem_fileName dir
  have hempty : (dir.join ⟨Settings.fileName⟩).text ≠ "" := by
    intro h
    have htext := Path.text_join slash_not_mem_fileName dir
    rw [h] at htext
    have hname : Settings.fileName.toList ≠ [] := by decide
    simp [hname] at htext
  have hcheck : checkPath (dir.join ⟨Settings.fileName⟩) = .ok () := by
    rw [checkPath, if_neg hempty, if_neg (Nat.not_lt.mpr hlen)]
  have hstart : w.startOf (dir.join ⟨Settings.fileName⟩) = w.startOf dir := by
    rw [startOf, startOf, Path.isAbsolute_join slash_not_mem_fileName]
  have hwalk : w.walk (w.startOf dir) (front ++ [Settings.fileName.toList]) =
      .ok (Settings.fileName :: here) := by
    rw [← hfront, reaches_filter] at hreach
    have hlast : w.walk here [Settings.fileName.toList] = .ok (Settings.fileName :: here) :=
      walk_cons_eq_ok.mpr ⟨hreach.2, .inr (.inr rfl), rfl⟩
    exact walk_append.mpr ⟨here, hreach.1, hlast⟩
  rw [find, hcheck, hstart, hsegments, hwalk]
  simp only [bind, Except.bind]
  cases w.entry? (Settings.fileName :: here) <;> rfl

/-- Whether the search sees something under a path. -/
def sees (w : World) (p : Path) : Bool := !Text.hasNul p.text && w.isThere p

theorem run_isThere (w : World) (p : Path) :
    (Build.isThere p : StateM World Bool).run w = (w.sees p, w) := by
  unfold Build.isThere sees
  cases Text.hasNul p.text <;> rfl

theorem run_firstThere (w : World) (paths : List Path) :
    (Build.firstThere paths : StateM World (Option Path)).run w = (paths.find? w.sees, w) := by
  induction paths with
  | nil => rfl
  | cons p paths ih =>
    rw [Build.firstThere, StateT.run_bind, run_isThere]
    cases hp : w.sees p with
    | true =>
      rw [List.find?_cons_of_pos hp]
      rfl
    | false =>
      rw [List.find?_cons_of_neg (by simp [hp])]
      exact ih

/-- The settings of the file under a path. -/
def loading (w : World) (file : Path) : Except Diagnostic (Option Settings) × World :=
  (do return (← Build.loadSettings file).map some : StateM World _).run w

/-- The settings for an input. -/
def discovery (w : World) (input : Path) : Except Diagnostic (Option Settings) × World :=
  (Build.discoverSettings input : StateM World _).run w

theorem discovery_eq (w : World) (input : Path) : w.discovery input =
    (((Build.directoryOf input).ancestors.map (·.join ⟨Settings.fileName⟩)).find? w.sees).elim
      (.ok none, w) w.loading := by
  rw [discovery, Build.discoverSettings, Build.findSettings, StateT.run_bind, run_firstThere]
  cases List.find? _ _ <;> rfl

/-- The settings for an input are those of the first of some directories that has a settings
file. -/
def DiscoversIn (w : World) (input : Path) (dirs : List Place) : Prop :=
  match dirs.find? w.hasSettings with
  | none => w.discovery input = (.ok none, w)
  | some dir => ∃ file e, w.find file = .ok (Settings.fileName :: dir, e) ∧
      w.discovery input = w.loading file

/-- A path that names something in the directory at `here`, whether it is there or not. -/
def NamesIn (w : World) (input : Path) (here : Place) : Prop :=
  ∃ front name, segmentsOf input = front ++ [name] ∧ ¬ isSilent name ∧ name ≠ ['.', '.'] ∧
    w.Reaches (w.startOf input) front here

section Search
variable {w : World} {input dir : Path} {here : Place} {front : List (List Char)} {name : List Char}
  (hsegments : segmentsOf input = front ++ [name]) (hname : ¬ isSilent name)
  (hreach : w.Reaches (w.startOf input) front here) (hnul : Text.hasNul input.text = false)
  (hlen : Text.byteLength ((Build.directoryOf input).join ⟨Settings.fileName⟩).text.toList ≤
    longestPath)
  (hdir : dir ∈ (Build.directoryOf input).ancestors)

include hsegments hname hnul hdir in
theorem hasNul_join : Text.hasNul (dir.join ⟨Settings.fileName⟩).text = false := by
  have hinput : Char.ofNat 0 ∉ input.text.toList := by simpa [Text.hasNul] using hnul
  have hout : Char.ofNat 0 ∉ (Build.directoryOf input).text.toList := by
    rcases (Path.directoryOf_spec hsegments hname).2.2 with hdot | hmem
    · rw [hdot]
      decide
    · exact fun h => hinput ((Path.text_ancestors hmem).subset h)
  have hslash : Char.ofNat 0 ∉ dir.slashAfter := by
    unfold Path.slashAfter
    split <;> decide
  have hfile : Char.ofNat 0 ∉ Settings.fileName.toList := by decide
  have hdirText : Char.ofNat 0 ∉ dir.text.toList :=
    fun h => hout ((Path.text_ancestors hdir).subset h)
  rw [Text.hasNul, Path.text_join slash_not_mem_fileName]
  simp [hdirText, hslash, hfile]

include hsegments hname hreach hlen hdir in
/-- Each place that is searched is a directory on the way. -/
theorem find_candidate : w.find (dir.join ⟨Settings.fileName⟩) =
    (w.entry? (Settings.fileName :: dir.names.reverse.foldr stepTo (w.startOf input))).elim
      (.error .notFound)
      fun e => .ok (Settings.fileName :: dir.names.reverse.foldr stepTo (w.startOf input), e) := by
  obtain ⟨hnames, habsolute, -⟩ := Path.directoryOf_spec hsegments hname
  have hstart : w.startOf dir = w.startOf input := by
    rw [startOf, startOf, Path.isAbsolute_ancestors hdir, habsolute]
  obtain ⟨back, hback⟩ := Path.names_ancestors hdir
  rw [← reaches_filter, ← hnames, ← hback] at hreach
  have hfind := find_settings (hstart ▸ hreach.front)
    (Nat.le_trans (Path.byteLength_join slash_not_mem_fileName hdir) hlen)
  rwa [hstart] at hfind

include hsegments hname hreach hnul hlen hdir in
theorem sees_candidate : w.sees (dir.join ⟨Settings.fileName⟩) =
    w.hasSettings (dir.names.reverse.foldr stepTo (w.startOf input)) := by
  rw [sees, hasNul_join hsegments hname hnul hdir, isThere, locate,
    find_candidate hsegments hname hreach hlen hdir, hasSettings]
  cases w.entry? _ <;> rfl

end Search

theorem find?_scanr_append (has : Place → Bool) (start : Place) (segments : List (List Char))
    {again : List Place} (h : ∀ d ∈ again, d = start) :
    (segments.scanr stepTo start ++ again).find? has = (segments.scanr stepTo start).find? has := by
  have hstart : start ∈ segments.scanr stepTo start := by
    induction segments with
    | nil => exact List.mem_singleton_self _
    | cons s segments ih =>
      rw [List.scanr_cons]
      exact List.mem_cons_of_mem _ ih
  rw [List.find?_append]
  cases hfind : (segments.scanr stepTo start).find? has with
  | some d => rfl
  | none =>
    rw [Option.none_or, List.find?_eq_none]
    intro d hd
    rw [h d hd]
    exact List.find?_eq_none.mp hfind start hstart

/-- The settings are those of the last directory with some that the path has passed. -/
theorem discovers_passed {w : World} {input : Path} {here : Place} (hin : w.NamesIn input here)
    (hnul : Text.hasNul input.text = false)
    (hlen : Text.byteLength ((Build.directoryOf input).join ⟨Settings.fileName⟩).text.toList ≤
      longestPath) : w.DiscoversIn input (w.passed input) := by
  obtain ⟨front, name, hsegments, hname, -, hreach⟩ := hin
  have hnames := (Path.directoryOf_spec hsegments hname).1
  have hsees : ∀ dir ∈ (Build.directoryOf input).ancestors,
      (w.sees ∘ (·.join ⟨Settings.fileName⟩)) dir =
        (w.hasSettings ∘ (·.names.reverse.foldr stepTo (w.startOf input))) dir :=
    fun dir hdir => sees_candidate hsegments hname hreach hnul hlen hdir
  have hpassed : (w.passed input).find? w.hasSettings = ((Build.directoryOf input).ancestors.map
      (·.names.reverse.foldr stepTo (w.startOf input))).find? w.hasSettings := by
    rw [passed_eq hsegments, ← find?_scanr_filter, List.filter_reverse, ← hnames,
      Path.map_ancestors, find?_scanr_append]
    intro d hd
    split at hd
    next => exact List.mem_singleton.mp hd
    next => cases hd
  rw [DiscoversIn, hpassed, discovery_eq, List.find?_map, List.find?_map,
    List.find?_congr hsees]
  cases hfound : List.find? _ (Build.directoryOf input).ancestors with
  | none => rfl
  | some dir =>
    have hdir := List.mem_of_find?_eq_some hfound
    have hhas := List.find?_some hfound
    obtain ⟨e, he⟩ := Option.isSome_iff_exists.mp hhas
    refine ⟨dir.join ⟨Settings.fileName⟩, e, ?_, rfl⟩
    rw [find_candidate hsegments hname hreach hlen hdir, he]
    rfl

theorem DiscoversIn.congr {w : World} {input : Path} {dirs dirs' : List Place}
    (h : w.DiscoversIn input dirs) (heq : dirs.find? w.hasSettings = dirs'.find? w.hasSettings) :
    w.DiscoversIn input dirs' := by
  rwa [DiscoversIn, ← heq]

/-- **Where settings are found.** For an input in an existing directory, the settings are those of
the last directory with a settings file that its path passes, and there are none when no directory
that it passes has one. When the path nowhere turns back, these are the directory of the input and
the directories above it, up to where the path starts. So the nearest settings above the input are
found for absolute paths, and for all when the working directory is the root. -/
theorem discoverSettings_nearest {w : World} {input : Path} {here : Place}
    (hin : w.NamesIn input here) (hnul : Text.hasNul input.text = false)
    (hlen : Text.byteLength ((Build.directoryOf input).join ⟨Settings.fileName⟩).text.toList ≤
      longestPath) :
    w.DiscoversIn input (w.passed input) ∧
    (['.', '.'] ∉ segmentsOf input →
      w.DiscoversIn input ((upward here).filter (w.startOf input).isSuffixOf) ∧
      (input.isAbsolute ∨ w.cwd = [] → w.DiscoversIn input (upward here))) := by
  have hpassed := discovers_passed hin hnul hlen
  refine ⟨hpassed, fun hforth => ?_⟩
  obtain ⟨front, name, hsegments, -, -, hreach⟩ := hin
  have hnamed : ∀ s ∈ front.reverse.filter (!isSilent ·), ¬ isSilent s ∧ s ≠ ['.', '.'] := by
    intro s hs
    obtain ⟨hmem, hsilent⟩ := List.mem_filter.mp hs
    refine ⟨by simpa using hsilent, ?_⟩
    rintro rfl
    exact hforth (hsegments ▸ List.mem_append_left _ (List.mem_reverse.mp hmem))
  have hhere : here = (front.reverse.filter (!isSilent ·)).foldr stepTo (w.startOf input) := by
    rw [foldr_filter_silent, ← walk_eq hreach.1]
  have hbetween : (upward here).filter (w.startOf input).isSuffixOf =
      (front.reverse.filter (!isSilent ·)).scanr stepTo (w.startOf input) := by
    rw [hhere, (filter_upward _ hnamed).1]
  have hfound : w.DiscoversIn input ((upward here).filter (w.startOf input).isSuffixOf) := by
    refine hpassed.congr ?_
    rw [hbetween, find?_scanr_filter, passed_eq hsegments]
  refine ⟨hfound, fun hroot => ?_⟩
  have hstart : w.startOf input = [] := by
    rcases hroot with habsolute | hcwd
    · rw [startOf, if_pos habsolute]
    · rw [startOf, hcwd, ite_self]
  rwa [hstart, List.filter_eq_self.mpr fun d _ => List.isSuffixOf_iff_suffix.mpr List.nil_suffix]
    at hfound

/-- Settings at two levels above a program. -/
def nested : World where
  entries := [(["stackasm.toml"], .file [] false), (["a"], .directory),
    (["stackasm.toml", "a"], .file [] false), (["b", "a"], .directory),
    (["prog.ir", "b", "a"], .file [] false)]
  cwd := ["b", "a"]
  environment := []
  search := []
  journal := []

theorem nested_nearest : ∃ file e, nested.find file = .ok (["stackasm.toml", "a"], e) ∧
    nested.discovery ⟨"/a/./b//prog.ir"⟩ = nested.loading file := by
  have hin : nested.NamesIn ⟨"/a/./b//prog.ir"⟩ ["b", "a"] :=
    ⟨[[], ['a'], ['.'], ['b'], []], "prog.ir".toList, by decide, by decide, by decide, rfl, rfl⟩
  have hforth := (discoverSettings_nearest hin (by decide) (by decide)).2 (by decide)
  exact hforth.2 (.inl (by decide))

/-! ### Settings that do not govern what is below them -/

/-- Everything is in a directory, and so is the program that runs. -/
def IsTree (w : World) : Prop :=
  (∀ x ∈ w.entries, w.entry? x.1.tail = some .directory) ∧ w.entry? w.cwd = some .directory

theorem loading_ne_none (w : World) (file : Path) : (w.loading file).1 ≠ .ok none := by
  have hmap : (w.loading file).1 = ((Build.loadSettings file : StateM World _).run w).1.map some :=
    rfl
  rw [hmap]
  cases ((Build.loadSettings file : StateM World _).run w).1 <;> simp [Except.map]

theorem DiscoversIn.find?_eq_none_iff {w : World} {input : Path} {dirs : List Place}
    (h : w.DiscoversIn input dirs) :
    dirs.find? w.hasSettings = none ↔ (w.discovery input).1 = .ok none := by
  unfold DiscoversIn at h
  split at h
  next hnone => simp [hnone, h]
  next dir hsome =>
    obtain ⟨file, e, -, hload⟩ := h
    rw [hsome, hload]
    exact iff_of_false (by simp) (loading_ne_none w file)

/-- A settings file that asks for two registers. -/
def twoRegisters : Entry := .file (Text.Utf8.encode "[target]\nregisters = 2\n") false

/-- A program beside the directory that it is compiled from, which has settings. -/
def beside : World where
  entries := [(["prog.ir"], .file [] false), (["sub"], .directory),
    (["stackasm.toml", "sub"], twoRegisters)]
  cwd := ["sub"]
  environment := []
  search := []
  journal := []

/-- A program compiled from its own directory, with settings one level above. -/
def below : World where
  entries := [(["stackasm.toml"], twoRegisters), (["sub"], .directory),
    (["prog.ir", "sub"], .file [] false)]
  cwd := ["sub"]
  environment := []
  search := []
  journal := []

/-- **Settings do not govern all that is below them, and not only that.** The settings of a
directory that the path of an input leaves by `..` are loaded although the input is not in it, and
those of a directory above the working directory are not found for a relative path. -/
theorem discovery_not_upward :
    (beside.IsTree ∧ beside.find ⟨"../prog.ir"⟩ = .ok (["prog.ir"], .file [] false) ∧
      (beside.discovery ⟨"../prog.ir"⟩).1 = .ok (some {root := ⟨""⟩, registers := some 2}) ∧
      ¬ beside.DiscoversIn ⟨"../prog.ir"⟩ (upward [])) ∧
    (below.IsTree ∧ below.find ⟨"prog.ir"⟩ = .ok (["prog.ir", "sub"], .file [] false) ∧
      (below.discovery ⟨"prog.ir"⟩).1 = .ok none ∧
      ¬ below.DiscoversIn ⟨"prog.ir"⟩ (upward ["sub"])) := by
  have hbeside : beside.IsTree := ⟨by decide, by decide⟩
  have hbelow : below.IsTree := ⟨by decide, by decide⟩
  have hloaded : (beside.discovery ⟨"../prog.ir"⟩).1 =
      .ok (some {root := ⟨""⟩, registers := some 2}) := rfl
  have hnothing : (below.discovery ⟨"prog.ir"⟩).1 = .ok none := rfl
  refine ⟨⟨hbeside, rfl, hloaded, fun h => ?_⟩, hbelow, rfl, hnothing, fun h => ?_⟩
  · have hnone := h.find?_eq_none_iff.mp (by decide)
    rw [hloaded] at hnone
    cases hnone
  · have hnone := h.find?_eq_none_iff.mpr hnothing
    exact absurd hnone (by decide)

end StackBackend.World
