import StackBackend.Proofs.Ancestors

/-! Paths by their start and their names.

Of all that a path is written with, its start and its `names` are what its components keep, so two
paths are the same when these are (`same_iff`). The parent of a path starts as the path does and has
all names but the last (`parent_spec`), and a path with another file name has that name in the place
of the last (`names_withFileName`, `lead_withFileName`). -/
namespace StackBackend.Path

open World (segmentsOf)

/-! ### Components -/

/-- The component of a segment that leads somewhere. -/
def nameComponent (segment : List Char) : Component :=
  if segment = ['.', '.'] then .up else .name segment

theorem nameComponent_inj {s t : List Char} (h : nameComponent s = nameComponent t) : s = t := by
  unfold nameComponent at h
  split at h <;> split at h <;> simp_all

theorem nameComponent_ne (s : List Char) : nameComponent s ≠ .root ∧ nameComponent s ≠ .here := by
  unfold nameComponent
  split <;> simp

theorem components_eq (p : Path) :
    p.components = (leadComponent p.parts.1).toList ++ p.names.map nameComponent := by
  rw [components, names_eq, ← List.filterMap_eq_map, List.filterMap_filter]
  congr 2
  funext s
  by_cases hs : isSilent s <;> simp [segmentComponent, nameComponent, hs, apply_ite]

theorem lead_of_components (p : Path) : (.root ∈ p.components ↔ p.parts.1 = .root) ∧
    (.here ∈ p.components ↔ p.parts.1 = .here) := by
  have hroot : .root ∉ p.names.map nameComponent := by simp [(nameComponent_ne _).1]
  have hhere : .here ∉ p.names.map nameComponent := by simp [(nameComponent_ne _).2]
  rw [components_eq, List.mem_append, List.mem_append]
  cases p.parts.1 <;> simp [leadComponent, hroot, hhere]

/-- Paths are the same exactly when they start in the same way and have the same names. -/
theorem same_iff {p q : Path} : p.same q ↔ p.parts.1 = q.parts.1 ∧ p.names = q.names := by
  rw [same, decide_eq_true_iff]
  constructor
  · intro h
    have hlead : p.parts.1 = q.parts.1 := by
      have hp := lead_of_components p
      have hq := lead_of_components q
      rw [h] at hp
      cases hl : q.parts.1 with
      | root => exact hp.1.mp (hq.1.mpr hl)
      | here => exact hp.2.mp (hq.2.mpr hl)
      | plain => cases hl' : p.parts.1 <;> simp_all
    rw [components_eq, components_eq, hlead] at h
    exact ⟨hlead, (List.map_inj_right fun _ _ => nameComponent_inj).mp (List.append_cancel_left h)⟩
  · intro h
    rw [components_eq, components_eq, h.1, h.2]

theorem same_trans {p q r : Path} (h : p.same q) (h' : q.same r) : p.same r := by
  rw [same, decide_eq_true_iff] at h h' ⊢
  exact h.trans h'

theorem fileName?_eq_some {p : Path} {name : List Char} :
    p.fileName? = some name ↔ p.names.getLast? = some name ∧ name ≠ ['.', '.'] := by
  rw [fileName?, components_eq, List.getLast?_append, List.getLast?_map]
  cases p.names.getLast? with
  | none => cases p.parts.1 <;> simp [leadComponent]
  | some s =>
    rw [Option.map_some, Option.some_or]
    by_cases hs : s = ['.', '.']
    · have hup : nameComponent s = .up := if_pos hs
      rw [hup]
      simp [hs, eq_comm]
    · have hname : nameComponent s = .name s := if_neg hs
      rw [hname]
      simp only [Option.some.injEq]
      exact ⟨fun h => ⟨h, h ▸ hs⟩, fun h => h.1⟩

theorem not_silent_of_mem_names {p : Path} {s : List Char} (h : s ∈ p.names) :
    isSilent s = false ∧ '/' ∉ s := by
  rw [names_eq, List.mem_filter] at h
  exact ⟨by simpa using h.2, slash_not_mem h.1⟩

/-- A name that a file can have. -/
structure IsFileName (name : List Char) : Prop where
  slash : '/' ∉ name
  named : isSilent name = false
  forth : name ≠ ['.', '.']

theorem isFileName_of_fileName? {p : Path} {name : List Char} (h : p.fileName? = some name) :
    IsFileName name := by
  obtain ⟨hlast, hforth⟩ := fileName?_eq_some.mp h
  obtain ⟨hnamed, hslash⟩ := not_silent_of_mem_names (List.mem_of_getLast? hlast)
  exact ⟨hslash, hnamed, hforth⟩

/-! ### Starts -/

/-- How a path of some segments starts. -/
def leadOf : List (List Char) → Lead
  | [] :: _ :: _ => .root
  | ['.'] :: _ => .here
  | _ => .plain

theorem lead_eq (p : Path) : p.parts.1 = leadOf (segmentsOf p) := by
  unfold parts segmentsOf leadOf
  split <;> simp_all

theorem leadOf_front {front back : List (List Char)} (h : leadOf (front ++ back) = .plain) :
    leadOf front = .plain := by
  unfold leadOf
  split
  next => cases h
  next => cases h
  next => rfl

/-- A path that is put together again from its start and its first few segments starts as
before. -/
theorem lead_ofParts {p : Path} {front back : List (List Char)} (h : p.parts.2 = front ++ back) :
    (ofParts p.parts.1 front).parts.1 = p.parts.1 := by
  have hslash : ∀ s ∈ front, '/' ∉ s := fun s hs =>
    slash_not_mem (h ▸ List.mem_append_left back hs)
  have hsegments := segments_eq p
  cases hlead : p.parts.1 with
  | root =>
    have habsolute : (ofParts .root front).isAbsolute := isAbsolute_iff.mpr (by simp [ofParts])
    exact of_decide_eq_true habsolute
  | here =>
    have hpieces : segmentsOf (ofParts .here front) = ['.'] :: front := by
      simp only [segmentsOf, ofParts, String.toList_ofList]
      exact Text.pieces_join (by simp) (List.forall_mem_cons.mpr ⟨by decide, hslash⟩)
    rw [lead_eq, hpieces]
    rfl
  | plain =>
    cases front with
    | nil => rfl
    | cons s front =>
      have hpieces : segmentsOf (ofParts .plain (s :: front)) = s :: front := by
        simp only [segmentsOf, ofParts, String.toList_ofList]
        exact Text.pieces_join (by simp) hslash
      have hplain : leadOf (s :: front ++ back) = .plain := by
        rw [← h, ← hlead, lead_eq, hsegments, hlead]
        rfl
      rw [lead_eq, hpieces]
      exact leadOf_front hplain

theorem leadOf_cons (s : List Char) (rest : List (List Char)) : leadOf (s :: rest) =
    if s = [] then (if rest = [] then .plain else .root)
    else if s = ['.'] then .here else .plain := by
  by_cases hs : s = []
  · cases rest <;> simp [leadOf, hs]
  · by_cases hdot : s = ['.']
    · simp [leadOf, hdot]
    · simp [leadOf, hs, hdot]

/-- A directory and a file in it start in the same way. -/
theorem lead_join {name : String} (hname : IsFileName name.toList) (p : Path) :
    (p.join ⟨name⟩).parts.1 = p.parts.1 := by
  have hslash := hname.slash
  obtain ⟨hempty, hdot⟩ : name.toList ≠ [] ∧ name.toList ≠ ['.'] := by
    simpa [isSilent] using hname.named
  have hpieces : Text.pieces '/' name.toList = [name.toList] :=
    Text.pieces_eq_singleton hslash
  rw [lead_eq, lead_eq, segmentsOf, segmentsOf, text_join hslash, slashAfter]
  cases hlast : p.text.toList.getLast? with
  | none =>
    rw [List.getLast?_eq_none_iff.mp hlast]
    simp [hpieces, leadOf_cons, hempty, hdot, Text.pieces]
  | some c =>
    obtain ⟨text, htext⟩ := List.getLast?_eq_some_iff.mp hlast
    by_cases hc : c = '/'
    · -- The name takes the place of the empty segment behind the last slash.
      obtain ⟨s, rest, hs⟩ := List.exists_cons_of_ne_nil (Text.pieces_ne_nil '/' text)
      simp [htext, hc, Text.pieces_append, hpieces, hs, leadOf_cons, Text.pieces]
    · obtain ⟨s, rest, hs⟩ := List.exists_cons_of_ne_nil (Text.pieces_ne_nil '/' p.text.toList)
      have hnonempty : ¬ (s = [] ∧ rest = []) := by
        intro h
        have hjoin := Text.join_pieces '/' p.text.toList
        rw [hs, h.1, h.2, htext] at hjoin
        simp [Text.join] at hjoin
      simp only [Option.all_some, hc, decide_false, Bool.false_eq_true, if_false,
        Text.pieces_append, hs, List.cons_append, leadOf_cons]
      by_cases hempty : s = [] <;> simp_all

/-! ### Parents -/

theorem above_head (lead : Lead) {segments : List (List Char)}
    (h : segments.filter (!isSilent ·) ≠ []) :
    ∃ gap front, segments = gap ++ front ∧
      (above lead segments).head? = some (ofParts lead front.reverse) ∧
      front.filter (!isSilent ·) = (segments.filter (!isSilent ·)).tail := by
  induction segments with
  | nil => exact absurd rfl h
  | cons s segments ih =>
    by_cases hs : isSilent s
    · rw [List.filter_cons_of_neg (by simp [hs])] at h ⊢
      obtain ⟨gap, front, hsplit, hhead, hfront⟩ := ih h
      refine ⟨s :: gap, front, by rw [hsplit, List.cons_append], ?_, hfront⟩
      rw [above, if_pos hs, hhead]
    · refine ⟨s :: segments.takeWhile isSilent, segments.dropWhile isSilent, ?_, ?_, ?_⟩
      · rw [List.cons_append, List.takeWhile_append_dropWhile]
      · rw [above, if_neg hs, List.head?_cons]
      · rw [filter_dropWhile_silent, List.filter_cons_of_pos (by simp [hs]), List.tail_cons]

/-- The parent of a path starts as the path does and has all of its names but the last. -/
theorem parent_spec {p : Path} (h : p.names ≠ []) : ∃ dir, p.parent? = some dir ∧
    dir.parts.1 = p.parts.1 ∧ dir.names = p.names.dropLast := by
  have hsegments : p.parts.2.reverse.filter (!isSilent ·) ≠ [] := by
    rw [List.filter_reverse, ← names_eq]
    simpa using h
  obtain ⟨gap, front, hsplit, hhead, hfront⟩ := above_head p.parts.1 hsegments
  have hparts : p.parts.2 = front.reverse ++ gap.reverse := by
    rw [← List.reverse_append, ← hsplit, List.reverse_reverse]
  refine ⟨_, hhead, lead_ofParts hparts, ?_⟩
  have hslash : ∀ s ∈ front.reverse, '/' ∉ s := fun s hs =>
    slash_not_mem (hparts ▸ List.mem_append_left _ hs)
  rw [names_ofParts _ hslash, List.filter_reverse, hfront, List.filter_reverse, List.tail_reverse,
    List.reverse_reverse, names_eq]

/-! ### Other file names -/

theorem names_join {name : String} (hslash : '/' ∉ name.toList) (p : Path) :
    (p.join ⟨name⟩).names = p.names ++ [name.toList].filter (!isSilent ·) := by
  obtain ⟨front, hsegments, hfront⟩ := segments_join hslash p
  rw [names, hsegments, List.filter_append, hfront]

/-- `out` is the path `p` with another file name. -/
def Renamed (p : Path) (name : List Char) (out : Path) : Prop :=
  ∃ dir old, p.components = dir ++ [.name old] ∧ out.components = dir ++ [.name name]

section WithFileName
variable {p : Path} {old name other : List Char} (h : p.fileName? = some old)
include h

theorem names_eq_concat : p.names = p.names.dropLast ++ [old] := by
  obtain ⟨front, hfront⟩ := List.getLast?_eq_some_iff.mp (fileName?_eq_some.mp h).1
  rw [hfront, List.dropLast_concat]

theorem withFileName_eq (name : List Char) : ∃ dir : Path,
    p.withFileName name = dir.join ⟨String.ofList name⟩ ∧ dir.parts.1 = p.parts.1 ∧
      dir.names = p.names.dropLast := by
  have hnames : p.names ≠ [] := by
    rw [names_eq_concat h]
    simp
  obtain ⟨dir, hdir, hlead, hnames⟩ := parent_spec hnames
  exact ⟨dir, by simp only [withFileName, h, hdir], hlead, hnames⟩

theorem lead_withFileName (hname : IsFileName name) :
    (p.withFileName name).parts.1 = p.parts.1 := by
  obtain ⟨dir, heq, hlead, -⟩ := withFileName_eq h name
  rw [heq, lead_join (String.toList_ofList.symm ▸ hname), hlead]

section Slash
variable (hslash : '/' ∉ name)
include hslash

/-- Another file name takes the place of the last name, if it leads anywhere. -/
theorem names_withFileName :
    (p.withFileName name).names = p.names.dropLast ++ [name].filter (!isSilent ·) := by
  obtain ⟨dir, heq, -, hnames⟩ := withFileName_eq h name
  rw [heq, names_join (by simpa using hslash), hnames, String.toList_ofList]

theorem isAbsolute_withFileName : (p.withFileName name).isAbsolute = p.isAbsolute := by
  obtain ⟨dir, heq, hlead, -⟩ := withFileName_eq h name
  rw [heq, isAbsolute_join (by simpa using hslash), isAbsolute, isAbsolute, hlead]

/-- The names of a path with another file name tell that name. -/
theorem eq_of_names_withFileName
    (hnames : (p.withFileName name).names = p.names.dropLast ++ [other]) : name = other := by
  rw [names_withFileName h hslash] at hnames
  have hlast := List.append_cancel_left hnames
  by_cases hname : isSilent name
  · rw [List.filter_cons_of_neg (by simp [hname])] at hlast
    cases hlast
  · rw [List.filter_cons_of_pos (by simp [hname])] at hlast
    exact (List.cons.inj hlast).1

end Slash

theorem names_renamed (hname : IsFileName name) :
    (p.withFileName name).names = p.names.dropLast ++ [name] := by
  rw [names_withFileName h hname.slash, List.filter_cons_of_pos (by simp [hname.named]),
    List.filter_nil]

theorem same_withFileName_iff (hslash : '/' ∉ name) :
    (p.withFileName name).same p ↔ name = old := by
  rw [same_iff]
  constructor
  · intro hsame
    exact eq_of_names_withFileName h hslash (hsame.2.trans (names_eq_concat h))
  · intro hname
    subst hname
    have hfile := isFileName_of_fileName? h
    exact ⟨lead_withFileName h hfile, (names_renamed h hfile).trans (names_eq_concat h).symm⟩

theorem eq_of_same_withFileName (hslash : '/' ∉ name) (hother : IsFileName other)
    (hsame : (p.withFileName name).same (p.withFileName other)) : name = other :=
  eq_of_names_withFileName h hslash ((same_iff.mp hsame).2.trans (names_renamed h hother))

theorem renamed_withFileName (hname : IsFileName name) : Renamed p name (p.withFileName name) := by
  have hlast {s : List Char} (hs : IsFileName s) : nameComponent s = .name s := if_neg hs.forth
  refine ⟨(leadComponent p.parts.1).toList ++ p.names.dropLast.map nameComponent, old, ?_, ?_⟩
  · rw [components_eq, List.append_assoc, ← hlast (isFileName_of_fileName? h), ← List.map_singleton,
      ← List.map_append, ← names_eq_concat h]
  · rw [components_eq, lead_withFileName h hname, names_renamed h hname, List.append_assoc,
      ← hlast hname, ← List.map_singleton, ← List.map_append]

end WithFileName

/-- There is one path with another file name, up to how it is written. -/
theorem Renamed.same {p a b : Path} {name : List Char} (ha : Renamed p name a)
    (hb : Renamed p name b) : a.same b := by
  obtain ⟨dir, old, hp, ha⟩ := ha
  obtain ⟨dir', old', hp', hb⟩ := hb
  have hdir := (List.append_inj' (hp.symm.trans hp') rfl).1
  rw [Path.same, decide_eq_true_iff, ha, hb, hdir]

end StackBackend.Path
