import StackBackend.Proofs.SettingsFile

/-! What follows a line or a value of a settings file.

A comment is cut off a value when the value is read, not off the line when the line is. What a line
is, its two ends decide, and a comment makes a new end (`heads_commented`). So a comment behind a
line is ignored (`lineReading_commented`) unless the line begins like a header. No header is read as
itself with a comment behind it (`Heads.not_commented`): it is refused, or an equals sign makes it
an entry that sets nothing (`Heads.lineReading_passed`). As the reader takes from a line its reading
and the section after it only (`readings_congr`), the same goes for whole files
(`comments_ignored`).

A text between quotes ends at the second one. What stands behind that is not looked at, be it a
comment or not (`compiler_up_to_quote`). -/
namespace StackBackend

/-! ### Text -/

namespace Text

theorem trimEnd_append_blanks {gap : List Char} (hgap : ∀ c ∈ gap, isBlank c = true)
    (cs : List Char) : trimEnd (cs ++ gap) = trimEnd cs := by
  unfold trimEnd
  rw [List.reverse_append, List.dropWhile_append_of_pos]
  intro c hc
  exact hgap c (List.mem_reverse.mp hc)

theorem trim_append_blanks {gap : List Char} (hgap : ∀ c ∈ gap, isBlank c = true)
    (cs : List Char) : trim (cs ++ gap) = trim cs := by
  induction gap generalizing cs with
  | nil => rw [List.append_nil]
  | cons c gap ih =>
    obtain ⟨hc, hrest⟩ := List.forall_mem_cons.mp hgap
    rw [List.append_cons, ih hrest, trim_append_blank hc]

/-- The blanks that are cut off an end. -/
theorem exists_trimEnd (cs : List Char) :
    ∃ gap, (∀ c ∈ gap, isBlank c = true) ∧ cs = trimEnd cs ++ gap := by
  refine ⟨(cs.reverse.takeWhile isBlank).reverse, ?_, ?_⟩
  · intro c hc
    exact List.all_eq_true.mp List.all_takeWhile c (List.mem_reverse.mp hc)
  · unfold trimEnd
    rw [← List.reverse_append, List.takeWhile_append_dropWhile, List.reverse_reverse]

theorem trim_trimEnd (cs : List Char) : trim (trimEnd cs) = trim cs := by
  obtain ⟨gap, hgap, hsplit⟩ := exists_trimEnd cs
  have hcut := trim_append_blanks hgap (trimEnd cs)
  rw [← hsplit] at hcut
  exact hcut.symm

theorem mem_of_mem_trim {c : Char} {cs : List Char} (h : c ∈ trim cs) : c ∈ cs := by
  obtain ⟨gap, -, hsplit⟩ := exists_trimEnd (trimStart cs)
  have hstart : c ∈ trimStart cs := by
    rw [hsplit]
    exact List.mem_append_left _ h
  exact (List.dropWhile_suffix isBlank).subset hstart

/-- A sign that is not blank keeps everything before it. -/
theorem trimEnd_append_cons {c : Char} (hc : isBlank c = false) (cs text : List Char) :
    trimEnd (cs ++ c :: text) = cs ++ c :: trimEnd text := by
  unfold trimEnd
  rw [List.reverse_append, List.reverse_cons, List.append_assoc, List.dropWhile_append]
  split
  next h => simp [List.isEmpty_iff.mp h, hc]
  next => simp

theorem trimStart_of_trim_eq_nil {cs : List Char} (h : trim cs = []) : trimStart cs = [] := by
  cases hstart : trimStart cs with
  | nil => rfl
  | cons c rest =>
    have hc : isBlank c = false := by
      have hfirst := List.head?_dropWhile_not isBlank cs
      rw [show cs.dropWhile isBlank = c :: rest from hstart] at hfirst
      exact hfirst
    rw [trim, hstart] at h
    exact absurd (trimEnd_append_cons hc [] rest) (by simp [h])

/-- A comment is cut at its end only. The blanks before it stay, unless there is nothing else. -/
theorem trim_append_comment (cs text : List Char) : ∃ gap, (∀ c ∈ gap, isBlank c = true) ∧
    (trim cs = [] → gap = []) ∧
    trim (cs ++ '#' :: text) = trim cs ++ gap ++ '#' :: trimEnd text := by
  have hsign : isBlank '#' = false := by decide
  have hstart : trimStart (cs ++ '#' :: text) = trimStart cs ++ '#' :: text := by
    unfold trimStart
    rw [List.dropWhile_append]
    split
    next h => simp [List.isEmpty_iff.mp h, hsign]
    next => rfl
  obtain ⟨gap, hgap, hsplit⟩ := exists_trimEnd (trimStart cs)
  refine ⟨gap, hgap, ?_, ?_⟩
  · intro hblank
    rw [trimStart_of_trim_eq_nil hblank] at hsplit
    exact (List.append_eq_nil_iff.mp hsplit.symm).2
  · rw [trim, hstart, trimEnd_append_cons hsign, trim, ← hsplit]

theorem count_trim {c : Char} (hc : isBlank c = false) (cs : List Char) :
    (trim cs).count c = cs.count c := by
  have hblank {gap : List Char} (hgap : ∀ d ∈ gap, isBlank d = true) : gap.count c = 0 := by
    rw [List.count_eq_zero]
    intro hmem
    exact absurd (hgap c hmem) (by simp [hc])
  obtain ⟨gap, hgap, hend⟩ := exists_trimEnd (trimStart cs)
  calc (trim cs).count c = (trim cs ++ gap).count c := by rw [List.count_append, hblank hgap]; rfl
    _ = (trimStart cs).count c := by rw [trim, ← hend]
    _ = (cs.takeWhile isBlank ++ trimStart cs).count c := by
      rw [List.count_append, hblank (List.all_eq_true.mp List.all_takeWhile), Nat.zero_add]
    _ = cs.count c := by rw [trimStart, List.takeWhile_append_dropWhile]

theorem mem_trim {c : Char} {cs : List Char} (hc : isBlank c = false) (h : c ∈ cs) :
    c ∈ trim cs := by
  rw [← List.count_pos_iff, count_trim hc]
  exact List.count_pos_iff.mpr h

/-- Blanks and a comment behind a value are no part of it. -/
theorem trimEnd_before_comment {gap : List Char} (hgap : ∀ c ∈ gap, isBlank c = true)
    (cs text : List Char) :
    trimEnd (before '#' (cs ++ gap ++ '#' :: text)) = trimEnd (before '#' cs) := by
  have hsign : before '#' gap = gap := before_eq_self fun hc =>
    absurd (hgap '#' hc) (by decide)
  rw [before_append_cons]
  unfold before at hsign ⊢
  rw [List.takeWhile_append]
  split
  next h =>
    have hcs := (List.takeWhile_prefix _).eq_of_length h
    rw [hsign, hcs, trimEnd_append_blanks hgap]
  next => rfl

end Text

namespace Settings

open Text (isBlank trim trimEnd before pieces)

/-! ### Keys and values -/

section Value
variable {name key value gap text : List Char}

theorem head?_bareKey {c : Char} (hc : c ≠ '"') (h : key.head? = some c) :
    (bareKey key).head? = some c := by
  obtain ⟨rest, hkey⟩ := List.head?_eq_some_iff.mp h
  rw [hkey, bareKey, List.dropWhile_cons_of_neg (by simp [hc]), List.reverse_cons,
    List.dropWhile_append]
  split
  next => simp [hc]
  next => simp

/-- No key that means something begins with a bracket. -/
theorem read_of_bracket (h : key.head? = some '[') :
    Setting.read name key value = .ok (.unknown (String.ofList key)) := by
  have hne {word : String} (hword : word.toList.head? ≠ some '[') : String.ofList key ≠ word := by
    intro heq
    rw [Text.ofList_eq_iff.mp heq] at h
    exact hword h
  unfold Setting.read
  split
  next hkey => exact absurd hkey (hne (by decide))
  next hkey => exact absurd hkey (hne (by decide))
  next hkey => exact absurd hkey (hne (by decide))
  next => rfl

theorem Count.commented {n : UInt8} (h : Count value n) (hgap : ∀ c ∈ gap, isBlank c = true) :
    Count (value ++ gap ++ '#' :: text) n := by
  unfold Count at h ⊢
  rw [Text.trimEnd_before_comment hgap]
  exact h

theorem Quoted.followed {inside : List Char} (h : Quoted value inside) (rest : List Char) :
    Quoted (value ++ rest) inside := by
  obtain ⟨hinside, tail, rfl⟩ := h
  exact ⟨hinside, tail ++ rest, by simp⟩

/-- An unknown key is passed over, whatever its value. -/
theorem read_of_unknown {k : String} (h : Setting.read name key value = .ok (.unknown k))
    (other : List Char) : Setting.read name key other = .ok (.unknown k) := by
  unfold Setting.read at h ⊢
  split at h
  next =>
    split at h
    next => cases h
    next => cases h
  next =>
    obtain ⟨t, -, ht⟩ := map_eq_ok.mp h
    cases ht
  next =>
    obtain ⟨t, -, ht⟩ := map_eq_ok.mp h
    cases ht
  next => exact h

theorem read_commented {x : Setting} (h : Setting.read name key (bareValue value) = .ok x)
    (hgap : ∀ c ∈ gap, isBlank c = true) :
    Setting.read name key (bareValue (value ++ gap ++ '#' :: text)) = .ok x := by
  cases x with
  | registers n =>
    obtain ⟨hname, hkey, hvalue⟩ := read_eq_registers.mp h
    exact read_eq_registers.mpr ⟨hname, hkey, hvalue.commented hgap⟩
  | runtime t =>
    obtain ⟨hname, hkey, hvalue⟩ := read_eq_runtime.mp h
    rw [List.append_assoc]
    exact read_eq_runtime.mpr ⟨hname, hkey, hvalue.followed _⟩
  | compiler t =>
    obtain ⟨hname, hkey, hvalue⟩ := read_eq_compiler.mp h
    rw [List.append_assoc]
    exact read_eq_compiler.mpr ⟨hname, hkey, hvalue.followed _⟩
  | unknown k => exact read_of_unknown h _

end Value

/-! ### Lines -/

/-- A line with a comment at its end. -/
def commented (line text : List Char) : List Char := line ++ ' ' :: '#' :: text

section Line
variable {line text name sectionName : List Char}

theorem trim_commented (line text : List Char) : ∃ gap, (∀ c ∈ gap, isBlank c = true) ∧
    (trim line = [] → gap = []) ∧
    trim (commented line text) = trim line ++ gap ++ '#' :: trimEnd text := by
  have htrim := Text.trim_append_comment (line ++ [' ']) text
  rw [Text.trim_append_blank (by decide), ← List.append_cons] at htrim
  exact htrim

theorem head?_trim_commented (line text : List Char) :
    (trim (commented line text)).head? = some ((trim line).head?.getD '#') := by
  obtain ⟨gap, -, hblank, htrim⟩ := trim_commented line text
  rw [htrim]
  cases hline : trim line with
  | nil =>
    rw [hblank hline]
    rfl
  | cons c rest => rfl

theorem getLast?_trim_commented (line text : List Char) :
    (trim (commented line text)).getLast? = some ((trimEnd text).getLast?.getD '#') := by
  obtain ⟨gap, -, -, htrim⟩ := trim_commented line text
  rw [htrim, List.getLast?_append, List.getLast?_cons]
  rfl

theorem ignored_commented : Ignored (commented line text) ↔ Ignored line := by
  have hne : trim (commented line text) ≠ [] := by
    intro hnil
    have hhead := head?_trim_commented line text
    rw [hnil] at hhead
    cases hhead
  unfold Ignored
  rw [head?_trim_commented]
  cases trim line with
  | nil => simp
  | cons c rest => simp [hne]

/-- A line with a comment is a header when the line begins like one and the comment ends like
one. -/
theorem heads_commented : (∃ name, Heads (commented line text) name) ↔
    (trim line).head? = some '[' ∧ (trimEnd text).getLast? = some ']' := by
  rw [heads_iff, head?_trim_commented, getLast?_trim_commented]
  cases (trim line).head? <;> cases (trimEnd text).getLast? <;> simp

/-- A comment is no part of the name of a section, so no header keeps its name. -/
theorem Heads.not_commented (h : Heads line name) : ¬ Heads (commented line text) name := by
  have hcount {l : List Char} (hl : Heads l name) : (trim l).count '#' = name.count '#' := by
    obtain ⟨inner, hl, rfl⟩ := hl
    rw [hl, Text.count_trim (by decide)]
    simp
  intro hheads
  obtain ⟨gap, -, -, htrim⟩ := trim_commented line text
  have hmore := hcount hheads
  rw [htrim, List.count_append, List.count_append, List.count_cons_self, hcount h] at hmore
  omega

theorem lineReading_eq_none : lineReading sectionName line = none ↔ ¬ Speaks line := by
  have hline := isLine_ofText line
  unfold lineReading
  generalize Line.ofText line = l at hline ⊢
  cases hline with
  | blank hignored => exact iff_of_true rfl fun h => h.1 hignored
  | header hheads => exact iff_of_true rfl fun h => h.2 _ hheads
  | entry hspeaks => exact iff_of_false (by simp) fun h => h hspeaks
  | other hspeaks => exact iff_of_false (by simp) fun h => h hspeaks

theorem speaks_commented (hclosed : ∀ name, ¬ Heads (commented line text) name)
    (hheads : ∀ name, ¬ Heads line name) : Speaks (commented line text) ↔ Speaks line := by
  unfold Speaks
  rw [ignored_commented]
  exact and_congr_right fun _ => iff_of_true hclosed hheads

/-- A comment does not change the reading of a line that is no header and does not become one. -/
theorem lineReading_commented (hheads : ∀ name, ¬ Heads line name)
    (hclosed : ∀ name, ¬ Heads (commented line text) name)
    (hsound : ∀ p, lineReading sectionName line ≠ some (.error p)) :
    lineReading sectionName (commented line text) = lineReading sectionName line := by
  have hspeaks := speaks_commented hclosed hheads
  cases hread : lineReading sectionName line with
  | none =>
    rw [lineReading_eq_none] at hread ⊢
    rwa [hspeaks]
  | some r =>
    obtain ⟨hline, ⟨-, rfl⟩ | ⟨left, right, hsplit, hleft, hr⟩⟩ := lineReading_eq_some.mp hread
    · exact absurd hread (hsound _)
    cases r with
    | error p => exact absurd hread (hsound p)
    | ok x =>
      obtain ⟨gap, hgap, -, htrim⟩ := trim_commented line text
      obtain ⟨gap', hgap', -, hvalue⟩ := Text.trim_append_comment (right ++ gap) (trimEnd text)
      rw [Text.trim_append_blanks hgap] at hvalue
      refine lineReading_eq_some.mpr ⟨hspeaks.mpr hline, .inr ?_⟩
      refine ⟨left, right ++ gap ++ '#' :: trimEnd text, ?_, hleft, ?_⟩
      · rw [htrim, hsplit]
        simp
      · rw [hvalue, read_commented hr.symm hgap']

/-- A line that begins with a bracket and is no header sets nothing. -/
theorem lineReading_bracketed (hspeaks : Speaks line) (hfirst : (trim line).head? = some '[')
    (hsign : '=' ∈ line) :
    ∃ key, ∀ sectionName, lineReading sectionName line = some (.ok (.unknown key)) := by
  obtain ⟨left, right, hsplit, hleft⟩ :
      ∃ left right, trim line = left ++ '=' :: right ∧ '=' ∉ left := by
    cases hcut : Text.splitOnce '=' (trim line) with
    | none => exact absurd (Text.mem_trim (by decide) hsign) (Text.splitOnce_eq_none.mp hcut)
    | some sides => exact ⟨_, _, Text.splitOnce_eq_some.mp hcut⟩
  have hbracket : (bareKey (trim left)).head? = some '[' := by
    apply head?_bareKey (by decide)
    cases left with
    | nil =>
      rw [hsplit] at hfirst
      cases hfirst
    | cons c left =>
      rw [hsplit] at hfirst
      obtain rfl := Option.some.inj hfirst
      have htrim : trim ('[' :: left) = '[' :: trimEnd left :=
        Text.trimEnd_append_cons (by decide) [] left
      rw [htrim]
      rfl
  refine ⟨String.ofList (bareKey (trim left)), fun sectionName => ?_⟩
  exact lineReading_eq_some.mpr
    ⟨hspeaks, .inr ⟨left, right, hsplit, hleft, (read_of_bracket hbracket).symm⟩⟩

theorem Heads.speaks_commented (h : Heads line name)
    (hlast : (trimEnd text).getLast? ≠ some ']') : Speaks (commented line text) := by
  refine ⟨?_, ?_⟩
  · rw [ignored_commented]
    exact fun hignored => not_heads_of_ignored hignored h
  · intro name' h'
    exact hlast (heads_commented.mp ⟨name', h'⟩).2

/-- A header with a comment is neither a header nor an entry when nothing makes it one. -/
theorem Heads.lineReading_commented (h : Heads line name) (hline : '=' ∉ line) (htext : '=' ∉ text)
    (hlast : (trimEnd text).getLast? ≠ some ']') :
    lineReading sectionName (commented line text) = some (.error .notAnEntry) := by
  have hsign : '=' ∉ trim (commented line text) := by
    intro hmem
    have hfound := Text.mem_of_mem_trim hmem
    simp [commented, hline, htext] at hfound
  exact lineReading_eq_some.mpr ⟨h.speaks_commented hlast, .inl ⟨hsign, rfl⟩⟩

/-- An equals sign makes it an entry that sets nothing. -/
theorem Heads.lineReading_passed (h : Heads line name) (hsign : '=' ∈ line ∨ '=' ∈ text)
    (hlast : (trimEnd text).getLast? ≠ some ']') :
    ∃ key, ∀ sectionName, lineReading sectionName (commented line text) =
      some (.ok (.unknown key)) := by
  apply lineReading_bracketed (h.speaks_commented hlast)
  · rw [head?_trim_commented, (heads_iff.mp ⟨name, h⟩).1]
    rfl
  · simpa [commented] using hsign

end Line

/-! ### Files -/

theorem readings_append (sectionName : List Char) (number : Nat) (above below : List (List Char)) :
    readings sectionName number (above ++ below) = readings sectionName number above ++
      readings (above.foldl sectionAfter sectionName) (number + above.length) below := by
  induction above generalizing sectionName number with
  | nil => rfl
  | cons line above ih =>
    rw [List.cons_append, readings_cons, readings_cons, ih, List.append_assoc, List.foldl_cons,
      List.length_cons, Nat.add_assoc, Nat.add_comm 1]

/-- Two lines that mean the same in their section can take each other's place. -/
theorem readings_congr {above below : List (List Char)} {line line' : List Char}
    (hread : lineReading (above.foldl sectionAfter []) line' =
      lineReading (above.foldl sectionAfter []) line)
    (hafter : sectionAfter (above.foldl sectionAfter []) line' =
      sectionAfter (above.foldl sectionAfter []) line) :
    readings [] 1 (above ++ line' :: below) = readings [] 1 (above ++ line :: below) := by
  rw [readings_append, readings_append, readings_cons, readings_cons, hread, hafter]

theorem setAll_first_error {rs : List (Nat × Except Problem Setting)}
    (hrs : ∀ j p, (j, .error p) ∉ rs) (s : Settings) (k : Nat) (p : Problem)
    (rest : List (Nat × Except Problem Setting)) :
    s.setAll (rs ++ (k, .error p) :: rest) = .error ⟨k, p⟩ := by
  induction rs generalizing s with
  | nil => rfl
  | cons r rs ih =>
    obtain ⟨j, r⟩ := r
    cases r with
    | error q => exact absurd (List.mem_cons_self ..) (hrs j q)
    | ok x => exact ih (fun i q hq => hrs i q (List.mem_cons_of_mem _ hq)) _

theorem setAll_unknown (s : Settings) (rs : List (Nat × Except Problem Setting)) (k : Nat)
    (key : String) (rest : List (Nat × Except Problem Setting)) :
    s.setAll (rs ++ (k, .ok (.unknown key)) :: rest) = s.setAll (rs ++ rest) := by
  induction rs generalizing s with
  | nil => rfl
  | cons r rs ih =>
    obtain ⟨j, r⟩ := r
    cases r with
    | error q => rfl
    | ok x => exact ih _

/-- Blanks at the end of a line make no difference. -/
theorem ofText_append_blanks {ending : List Char} (h : ∀ c ∈ ending, isBlank c = true)
    (line : List Char) : Line.ofText (line ++ ending) = Line.ofText line := by
  rw [Line.ofText, Line.ofText, Text.trim_append_blanks h]

/-- What stands before a line of a text, and what stands behind it. A line feed ends the line, with
or without a carriage return, or the text does. -/
structure Around (front back : List Char) : Prop where
  starts : front = [] ∨ front.getLast? = some '\n'
  ends : back = [] ∨ ∃ rest, back = '\n' :: rest ∨ back = '\r' :: '\n' :: rest

section Around
variable {front back : List Char} (h : Around front back)
include h

theorem Around.pieces_front : ∃ above, above.length = front.count '\n' ∧
    ∀ cs, pieces '\n' (front ++ cs) = above ++ pieces '\n' cs := by
  rcases h.starts with hnil | hlast
  · rw [hnil]
    exact ⟨[], rfl, fun cs => rfl⟩
  · obtain ⟨init, hinit⟩ := List.getLast?_eq_some_iff.mp hlast
    rw [hinit]
    refine ⟨pieces '\n' init, ?_, fun cs => ?_⟩
    · rw [Text.length_pieces, List.count_append, List.count_singleton_self]
    · rw [List.append_assoc, List.singleton_append, Text.pieces_append]

theorem Around.pieces_back : ∃ ending below, (∀ c ∈ ending, isBlank c = true) ∧
    ∀ line, '\n' ∉ line → pieces '\n' (line ++ back) = (line ++ ending) :: below := by
  have hsingle {line : List Char} (hline : '\n' ∉ line) : pieces '\n' line = [line] :=
    Text.pieces_eq_singleton hline
  rcases h.ends with hnil | ⟨rest, hfeed | hreturn⟩
  · rw [hnil]
    refine ⟨[], [], by simp, fun line hline => ?_⟩
    rw [List.append_nil, hsingle hline]
  · rw [hfeed]
    refine ⟨[], pieces '\n' rest, by simp, fun line hline => ?_⟩
    rw [Text.pieces_append, hsingle hline, List.append_nil, List.singleton_append]
  · rw [hreturn]
    have hblank : isBlank '\r' = true := by decide
    refine ⟨['\r'], pieces '\n' rest, by simp [hblank], fun line hline => ?_⟩
    have hunbroken : '\n' ∉ line ++ ['\r'] := by simp [hline]
    rw [List.append_cons, Text.pieces_append, hsingle hunbroken, List.singleton_append]

/-- The settings of a text, by the line that stands in one place of it. -/
theorem Around.read_line : ∃ above below, above.length = front.count '\n' ∧
    ∀ root line, '\n' ∉ line → read root (String.ofList (front ++ line ++ back)) =
      ({root} : Settings).setAll (readings [] 1 (above ++ line :: below)) := by
  obtain ⟨above, hlength, habove⟩ := h.pieces_front
  obtain ⟨ending, below, hending, hbelow⟩ := h.pieces_back
  refine ⟨above, below, hlength, fun root line hline => ?_⟩
  have hsame := ofText_append_blanks hending line
  have hreadings : readings [] 1 (above ++ (line ++ ending) :: below) =
      readings [] 1 (above ++ line :: below) := by
    apply readings_congr
    · rw [lineReading, lineReading, hsame]
    · rw [sectionAfter, sectionAfter, hsame]
  rw [read, allReadings, String.toList_ofList, List.append_assoc, habove, hbelow line hline,
    hreadings]

end Around

/-- **Comments are ignored behind lines that do not begin like a header.** A file that can be read
has the same settings with a comment behind any line of it that is no header, unless the line begins
with a bracket and the comment ends with one: such a line becomes a header. A header does not keep
its name. If the comment does not end with a bracket, an equals sign in the header or the comment
makes the line as good as blank, and without one the file is refused for it. -/
theorem comments_ignored (root : Path) (front line back text : List Char)
    (h : Around front back) (hline : '\n' ∉ line) (htext : '\n' ∉ text) :
    (∀ s, read root (String.ofList (front ++ line ++ back)) = .ok s →
      (∀ name, ¬ Heads line name) →
      ¬ ((trim line).head? = some '[' ∧ (trimEnd text).getLast? = some ']') →
      read root (String.ofList (front ++ commented line text ++ back)) = .ok s) ∧
    ((trim line).head? = some '[' → (trimEnd text).getLast? = some ']' →
      ∃ name, Heads (commented line text) name) ∧
    ∀ name, Heads line name → ¬ Heads (commented line text) name ∧
      ((trimEnd text).getLast? ≠ some ']' → '=' ∈ line ∨ '=' ∈ text →
        read root (String.ofList (front ++ commented line text ++ back)) =
          read root (String.ofList (front ++ [] ++ back))) ∧
      ∀ s, read root (String.ofList (front ++ line ++ back)) = .ok s →
        (trimEnd text).getLast? ≠ some ']' → '=' ∉ line → '=' ∉ text →
        read root (String.ofList (front ++ commented line text ++ back)) =
          .error ⟨front.count '\n' + 1, .notAnEntry⟩ := by
  obtain ⟨above, below, hlength, hread⟩ := h.read_line
  have hunbroken : '\n' ∉ commented line text := by simp [commented, hline, htext]
  rw [hread root line hline, hread root _ hunbroken, hread root [] (by simp)]
  have hsound {s : Settings}
      (hs : ({root} : Settings).setAll (readings [] 1 (above ++ line :: below)) = .ok s) :=
    (setAll_ok hs).2
  refine ⟨?_, ?_, ?_⟩
  · intro s hs hheads hopen
    have hclosed : ∀ name, ¬ Heads (commented line text) name := fun name h =>
      hopen (heads_commented.mp ⟨name, h⟩)
    rw [← hs]
    congr 1
    apply readings_congr
    · apply lineReading_commented hheads hclosed
      intro p hp
      exact hsound hs _ p (mem_readings.mpr ⟨above, line, below, rfl, rfl, hp⟩)
    · rw [sectionAfter_of_not_heads _ hheads, sectionAfter_of_not_heads _ hclosed]
  · intro hfirst hlast
    exact heads_commented.mpr ⟨hfirst, hlast⟩
  · intro name hheads
    refine ⟨hheads.not_commented, ?_, ?_⟩
    · intro hlast hsign
      obtain ⟨key, hkey⟩ := hheads.lineReading_passed hsign hlast
      have hblank : lineReading (above.foldl sectionAfter []) [] = none := rfl
      have hafter : sectionAfter (above.foldl sectionAfter []) (commented line text) =
          sectionAfter (above.foldl sectionAfter []) [] :=
        sectionAfter_of_not_heads _ (hheads.speaks_commented hlast).2
      rw [readings_append, readings_append, readings_cons, readings_cons, hkey, hafter, hblank]
      exact setAll_unknown _ _ _ _ _
    · intro s hs hlast hplain hcomment
      rw [readings_append, readings_cons, hheads.lineReading_commented hplain hcomment hlast,
        ← hlength, Nat.add_comm above.length]
      refine setAll_first_error ?_ _ _ _ _
      -- The lines above are the same as in the file that could be read.
      intro j p hj
      refine hsound hs j p ?_
      rw [readings_append]
      exact List.mem_append_left _ hj

/-- A value in a file with carriage returns, and a header with a plain comment. -/
theorem clang_comments_ignored :
    read ⟨"p"⟩ "[build]\r\ncc = \"clang\" #= \"gcc\" ]\r\n" =
      .ok {root := ⟨"p"⟩, compiler := some "clang"} ∧
    read ⟨"p"⟩ "\n[build] # see below\ncc = \"clang\"" = .error ⟨2, .notAnEntry⟩ := by
  have hvalue := (comments_ignored ⟨"p"⟩ "[build]\r\n".toList "cc = \"clang\"".toList
    "\r\n".toList "= \"gcc\" ]".toList
    ⟨.inr rfl, .inr ⟨[], .inr rfl⟩⟩ (by decide) (by decide)).1
  have hheader := (comments_ignored ⟨"p"⟩ "\n".toList "[build]".toList
    "\ncc = \"clang\"".toList " see below".toList
    ⟨.inr rfl, .inr ⟨_, .inl rfl⟩⟩ (by decide) (by decide)).2.2
  have hname : Heads "[build]".toList "build".toList := ⟨"build".toList, rfl, rfl⟩
  refine ⟨?_, ?_⟩
  · refine hvalue _ rfl ?_ (by decide)
    intro name h
    exact absurd (heads_iff.mp ⟨name, h⟩).1 (by decide)
  · exact (hheader _ hname).2.2 _ rfl (by decide) (by decide) (by decide)

/-- **A comment behind a header is not ignored.** The header is refused, or the comment becomes part
of the name and what follows is lost. -/
theorem header_comment_not_ignored :
    read ⟨"p"⟩ "[build]\ncc = \"clang\"" = .ok {root := ⟨"p"⟩, compiler := some "clang"} ∧
    read ⟨"p"⟩ "[build] # c\ncc = \"clang\"" = .error ⟨1, .notAnEntry⟩ ∧
    read ⟨"p"⟩ "[build] # [c]\ncc = \"clang\"" = .ok {root := ⟨"p"⟩} := by
  exact ⟨rfl, rfl, rfl⟩

/-! ### What follows a value -/

/-- The line that gives the compiler. -/
def compilerLine (value : List Char) : List Char := "cc = ".toList ++ value

/-- A file with no other entry. -/
def compilerFile (value : List Char) : String :=
  String.ofList ("[build]".toList ++ '\n' :: compilerLine value)

theorem trim_compilerLine (value : List Char) :
    trim (compilerLine value) = "cc ".toList ++ '=' :: trimEnd (' ' :: value) := by
  show trimEnd ("cc ".toList ++ '=' :: ' ' :: value) = _
  exact Text.trimEnd_append_cons (by decide) _ _

theorem lineReading_compilerLine (value : List Char) :
    lineReading "build".toList (compilerLine value) =
      some ((quoted (bareValue (trim value))).map .compiler) := by
  have hline := trim_compilerLine value
  have hspeaks : Speaks (compilerLine value) := by
    refine ⟨?_, ?_⟩
    · unfold Ignored
      rw [hline]
      simp
    · intro name h
      have hfirst := (heads_iff.mp ⟨name, h⟩).1
      rw [hline] at hfirst
      simp at hfirst
  refine lineReading_eq_some.mpr ⟨hspeaks, .inr ⟨_, _, hline, by decide, ?_⟩⟩
  rw [Text.trim_trimEnd]
  rfl

theorem read_compilerFile (root : Path) {value : List Char} (h : '\n' ∉ value) :
    read root (compilerFile value) =
      ({root} : Settings).setAll [(2, (quoted (bareValue (trim value))).map .compiler)] := by
  have hsingle : pieces '\n' (compilerLine value) = [compilerLine value] := by
    apply Text.pieces_eq_singleton
    intro hfeed
    rcases List.mem_append.mp hfeed with hkey | hvalue
    · exact absurd hkey (by decide)
    · exact h hvalue
  have hpieces : pieces '\n' (compilerFile value).toList =
      ["[build]".toList, compilerLine value] := by
    have hcontent : (compilerFile value).toList =
        "[build]".toList ++ '\n' :: compilerLine value := String.toList_ofList
    rw [hcontent, Text.pieces_append, hsingle]
    rfl
  have hheader : lineReading [] "[build]".toList = none := rfl
  have hsection : sectionAfter [] "[build]".toList = "build".toList := rfl
  rw [read, allReadings, hpieces, readings_cons, readings_cons, hheader, hsection,
    lineReading_compilerLine]
  rfl

theorem read_of_quoted (root : Path) {value inside : List Char} (h : '\n' ∉ value)
    (hquoted : Quoted (trim value) inside) : read root (compilerFile value) =
      .ok {root, compiler := some (String.ofList inside)} := by
  have hinside : quoted (bareValue (trim value)) = .ok (String.ofList inside) :=
    quoted_bareValue.mpr (by rwa [String.toList_ofList])
  rw [read_compilerFile root h, hinside]
  rfl

theorem read_of_not_quoted (root : Path) {value : List Char} (h : '\n' ∉ value)
    (hquoted : ∀ inside, ¬ Quoted (trim value) inside) : read root (compilerFile value) =
      .error ⟨2, .notQuoted (String.ofList (bareValue (trim value)))⟩ := by
  rw [read_compilerFile root h, quoted_map_eq_error.mpr ⟨hquoted, rfl⟩]
  rfl

theorem trim_between_quotes (inside : List Char) :
    trim ('"' :: (inside ++ ['"'])) = '"' :: (inside ++ ['"']) := by
  show trimEnd ('"' :: inside ++ ['"']) = _
  rw [Text.trimEnd_append_cons (by decide)]
  rfl

/-- **A text ends at its closing quote, whatever follows.** The file is accepted exactly when the
value begins with a text between quotes, and that text is the compiler. Any other value is reported.
What stands behind the closing quote is dropped, a comment or not. -/
theorem compiler_up_to_quote (root : Path) (value : List Char) (h : '\n' ∉ value) :
    (∀ s, read root (compilerFile value) = .ok s ↔ ∃ inside, Quoted (trim value) inside ∧
      s = {root, compiler := some (String.ofList inside)}) ∧
    ((∀ inside, ¬ Quoted (trim value) inside) → ∃ e, read root (compilerFile value) = .error e ∧
      e.message = "stackasm.toml:2: expected a quoted string, got `" ++
        String.ofList (bareValue (trim value)) ++ "`") ∧
    ∀ inside rest, '"' ∉ inside → trim value = '"' :: (inside ++ '"' :: rest) →
      read root (compilerFile value) = read root (compilerFile ('"' :: (inside ++ ['"']))) := by
  refine ⟨?_, ?_, ?_⟩
  · intro s
    constructor
    · intro hs
      refine Classical.byContradiction fun hno => ?_
      have hquoted : ∀ inside, ¬ Quoted (trim value) inside := by
        intro inside hinside
        rw [read_of_quoted root h hinside] at hs
        exact hno ⟨inside, hinside, (Except.ok.inj hs).symm⟩
      rw [read_of_not_quoted root h hquoted] at hs
      cases hs
    · intro hs
      obtain ⟨inside, hinside, rfl⟩ := hs
      exact read_of_quoted root h hinside
  · intro hquoted
    refine ⟨_, read_of_not_quoted root h hquoted, ?_⟩
    have hplace : fileName ++ ":" ++ toString (2 : Nat) ++ ": " = "stackasm.toml:2: " := by decide
    show fileName ++ ":" ++ toString (2 : Nat) ++ ": " ++
      ("expected a quoted string, got `" ++ _ ++ "`") = _
    rw [hplace, ← String.append_assoc, ← String.append_assoc]
    rfl
  · intro inside rest hinside hvalue
    have hunbroken : '\n' ∉ '"' :: (inside ++ ['"']) := by
      intro hmem
      have hfront : trim value = '"' :: (inside ++ ['"']) ++ rest := by simp [hvalue]
      apply h
      apply Text.mem_of_mem_trim
      rw [hfront]
      exact List.mem_append_left _ hmem
    have hquoted : Quoted (trim ('"' :: (inside ++ ['"']))) inside := by
      rw [trim_between_quotes]
      exact ⟨hinside, [], rfl⟩
    rw [read_of_quoted root h ⟨hinside, rest, hvalue⟩, read_of_quoted root hunbroken hquoted]

/-- A comment with a quote, and a quote that is never closed. -/
theorem noted_up_to_quote :
    read ⟨"p"⟩ "[build]\ncc = \"gcc\" # not \"cc\"" =
      .ok {root := ⟨"p"⟩, compiler := some "gcc"} ∧
    ∃ e, read ⟨"p"⟩ "[build]\ncc = \"gcc # x" = .error e ∧
      e.message = "stackasm.toml:2: expected a quoted string, got `\"gcc # x`" := by
  have hclosed := (compiler_up_to_quote ⟨"p"⟩ "\"gcc\" # not \"cc\"".toList (by decide)).1
  have hopen := (compiler_up_to_quote ⟨"p"⟩ "\"gcc # x".toList (by decide)).2.1
  refine ⟨?_, ?_⟩
  · exact (hclosed _).mpr ⟨"gcc".toList, ⟨by decide, " # not \"cc\"".toList, rfl⟩, rfl⟩
  · apply hopen
    intro inside hquoted
    obtain ⟨-, rest, hvalue⟩ := hquoted
    have hmem : '"' ∈ "gcc # x".toList := by
      rw [show "gcc # x".toList = inside ++ '"' :: rest from (List.cons.inj hvalue).2]
      simp
    exact absurd hmem (by decide)

/-- **Flags behind the closing quote are dropped**, although they are no comment. -/
theorem flags_dropped :
    (∀ inside rest, '"' ∉ inside → trim "\"gcc\" -m32".toList = '"' :: (inside ++ '"' :: rest) →
      ¬ Ignored rest) ∧
    read ⟨"p"⟩ (compilerFile "\"gcc\" -m32".toList) =
      .ok {root := ⟨"p"⟩, compiler := some "gcc"} := by
  refine ⟨?_, rfl⟩
  intro inside rest hinside hvalue
  have hsplit : "gcc".toList ++ '"' :: " -m32".toList = inside ++ '"' :: rest :=
    (List.cons.inj hvalue).2
  obtain ⟨-, rfl⟩ := Text.split_unique hsplit (by decide) hinside
  unfold Ignored
  decide

end Settings

end StackBackend
