import StackBackend.Proofs.Numerals
import StackBackend.Proofs.Results
import StackBackend.Settings.File

/-! The meaning of a settings file.

A line is nothing, a header, or it must give a key a value; the rules are `Ignored`, `Heads` and
`Assigns`. The section of a line is named by the nearest header above it (`Scope`), and `Entry` is a
line that gives a key of a section a value. What a number and a text look like say `Count` and
`Quoted`.

The reader goes through the lines once, carries the section along and stops at the first line that
it cannot make sense of. Its reading of a line depends on the line and its section only
(`mem_readings`), and the readings come in the order of the lines (`pairwise_readings`). So the
error is about the first line that is `Broken`, and without one a key has the value of the last line
that gives it one (`read_meaning`). -/
namespace StackBackend

/-! ### Text -/

namespace Text

theorem trimEnd_append_blank {c : Char} (hc : isBlank c = true) (cs : List Char) :
    trimEnd (cs ++ [c]) = trimEnd cs := by
  simp [trimEnd, hc]

theorem trim_append_blank {c : Char} (hc : isBlank c = true) (cs : List Char) :
    trim (cs ++ [c]) = trim cs := by
  unfold trim trimStart
  rw [List.dropWhile_append]
  split
  next h => simp [List.isEmpty_iff.mp h, hc]
  next => exact trimEnd_append_blank hc _

/-- A carriage return at the end of a line is a blank like any other. -/
theorem trim_withoutReturn (line : List Char) : trim (withoutReturn line) = trim line := by
  unfold withoutReturn
  split
  next h =>
    obtain ⟨front, rfl⟩ := List.getLast?_eq_some_iff.mp h
    rw [List.dropLast_concat, trim_append_blank (by decide)]
  next => rfl

/-- What stands before a comment, without the blanks at its end, is the beginning of the text. -/
theorem trimEnd_before (sep : Char) (cs : List Char) : trimEnd (before sep cs) <+: cs := by
  obtain ⟨tail, htail⟩ := List.dropWhile_suffix isBlank (l := (before sep cs).reverse)
  have htrim : trimEnd (before sep cs) <+: before sep cs :=
    ⟨tail.reverse, by rw [trimEnd, ← List.reverse_append, htail, List.reverse_reverse]⟩
  exact htrim.trans (List.takeWhile_prefix _)

theorem ofList_eq_iff {cs : List Char} {s : String} : String.ofList cs = s ↔ cs = s.toList :=
  ⟨fun h => by rw [← h, String.toList_ofList], fun h => by rw [h, String.ofList_toList]⟩

end Text

namespace Settings

open Text (trim trimEnd before splitOnce pieces)
open Text.Decimal (Digits)

/-! ### Lines -/

/-- A line that is blank or a comment. -/
def Ignored (line : List Char) : Prop := trim line = [] ∨ (trim line).head? = some '#'

/-- A line that is the header of a section. -/
def Heads (line name : List Char) : Prop :=
  ∃ inner, trim line = '[' :: (inner ++ [']']) ∧ trim inner = name

/-- A line that ought to give a key a value. -/
def Speaks (line : List Char) : Prop := ¬ Ignored line ∧ ∀ name, ¬ Heads line name

/-- A line that gives a key a value. The first equals sign divides them; there may be double quotes
around the key. -/
def Assigns (line key value : List Char) : Prop :=
  ∃ left right m n, trim line = left ++ '=' :: right ∧ '=' ∉ left ∧
    trim left = List.replicate m '"' ++ key ++ List.replicate n '"' ∧ trim right = value

/-- What the reader makes of a line, by the rules. -/
inductive IsLine (line : List Char) : Line → Prop where
  | blank : Ignored line → IsLine line .blank
  | header {name} : Heads line name → IsLine line (.header name)
  | entry {left right} : Speaks line → trim line = left ++ '=' :: right → '=' ∉ left →
      IsLine line (.entry (bareKey (trim left)) (bareValue (trim right)))
  | other : Speaks line → '=' ∉ trim line → IsLine line .other

theorem heads_iff {line : List Char} : (∃ name, Heads line name) ↔
    (trim line).head? = some '[' ∧ (trim line).getLast? = some ']' := by
  constructor
  · rintro ⟨name, inner, h, -⟩
    simp [h, List.getLast?_cons]
  · rintro ⟨hhead, hlast⟩
    obtain ⟨rest, hrest⟩ := List.head?_eq_some_iff.mp hhead
    rw [hrest] at hlast
    cases rest with
    | nil => cases hlast
    | cons c rest =>
      rw [List.getLast?_cons_cons] at hlast
      obtain ⟨inner, hinner⟩ := List.getLast?_eq_some_iff.mp hlast
      exact ⟨trim inner, inner, by rw [hrest, hinner], rfl⟩

theorem isLine_ofText (line : List Char) : IsLine line (Line.ofText line) := by
  unfold Line.ofText
  split
  next h => exact .blank (.inl h)
  next h => exact .blank (.inr (by rw [h]; rfl))
  next hne hcomment =>
    have hspoken : ¬ Ignored line := by
      rintro (h | h)
      · exact hne h
      · obtain ⟨rest, h⟩ := List.head?_eq_some_iff.mp h
        exact hcomment rest h
    split
    next h =>
      obtain ⟨name, inner, hinner, rfl⟩ := heads_iff.mpr h
      have hname : trim (trim line).tail.dropLast = trim inner := by simp [hinner]
      rw [hname]
      exact .header ⟨inner, hinner, rfl⟩
    next h =>
      have hspeaks : Speaks line := ⟨hspoken, fun name hname => h (heads_iff.mp ⟨name, hname⟩)⟩
      split
      next hsplit => exact .other hspeaks (Text.splitOnce_eq_none.mp hsplit)
      next left right hsplit =>
        obtain ⟨hline, hleft⟩ := Text.splitOnce_eq_some.mp hsplit
        exact .entry hspeaks hline hleft

/-! ### Keys and values -/

/-- A value that is a number of one byte: one plus sign at most, then digits, with nothing behind
them but blanks and a comment. -/
def Count (value : List Char) (n : UInt8) : Prop :=
  Digits (trimEnd (before '#' value)) n.toNat ∨
    ∃ digits, trimEnd (before '#' value) = '+' :: digits ∧ Digits digits n.toNat

/-- A value that is a text between double quotes. What follows the second one does not matter. -/
def Quoted (value inside : List Char) : Prop :=
  '"' ∉ inside ∧ ∃ rest, value = '"' :: (inside ++ '"' :: rest)

/-- Double quotes around a key fall away. -/
theorem bareKey_eq_iff {word key : List Char} (hne : key ≠ []) (hkey : '"' ∉ key) :
    bareKey word = key ↔ ∃ m n, word = List.replicate m '"' ++ key ++ List.replicate n '"' := by
  have hquotes (cs : List Char) : ∃ n, cs = List.replicate n '"' ++ cs.dropWhile (· = '"') := by
    refine ⟨(cs.takeWhile (· = '"')).length, ?_⟩
    have hall : ∀ c ∈ cs.takeWhile (· = '"'), c = '"' := fun c hc => by
      simpa using List.all_eq_true.mp List.all_takeWhile c hc
    rw [← List.eq_replicate_of_mem hall, List.takeWhile_append_dropWhile]
  constructor
  · rintro rfl
    obtain ⟨m, hm⟩ := hquotes word
    obtain ⟨n, hn⟩ := hquotes (word.dropWhile (· = '"')).reverse
    refine ⟨m, n, ?_⟩
    have hback := congrArg List.reverse hn
    rw [List.reverse_append, List.reverse_replicate, List.reverse_reverse] at hback
    rw [List.append_assoc, bareKey, ← hback, ← hm]
  · rintro ⟨m, n, rfl⟩
    -- The quotes on one side end where the key begins.
    have hdrop (k : Nat) (cs rest : List Char) (hcs : cs ≠ []) (hout : '"' ∉ cs) :
        (List.replicate k '"' ++ (cs ++ rest)).dropWhile (· = '"') = cs ++ rest := by
      obtain ⟨c, cs, rfl⟩ := List.exists_cons_of_ne_nil hcs
      have hc : c ≠ '"' := fun hc => hout (by simp [hc])
      rw [List.dropWhile_append_of_pos (by simp)]
      simp [hc]
    have hback := hdrop n key.reverse [] (by simpa using hne) (by simpa using hkey)
    rw [List.append_nil] at hback
    rw [bareKey, List.append_assoc, hdrop m key _ hne hkey, List.reverse_append,
      List.reverse_replicate, hback, List.reverse_reverse]

theorem readUInt8_bareValue {value : List Char} {n : UInt8} :
    Text.Decimal.readUInt8 (bareValue value) = some n ↔ Count value n := by
  rw [Text.Decimal.readUInt8_eq_some, Count]
  unfold bareValue
  split
  next rest =>
    -- A value that begins with a quote is no number, whether it is cut at a quote or at a comment.
    have hno {tail : List Char} : ¬ (Digits ('"' :: tail) n.toNat ∨
        ∃ digits, '"' :: tail = '+' :: digits ∧ Digits digits n.toNat) := by
      rintro (h | ⟨digits, h, -⟩)
      · exact absurd (h.isDigit.2.1 '"' (List.mem_cons_self ..)) (by decide)
      · cases h
    refine iff_of_false ?_ ?_
    · split
      · exact hno
      · exact hno
    · rcases List.prefix_cons_iff.mp (Text.trimEnd_before '#' ('"' :: rest)) with h | ⟨tail, h, -⟩
      · rw [h]
        rintro (h | ⟨digits, h, -⟩)
        · exact h.isDigit.1 rfl
        · cases h
      · rw [h]
        exact hno
  next => rfl

theorem quoted_eq_ok {value : List Char} {t : String} :
    quoted value = .ok t ↔ value = '"' :: (t.toList ++ ['"']) := by
  unfold quoted
  split
  next rest =>
    split
    next h =>
      obtain ⟨inside, rfl⟩ := List.getLast?_eq_some_iff.mp h
      simp [Text.ofList_eq_iff]
    next h =>
      refine iff_of_false (by simp) fun hvalue => h ?_
      simp [(List.cons.inj hvalue).2]
  next h => exact iff_of_false (by simp) fun hvalue => h _ hvalue

/-- A value that is not between quotes is named as it is. -/
theorem eq_of_quoted_error {value : List Char} {p : Problem} (h : quoted value = .error p) :
    p = .notQuoted (String.ofList value) := by
  unfold quoted at h
  split at h
  next =>
    split at h
    next => cases h
    next => exact (Except.error.inj h).symm
  next => exact (Except.error.inj h).symm

theorem quoted_bareValue {value : List Char} {t : String} :
    quoted (bareValue value) = .ok t ↔ Quoted value t.toList := by
  rw [quoted_eq_ok, Quoted]
  unfold bareValue
  split
  next rest =>
    split
    next inside after hsplit =>
      obtain ⟨rfl, hinside⟩ := Text.splitOnce_eq_some.mp hsplit
      constructor
      · intro h
        obtain rfl : inside = t.toList := by simpa using h
        exact ⟨hinside, after, rfl⟩
      · rintro ⟨hout, rest, h⟩
        obtain ⟨rfl, -⟩ := Text.split_unique (List.cons.inj h).2 hinside hout
        rfl
    next hsplit =>
      have hout := Text.splitOnce_eq_none.mp hsplit
      refine iff_of_false (fun h => ?_) (fun ⟨_, after, h⟩ => ?_)
      · exact hout (by simp [(List.cons.inj h).2])
      · exact hout (by simp [(List.cons.inj h).2])
  next hfirst =>
    refine iff_of_false (fun h => ?_) (fun ⟨_, rest, h⟩ => hfirst _ h)
    obtain ⟨after, hafter⟩ := h ▸ Text.trimEnd_before '#' value
    exact hfirst _ hafter.symm

/-! ### Sections -/

/-- The section that follows some lines: the nearest header names it, and before the first header it
is the empty one. -/
def Scope (above : List (List Char)) (name : List Char) : Prop :=
  (∃ front header back, above = front ++ header :: back ∧ Heads header name ∧
    ∀ line ∈ back, ∀ n, ¬ Heads line n) ∨
  (name = [] ∧ ∀ line ∈ above, ∀ n, ¬ Heads line n)

/-- The section after a line that stands in `sectionName`. -/
def sectionAfter (sectionName line : List Char) : List Char :=
  match Line.ofText line with
  | .header name => name
  | _ => sectionName

theorem not_heads_of_ignored {line name : List Char} (h : Ignored line) : ¬ Heads line name := by
  rintro ⟨inner, hline, -⟩
  rw [Ignored, hline] at h
  simp at h

theorem heads_unique {line name name' : List Char} (h : Heads line name) (h' : Heads line name') :
    name = name' := by
  obtain ⟨inner, hline, rfl⟩ := h
  obtain ⟨inner', hline', rfl⟩ := h'
  rw [hline, List.cons.injEq, List.append_left_inj] at hline'
  rw [hline'.2]

theorem sectionAfter_of_heads {line name : List Char} (sectionName : List Char)
    (h : Heads line name) : sectionAfter sectionName line = name := by
  have hline := isLine_ofText line
  unfold sectionAfter
  generalize Line.ofText line = l at hline ⊢
  cases hline with
  | blank hignored => exact absurd h (not_heads_of_ignored hignored)
  | header h' => exact heads_unique h' h
  | entry hspeaks => exact absurd h (hspeaks.2 name)
  | other hspeaks => exact absurd h (hspeaks.2 name)

theorem sectionAfter_of_not_heads {line : List Char} (sectionName : List Char)
    (h : ∀ name, ¬ Heads line name) : sectionAfter sectionName line = sectionName := by
  have hline := isLine_ofText line
  unfold sectionAfter
  split
  next name hl =>
    rw [hl] at hline
    cases hline with
    | header h' => exact absurd h' (h name)
  next => rfl

theorem foldl_sectionAfter_of_not_heads {lines : List (List Char)} (sectionName : List Char)
    (h : ∀ line ∈ lines, ∀ name, ¬ Heads line name) :
    lines.foldl sectionAfter sectionName = sectionName := by
  induction lines with
  | nil => rfl
  | cons line lines ih =>
    obtain ⟨hline, hlines⟩ := List.forall_mem_cons.mp h
    rw [List.foldl_cons, sectionAfter_of_not_heads _ hline, ih hlines]

/-- The section that the reader has arrived at is that of the nearest header, or the one it began
with. -/
theorem foldl_sectionAfter (above : List (List Char)) (sectionName : List Char) :
    (∃ front header back, above = front ++ header :: back ∧
      Heads header (above.foldl sectionAfter sectionName) ∧ ∀ line ∈ back, ∀ n, ¬ Heads line n) ∨
    (above.foldl sectionAfter sectionName = sectionName ∧ ∀ line ∈ above, ∀ n, ¬ Heads line n) := by
  induction above generalizing sectionName with
  | nil => exact .inr ⟨rfl, by simp⟩
  | cons line above ih =>
    rcases ih (sectionAfter sectionName line) with hnearest | ⟨heq, hnone⟩
    · obtain ⟨front, header, back, hsplit, hheads, hback⟩ := hnearest
      exact .inl ⟨line :: front, header, back, by rw [hsplit, List.cons_append], hheads, hback⟩
    · by_cases hline : ∃ name, Heads line name
      · obtain ⟨name, hname⟩ := hline
        refine .inl ⟨[], line, above, rfl, ?_, hnone⟩
        rwa [List.foldl_cons, heq, sectionAfter_of_heads _ hname]
      · have hline : ∀ name, ¬ Heads line name := fun name hname => hline ⟨name, hname⟩
        refine .inr ⟨?_, List.forall_mem_cons.mpr ⟨hline, hnone⟩⟩
        rw [List.foldl_cons, heq, sectionAfter_of_not_heads _ hline]

theorem scope_iff {above : List (List Char)} {name : List Char} :
    Scope above name ↔ above.foldl sectionAfter [] = name := by
  constructor
  · rintro (⟨front, header, back, rfl, hheads, hback⟩ | ⟨rfl, hnone⟩)
    · rw [List.foldl_append, List.foldl_cons, sectionAfter_of_heads _ hheads,
        foldl_sectionAfter_of_not_heads _ hback]
    · exact foldl_sectionAfter_of_not_heads _ hnone
  · rintro rfl
    exact foldl_sectionAfter above []

/-! ### Readings -/

/-- What the reader makes of a line that ought to give a key a value. -/
def lineReading (sectionName line : List Char) : Option (Except Problem Setting) :=
  match Line.ofText line with
  | .entry key value => some (Setting.read sectionName key value)
  | .other => some (.error .notAnEntry)
  | _ => none

theorem readings_cons (sectionName : List Char) (number : Nat) (line : List Char)
    (lines : List (List Char)) : readings sectionName number (line :: lines) =
      (lineReading sectionName line).toList.map (number, ·) ++
        readings (sectionAfter sectionName line) (number + 1) lines := by
  unfold lineReading sectionAfter
  rw [readings]
  cases Line.ofText line <;> rfl

/-- The reading of a line depends on the line and its section only. -/
theorem mem_readings {lines : List (List Char)} {sectionName : List Char} {number k : Nat}
    {r : Except Problem Setting} : (k, r) ∈ readings sectionName number lines ↔
      ∃ above line below, lines = above ++ line :: below ∧ k = number + above.length ∧
        lineReading (above.foldl sectionAfter sectionName) line = some r := by
  induction lines generalizing sectionName number with
  | nil => simp [readings]
  | cons line lines ih =>
    rw [readings_cons, List.mem_append, ih]
    constructor
    · rintro (h | ⟨above, later, below, rfl, rfl, h⟩)
      · obtain ⟨r', hr, heq⟩ := List.mem_map.mp h
        obtain ⟨rfl, rfl⟩ := Prod.mk.inj heq
        exact ⟨[], line, lines, rfl, rfl, Option.mem_toList.mp hr⟩
      · exact ⟨line :: above, later, below, rfl, by simp; omega, h⟩
    · rintro ⟨above, later, below, hsplit, rfl, h⟩
      cases above with
      | nil =>
        obtain ⟨rfl, rfl⟩ := List.cons.inj hsplit
        exact .inl (by simpa using h)
      | cons first above =>
        obtain ⟨rfl, rfl⟩ := List.cons.inj hsplit
        exact .inr ⟨above, later, below, rfl, by simp; omega, h⟩

/-- Readings come in the order of their lines. -/
theorem pairwise_readings (lines : List (List Char)) (sectionName : List Char) (number : Nat) :
    (readings sectionName number lines).Pairwise (·.1 < ·.1) := by
  induction lines generalizing sectionName number with
  | nil => simp [readings]
  | cons line lines ih =>
    rw [readings_cons, List.pairwise_append]
    refine ⟨?_, ih _ _, ?_⟩
    · cases lineReading sectionName line <;> simp
    · rintro ⟨j, q⟩ hq ⟨k, r⟩ hr
      obtain ⟨_, -, heq⟩ := List.mem_map.mp hq
      obtain ⟨above, _, _, -, rfl, -⟩ := mem_readings.mp hr
      obtain ⟨rfl, -⟩ := Prod.mk.inj heq
      show number < number + 1 + above.length
      omega

/-- A carriage return at the end of a line makes no difference. -/
theorem readings_withoutReturn (sectionName : List Char) (number : Nat) (lines : List (List Char)) :
    readings sectionName number (lines.map Text.withoutReturn) =
      readings sectionName number lines := by
  have hline (line : List Char) : Line.ofText (Text.withoutReturn line) = Line.ofText line := by
    rw [Line.ofText, Line.ofText, Text.trim_withoutReturn]
  induction lines generalizing sectionName number with
  | nil => rfl
  | cons line lines ih =>
    rw [List.map_cons, readings_cons, readings_cons, ih, sectionAfter, lineReading, hline]
    rfl

/-! ### Entries -/

/-- A line that gives a key of a section a value, by its number. -/
def Entry (lines : List (List Char)) (number : Nat) (sectionName key : String)
    (value : List Char) : Prop :=
  ∃ above line below, lines = above ++ line :: below ∧ number = above.length + 1 ∧ Speaks line ∧
    Scope above sectionName.toList ∧ Assigns line key.toList value

/-- A line that makes no sense, by its number, and what is wrong with it. -/
inductive Broken (lines : List (List Char)) : Nat → Problem → Prop where
  | noEntry {above line below} : lines = above ++ line :: below → Speaks line → '=' ∉ trim line →
      Broken lines (above.length + 1) .notAnEntry
  | noCount {k value} : Entry lines k "target" "registers" value → (∀ n, ¬ Count value n) →
      Broken lines k (.notAnInteger (String.ofList (bareValue value)))
  | noText {k key value} : key ∈ ["runtime", "cc"] → Entry lines k "build" key value →
      (∀ inside, ¬ Quoted value inside) →
      Broken lines k (.notQuoted (String.ofList (bareValue value)))

theorem lineReading_eq_some {sectionName line : List Char} {r : Except Problem Setting} :
    lineReading sectionName line = some r ↔ Speaks line ∧
      (('=' ∉ trim line ∧ r = .error .notAnEntry) ∨
        ∃ left right, trim line = left ++ '=' :: right ∧ '=' ∉ left ∧
          r = Setting.read sectionName (bareKey (trim left)) (bareValue (trim right))) := by
  have hline := isLine_ofText line
  unfold lineReading
  generalize Line.ofText line = l at hline ⊢
  cases hline with
  | blank hignored => exact iff_of_false (by simp) fun h => h.1.1 hignored
  | header hheads => exact iff_of_false (by simp) fun h => h.1.2 _ hheads
  | @entry left right hspeaks hsplit hleft =>
    constructor
    · intro h
      exact ⟨hspeaks, .inr ⟨left, right, hsplit, hleft, (Option.some.inj h).symm⟩⟩
    · rintro ⟨-, ⟨hno, -⟩ | ⟨left', right', hsplit', hleft', rfl⟩⟩
      · exact absurd (by simp [hsplit]) hno
      · obtain ⟨rfl, rfl⟩ := Text.split_unique (hsplit.symm.trans hsplit') hleft hleft'
        rfl
  | other hspeaks hno =>
    constructor
    · intro h
      exact ⟨hspeaks, .inl ⟨hno, (Option.some.inj h).symm⟩⟩
    · rintro ⟨-, ⟨-, rfl⟩ | ⟨left, right, hsplit, -⟩⟩
      · rfl
      · exact absurd (by simp [hsplit]) hno

theorem read_eq_registers {name key value : List Char} {n : UInt8} :
    Setting.read name key (bareValue value) = .ok (.registers n) ↔
      String.ofList name = "target" ∧ String.ofList key ∈ ["registers"] ∧ Count value n := by
  rw [← readUInt8_bareValue]
  unfold Setting.read
  split
  next hname hkey =>
    split
    next n hn => simp [hname, hkey, hn]
    next hn => simp [hn]
  next hname hkey => simp [hname, map_eq_ok]
  next hname hkey => simp [hname, map_eq_ok]
  next hother _ _ => simpa using fun hname hkey => absurd hkey (hother hname)

theorem read_eq_runtime {name key value : List Char} {t : String} :
    Setting.read name key (bareValue value) = .ok (.runtime t) ↔
      String.ofList name = "build" ∧ String.ofList key ∈ ["runtime"] ∧ Quoted value t.toList := by
  rw [← quoted_bareValue]
  unfold Setting.read
  split
  next hname hkey => split <;> simp [hname]
  next hname hkey => simp [hname, hkey, map_eq_ok]
  next hname hkey => simp [hname, hkey, map_eq_ok]
  next hother _ => simpa using fun hname hkey => absurd hkey (hother hname)

theorem read_eq_compiler {name key value : List Char} {t : String} :
    Setting.read name key (bareValue value) = .ok (.compiler t) ↔
      String.ofList name = "build" ∧ String.ofList key ∈ ["cc"] ∧ Quoted value t.toList := by
  rw [← quoted_bareValue]
  unfold Setting.read
  split
  next hname hkey => split <;> simp [hname]
  next hname hkey => simp [hname, hkey, map_eq_ok]
  next hname hkey => simp [hname, hkey, map_eq_ok]
  next _ hother => simpa using fun hname hkey => absurd hkey (hother hname)

theorem quoted_map_eq_error {value : List Char} {f : String → Setting} {p : Problem} :
    (quoted (bareValue value)).map f = .error p ↔
      (∀ inside, ¬ Quoted value inside) ∧ p = .notQuoted (String.ofList (bareValue value)) := by
  cases hq : quoted (bareValue value) with
  | ok t =>
    have hquoted := quoted_bareValue.mp hq
    exact iff_of_false (by simp [Except.map]) fun h => h.1 _ hquoted
  | error q =>
    have hnone (inside : List Char) : ¬ Quoted value inside := fun h => by
      have hok := (quoted_bareValue (t := String.ofList inside)).mpr (by simpa using h)
      rw [hq] at hok
      cases hok
    simp [Except.map, hnone, eq_of_quoted_error hq, eq_comm]

theorem read_eq_notAnInteger {name key value : List Char} {v : String} :
    Setting.read name key (bareValue value) = .error (.notAnInteger v) ↔
      String.ofList name = "target" ∧ String.ofList key ∈ ["registers"] ∧ (∀ n, ¬ Count value n) ∧
        v = String.ofList (bareValue value) := by
  simp only [← readUInt8_bareValue]
  unfold Setting.read
  split
  next hname hkey =>
    split
    next n hn => exact iff_of_false (by simp) fun h => h.2.2.1 n hn
    next hn => simp [hname, hkey, hn, eq_comm]
  next hname hkey => simp [hname, quoted_map_eq_error]
  next hname hkey => simp [hname, quoted_map_eq_error]
  next hother _ _ => simpa using fun hname hkey => absurd hkey (hother hname)

theorem read_eq_notQuoted {name key value : List Char} {v : String} :
    Setting.read name key (bareValue value) = .error (.notQuoted v) ↔
      String.ofList name = "build" ∧ String.ofList key ∈ ["runtime", "cc"] ∧
        (∀ inside, ¬ Quoted value inside) ∧ v = String.ofList (bareValue value) := by
  unfold Setting.read
  split
  next hname hkey => split <;> simp [hname]
  next hname hkey => simp [hname, hkey, quoted_map_eq_error]
  next hname hkey => simp [hname, hkey, quoted_map_eq_error]
  next _ hruntime hcompiler =>
    refine iff_of_false (by simp) fun ⟨hname, hkey, _⟩ => ?_
    simp at hkey
    rcases hkey with hkey | hkey
    · exact hruntime hname hkey
    · exact hcompiler hname hkey

theorem read_ne_notAnEntry {name key value : List Char} :
    Setting.read name key (bareValue value) ≠ .error .notAnEntry := by
  unfold Setting.read
  split
  next => split <;> simp
  next => simp [quoted_map_eq_error]
  next => simp [quoted_map_eq_error]
  next => simp

/-- A reading that only some keys of one section can have comes from the entries with these keys. -/
theorem mem_readings_entry {lines : List (List Char)} {k : Nat} {r : Except Problem Setting}
    {sectionName : String} {keys : List String} {fits : List Char → Prop}
    (hread : ∀ name key value, Setting.read name key (bareValue value) = r ↔
      String.ofList name = sectionName ∧ String.ofList key ∈ keys ∧ fits value)
    (hkeys : ∀ key ∈ keys, key.toList ≠ [] ∧ '"' ∉ key.toList) (hr : r ≠ .error .notAnEntry) :
    (k, r) ∈ readings [] 1 lines ↔
      ∃ key ∈ keys, ∃ value, Entry lines k sectionName key value ∧ fits value := by
  rw [mem_readings]
  constructor
  · rintro ⟨above, line, below, hsplit, rfl, h⟩
    obtain ⟨hspeaks, ⟨-, rfl⟩ | ⟨left, right, hline, hleft, rfl⟩⟩ := lineReading_eq_some.mp h
    · exact absurd rfl hr
    · obtain ⟨hname, hkey, hfits⟩ := (hread _ _ _).mp rfl
      obtain ⟨hne, hquote⟩ := hkeys _ hkey
      obtain ⟨m, n, hword⟩ := (bareKey_eq_iff hne hquote).mp (String.toList_ofList).symm
      have hscope := scope_iff.mpr (Text.ofList_eq_iff.mp hname)
      have hassigns : Assigns line _ (trim right) := ⟨left, right, m, n, hline, hleft, hword, rfl⟩
      exact ⟨_, hkey, trim right,
        ⟨above, line, below, hsplit, Nat.add_comm .., hspeaks, hscope, hassigns⟩, hfits⟩
  · rintro ⟨key, hkey, value, ⟨above, line, below, hsplit, rfl, hspeaks, hscope, hassigns⟩, hfits⟩
    obtain ⟨left, right, m, n, hline, hleft, hword, rfl⟩ := hassigns
    obtain ⟨hne, hquote⟩ := hkeys key hkey
    have hname : String.ofList (above.foldl sectionAfter []) = sectionName := by
      rw [scope_iff.mp hscope, String.ofList_toList]
    have hbare : String.ofList (bareKey (trim left)) = key := by
      rw [(bareKey_eq_iff hne hquote).mpr ⟨m, n, hword⟩, String.ofList_toList]
    refine ⟨above, line, below, hsplit, Nat.add_comm .., lineReading_eq_some.mpr ⟨hspeaks, .inr ?_⟩⟩
    exact ⟨left, right, hline, hleft, ((hread _ _ _).mpr ⟨hname, hbare ▸ hkey, hfits⟩).symm⟩

theorem mem_readings_error {lines : List (List Char)} {k : Nat} {p : Problem} :
    (k, .error p) ∈ readings [] 1 lines ↔ Broken lines k p := by
  cases p with
  | notAnEntry =>
    constructor
    · intro h
      obtain ⟨above, line, below, hsplit, rfl, hline⟩ := mem_readings.mp h
      obtain ⟨hspeaks, ⟨hno, -⟩ | ⟨left, right, -, -, hread⟩⟩ := lineReading_eq_some.mp hline
      · rw [Nat.add_comm]
        exact .noEntry hsplit hspeaks hno
      · exact absurd hread.symm read_ne_notAnEntry
    · intro h
      cases h with
      | @noEntry above line below hsplit hspeaks hno =>
        exact mem_readings.mpr ⟨above, line, below, hsplit, Nat.add_comm ..,
          lineReading_eq_some.mpr ⟨hspeaks, .inl ⟨hno, rfl⟩⟩⟩
  | notAnInteger v =>
    rw [mem_readings_entry (fun _ _ _ => read_eq_notAnInteger) (by decide) (by simp)]
    constructor
    · rintro ⟨key, hkey, value, hentry, hno, rfl⟩
      obtain rfl := List.mem_singleton.mp hkey
      exact .noCount hentry hno
    · intro h
      cases h with
      | noCount hentry hno => exact ⟨_, List.mem_singleton_self _, _, hentry, hno, rfl⟩
  | notQuoted v =>
    rw [mem_readings_entry (fun _ _ _ => read_eq_notQuoted) (by decide) (by simp)]
    constructor
    · rintro ⟨key, hkey, value, hentry, hno, rfl⟩
      exact .noText hkey hentry hno
    · intro h
      cases h with
      | noText hkey hentry hno => exact ⟨_, hkey, _, hentry, hno, rfl⟩

/-! ### The whole file -/

/-- The reader stops at the first reading that is an error. -/
theorem setAll_error {rs : List (Nat × Except Problem Setting)} (hrs : rs.Pairwise (·.1 < ·.1))
    {s : Settings} {e : Error} (h : s.setAll rs = .error e) :
    (e.line, .error e.problem) ∈ rs ∧ ∀ j p, (j, .error p) ∈ rs → e.line ≤ j := by
  induction rs generalizing s with
  | nil => cases h
  | cons r rs ih =>
    obtain ⟨k, r⟩ := r
    obtain ⟨hfirst, hrest⟩ := List.pairwise_cons.mp hrs
    cases r with
    | ok x =>
      obtain ⟨hmem, hleast⟩ := ih hrest h
      exact ⟨List.mem_cons_of_mem _ hmem, fun j p hj => hleast j p (by simpa using hj)⟩
    | error q =>
      obtain rfl := Except.error.inj h
      refine ⟨List.mem_cons_self .., fun j p hj => ?_⟩
      rcases List.mem_cons.mp hj with hj | hj
      · exact Nat.le_of_eq (Prod.mk.inj hj).1.symm
      · exact Nat.le_of_lt (hfirst _ hj)

theorem set_root (s : Settings) (x : Setting) : (s.set x).root = s.root := by
  cases x <;> rfl

theorem setAll_ok {rs : List (Nat × Except Problem Setting)} {s s' : Settings}
    (h : s.setAll rs = .ok s') : s'.root = s.root ∧ ∀ j p, (j, .error p) ∉ rs := by
  induction rs generalizing s with
  | nil => exact ⟨by cases h; rfl, by simp⟩
  | cons r rs ih =>
    obtain ⟨k, r⟩ := r
    cases r with
    | ok x =>
      obtain ⟨hroot, hnone⟩ := ih h
      exact ⟨hroot.trans (s.set_root x), fun j p hj => hnone j p (by simpa using hj)⟩
    | error q => cases h

/-- Of the readings that set one thing, the last one counts. -/
theorem setAll_last {α : Type} {get : Settings → Option α} {pick : Setting → Option α} {root : Path}
    (hset : ∀ s : Settings, s.root = root → ∀ x, get (s.set x) = (pick x).or (get s))
    {rs : List (Nat × Except Problem Setting)} (hrs : rs.Pairwise (·.1 < ·.1)) {s s' : Settings}
    (hroot : s.root = root) (h : s.setAll rs = .ok s') :
    (get s' = get s ∧ ∀ k x, (k, .ok x) ∈ rs → pick x = none) ∨
    ∃ k x a, (k, .ok x) ∈ rs ∧ pick x = some a ∧ get s' = some a ∧
      ∀ j y, (j, .ok y) ∈ rs → pick y ≠ none → j ≤ k := by
  induction rs generalizing s with
  | nil =>
    cases h
    exact .inl ⟨rfl, by simp⟩
  | cons r rs ih =>
    obtain ⟨k, r⟩ := r
    obtain ⟨hfirst, hrest⟩ := List.pairwise_cons.mp hrs
    cases r with
    | error q => cases h
    | ok x =>
      rcases ih hrest ((s.set_root x).trans hroot) h with ⟨hget, hnone⟩ | hlater
      · rw [hset s hroot] at hget
        cases hpick : pick x with
        | none =>
          rw [hpick, Option.none_or] at hget
          refine .inl ⟨hget, fun j y hj => ?_⟩
          rcases List.mem_cons.mp hj with hj | hj
          · cases hj
            exact hpick
          · exact hnone j y hj
        | some a =>
          rw [hpick, Option.some_or] at hget
          refine .inr ⟨k, x, a, List.mem_cons_self .., hpick, hget, fun j y hj hy => ?_⟩
          rcases List.mem_cons.mp hj with hj | hj
          · exact Nat.le_of_eq (Prod.mk.inj hj).1
          · exact absurd (hnone j y hj) hy
      · obtain ⟨m, y, a, hmem, hpick, hget, hlast⟩ := hlater
        refine .inr ⟨m, y, a, List.mem_cons_of_mem _ hmem, hpick, hget, fun j z hj hz => ?_⟩
        rcases List.mem_cons.mp hj with hj | hj
        · cases hj
          exact Nat.le_of_lt (hfirst _ hmem)
        · exact hlast j z hj hz

/-- What a file says about a key: the meaning of the last value that it gives the key, or nothing
when it gives it none. -/
def Latest {α : Type} (lines : List (List Char)) (sectionName key : String)
    (means : List Char → α → Prop) : Option α → Prop
  | none => ∀ k value, ¬ Entry lines k sectionName key value
  | some a => ∃ k value, Entry lines k sectionName key value ∧ means value a ∧
      ∀ j other, Entry lines j sectionName key other → j ≤ k

theorem latest_of_setAll {α : Type} {get : Settings → Option α} (pick : Setting → Option α)
    {lines : List (List Char)} {sectionName key : String} {means : List Char → α → Prop}
    {s s' : Settings}
    (hset : ∀ t : Settings, t.root = s.root → ∀ x, get (t.set x) = (pick x).or (get t))
    (hmem : ∀ k a, (∃ x, (k, .ok x) ∈ readings [] 1 lines ∧ pick x = some a) ↔
      ∃ value, Entry lines k sectionName key value ∧ means value a)
    (hmeans : ∀ k value, Entry lines k sectionName key value → ∃ a, means value a)
    (hs : get s = none) (h : s.setAll (readings [] 1 lines) = .ok s') :
    Latest lines sectionName key means (get s') := by
  have hentry {j : Nat} {value : List Char} (hj : Entry lines j sectionName key value) :
      ∃ x, (j, .ok x) ∈ readings [] 1 lines ∧ pick x ≠ none := by
    obtain ⟨a, ha⟩ := hmeans j value hj
    obtain ⟨x, hx, hpick⟩ := (hmem j a).mpr ⟨value, hj, ha⟩
    exact ⟨x, hx, by simp [hpick]⟩
  rcases setAll_last hset (pairwise_readings lines [] 1) rfl h with ⟨hget, hnone⟩ | hlast
  · rw [hget, hs]
    intro k value hk
    obtain ⟨x, hx, hpick⟩ := hentry hk
    exact hpick (hnone k x hx)
  · obtain ⟨k, x, a, hx, hpick, hget, hlast⟩ := hlast
    obtain ⟨value, hvalue, ha⟩ := (hmem k a).mp ⟨x, hx, hpick⟩
    rw [hget]
    refine ⟨k, value, hvalue, ha, fun j other hj => ?_⟩
    obtain ⟨y, hy, hpick⟩ := hentry hj
    exact hlast j y hy hpick

/-- What the lines of a file in the directory `root` say altogether. -/
structure Says (lines : List (List Char)) (root : Path) (s : Settings) : Prop where
  root_eq : s.root = root
  registers : Latest lines "target" "registers" Count s.registers
  runtime : Latest lines "build" "runtime" (fun value path => ∃ inside, Quoted value inside ∧
    path = root.join ⟨String.ofList inside⟩) s.runtime
  compiler : Latest lines "build" "cc" (fun value command => Quoted value command.toList) s.compiler

/-- The count of registers that a setting brings along. -/
def Setting.count? : Setting → Option UInt8
  | .registers n => some n
  | _ => none

def Setting.runtime? (root : Path) : Setting → Option Path
  | .runtime p => some (root.join ⟨p⟩)
  | _ => none

def Setting.compiler? : Setting → Option String
  | .compiler c => some c
  | _ => none

theorem mem_readings_count {lines : List (List Char)} (k : Nat) (n : UInt8) :
    (∃ x, (k, .ok x) ∈ readings [] 1 lines ∧ Setting.count? x = some n) ↔
      ∃ value, Entry lines k "target" "registers" value ∧ Count value n := by
  have hpick (x : Setting) : x.count? = some n ↔ x = .registers n := by
    cases x <;> simp [Setting.count?]
  simp only [hpick, exists_eq_right]
  rw [mem_readings_entry (fun _ _ _ => read_eq_registers) (by decide) (by simp)]
  simp only [List.mem_singleton, exists_eq_left]

theorem mem_readings_runtime {lines : List (List Char)} {root : Path} (k : Nat) (path : Path) :
    (∃ x, (k, .ok x) ∈ readings [] 1 lines ∧ Setting.runtime? root x = some path) ↔
      ∃ value, Entry lines k "build" "runtime" value ∧
        ∃ inside, Quoted value inside ∧ path = root.join ⟨String.ofList inside⟩ := by
  have hmem (t : String) : (k, .ok (.runtime t)) ∈ readings [] 1 lines ↔
      ∃ value, Entry lines k "build" "runtime" value ∧ Quoted value t.toList := by
    rw [mem_readings_entry (fun _ _ _ => read_eq_runtime) (by decide) (by simp)]
    simp only [List.mem_singleton, exists_eq_left]
  constructor
  · rintro ⟨x, hx, hpick⟩
    cases x with
    | runtime t =>
      obtain ⟨value, hentry, hquoted⟩ := (hmem t).mp hx
      refine ⟨value, hentry, t.toList, hquoted, ?_⟩
      rw [String.ofList_toList]
      exact (Option.some.inj hpick).symm
    | _ => cases hpick
  · rintro ⟨value, hentry, inside, hquoted, rfl⟩
    refine ⟨.runtime (String.ofList inside), (hmem _).mpr ⟨value, hentry, ?_⟩, rfl⟩
    rwa [String.toList_ofList]

theorem mem_readings_compiler {lines : List (List Char)} (k : Nat) (c : String) :
    (∃ x, (k, .ok x) ∈ readings [] 1 lines ∧ Setting.compiler? x = some c) ↔
      ∃ value, Entry lines k "build" "cc" value ∧ Quoted value c.toList := by
  have hpick (x : Setting) : x.compiler? = some c ↔ x = .compiler c := by
    cases x <;> simp [Setting.compiler?]
  simp only [hpick, exists_eq_right]
  rw [mem_readings_entry (fun _ _ _ => read_eq_compiler) (by decide) (by simp)]
  simp only [List.mem_singleton, exists_eq_left]

theorem says_of_setAll {lines : List (List Char)} {root : Path} {s : Settings}
    (h : ({root} : Settings).setAll (readings [] 1 lines) = .ok s) : Says lines root s := by
  obtain ⟨hroot, hnone⟩ := setAll_ok h
  have hsound (k : Nat) (p : Problem) : ¬ Broken lines k p :=
    fun hk => hnone k p (mem_readings_error.mpr hk)
  have hquoted {k : Nat} {key : String} {value : List Char} (hkey : key ∈ ["runtime", "cc"])
      (hk : Entry lines k "build" key value) : ∃ inside, Quoted value inside := by
    refine Classical.byContradiction fun hno => ?_
    exact hsound k _ (.noText hkey hk fun inside hi => hno ⟨inside, hi⟩)
  refine ⟨hroot, ?_, ?_, ?_⟩
  · refine latest_of_setAll Setting.count? ?_ mem_readings_count ?_ rfl h
    · intro t _ x
      cases x <;> rfl
    · intro k value hk
      refine Classical.byContradiction fun hno => ?_
      exact hsound k _ (.noCount hk fun n hn => hno ⟨n, hn⟩)
  · refine latest_of_setAll (Setting.runtime? root) ?_ mem_readings_runtime ?_ rfl h
    · intro t ht x
      cases x with
      | runtime p =>
        show some (t.root.join ⟨p⟩) = some (root.join ⟨p⟩)
        rw [ht]
      | _ => rfl
    · intro k value hk
      obtain ⟨inside, hi⟩ := hquoted (by simp) hk
      exact ⟨_, inside, hi, rfl⟩
  · refine latest_of_setAll Setting.compiler? ?_ mem_readings_compiler ?_ rfl h
    · intro t _ x
      cases x <;> rfl
    · intro k value hk
      obtain ⟨inside, hi⟩ := hquoted (by simp) hk
      exact ⟨String.ofList inside, by rwa [String.toList_ofList]⟩

/-- A file is refused exactly when a line of it is broken, and then its first broken line is named.
The settings of any other file are what its lines say. -/
theorem read_meaning (root : Path) (content : String) :
    ((∃ s, read root content = .ok s) ↔ ∀ k p, ¬ Broken (Text.lines content.toList) k p) ∧
    (∀ e, read root content = .error e →
      Broken (Text.lines content.toList) e.line e.problem ∧
      (∀ j p, Broken (Text.lines content.toList) j p → e.line ≤ j) ∧
      ∃ text, e.message = "stackasm.toml:" ++ toString e.line ++ ": " ++ text) ∧
    ∀ s, read root content = .ok s → Says (Text.lines content.toList) root s := by
  have hread : read root content =
      ({root} : Settings).setAll (readings [] 1 (Text.lines content.toList)) := by
    rw [Text.lines, readings_withoutReturn]
    rfl
  rw [hread]
  generalize Text.lines content.toList = lines
  have herror {e : Error} (h : ({root} : Settings).setAll (readings [] 1 lines) = .error e) :=
    setAll_error (pairwise_readings lines [] 1) h
  refine ⟨⟨?_, ?_⟩, ?_, fun s hs => says_of_setAll hs⟩
  · rintro ⟨s, hs⟩ k p hk
    exact (setAll_ok hs).2 k p (mem_readings_error.mpr hk)
  · intro hsound
    cases h : ({root} : Settings).setAll (readings [] 1 lines) with
    | ok s => exact ⟨s, rfl⟩
    | error e => exact absurd (mem_readings_error.mp (herror h).1) (hsound _ _)
  · intro e he
    obtain ⟨hmem, hleast⟩ := herror he
    exact ⟨mem_readings_error.mp hmem, fun j p hj => hleast j p (mem_readings_error.mpr hj), _, rfl⟩

-- The sign of a comment is text between quotes, and the names of sections and keys are trimmed.
example : read ⟨"a"⟩ "[build]\ncc = \"g#c\" # x\n[ target ]\n\"registers\" = +3" =
    .ok {root := ⟨"a"⟩, registers := some 3, compiler := some "g#c"} := rfl

end Settings

end StackBackend
