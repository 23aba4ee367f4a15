import StackBackend.Proofs.RoundTrip

/-! A listing is read line by line, and where a line stands changes nothing but the spans.

`moved` takes a span some bytes further on. The words of a line that stands further on are the same
words, moved (`words_moved`), and all spans of a reading are made of theirs. So the whole reading is
the same, moved (`readLine_moved`), as long as the positions can be counted. A text of two parts with
a line feed between them is cut into the lines of the parts, and the errors of all lines are gathered
(`gather_append`). `report_join` puts this together: reading the text is reading its parts. -/
namespace StackBackend

/-! ### Moved spans -/

/-- The span `n` bytes further on. -/
def Span.moved (n : Nat) (s : Span) : Span := ofBytes (s.start.toNat + n) (s.stop.toNat + n)

def Located.moved {α : Type} (n : Nat) (x : Located α) : Located α := ⟨x.val, x.span.moved n⟩

def Diagnostic.moved (n : Nat) (d : Diagnostic) : Diagnostic := {d with span := d.span.moved n}

namespace Span

/-- Both ends of the span are at byte `limit` at most. -/
def UpTo (limit : Nat) (s : Span) : Prop := s.start.toNat ≤ limit ∧ s.stop.toNat ≤ limit

variable {limit n : Nat} {s t : Span}

theorem ofBytes_toNat {a b : Nat} (ha : a < 4294967296) (hb : b < 4294967296) :
    (ofBytes a b).start.toNat = a ∧ (ofBytes a b).stop.toNat = b :=
  ⟨UInt32.toNat_ofNat_of_lt' ha, UInt32.toNat_ofNat_of_lt' hb⟩

theorem moved_toNat (hs : s.UpTo limit) (hn : limit + n < 4294967296) :
    (s.moved n).start.toNat = s.start.toNat + n ∧ (s.moved n).stop.toNat = s.stop.toNat + n := by
  obtain ⟨hstart, hstop⟩ := hs
  exact ofBytes_toNat (by omega) (by omega)

theorem ext_toNat (hstart : s.start.toNat = t.start.toNat) (hstop : s.stop.toNat = t.stop.toNat) :
    s = t := by
  cases s
  cases t
  simp only [mk.injEq]
  exact ⟨UInt32.toNat_inj.mp hstart, UInt32.toNat_inj.mp hstop⟩

theorem merge_toNat (s t : Span) : (s.merge t).start.toNat = min s.start.toNat t.start.toNat ∧
    (s.merge t).stop.toNat = max s.stop.toNat t.stop.toNat := by
  constructor
  · show (if s.start ≤ t.start then s.start else t.start).toNat = _
    simp only [UInt32.le_iff_toNat_le]
    split <;> omega
  · show (if s.stop ≤ t.stop then t.stop else s.stop).toNat = _
    simp only [UInt32.le_iff_toNat_le]
    split <;> omega

theorem merge_self (s : Span) : s.merge s = s := by
  have h := merge_toNat s s
  exact ext_toNat (by omega) (by omega)

theorem UpTo.merge (hs : s.UpTo limit) (ht : t.UpTo limit) : (s.merge t).UpTo limit := by
  have h := merge_toNat s t
  unfold UpTo at *
  omega

theorem merge_moved (hs : s.UpTo limit) (ht : t.UpTo limit) (hn : limit + n < 4294967296) :
    (s.moved n).merge (t.moved n) = (s.merge t).moved n := by
  have hs' := moved_toNat hs hn
  have ht' := moved_toNat ht hn
  have hboth := moved_toNat (hs.merge ht) hn
  have hmerge := merge_toNat s t
  have hmerge' := merge_toNat (s.moved n) (t.moved n)
  refine ext_toNat ?_ ?_
  · rw [hmerge'.1, hs'.1, ht'.1, hboth.1, hmerge.1, Nat.add_min_add_right]
  · rw [hmerge'.2, hs'.2, ht'.2, hboth.2, hmerge.2, Nat.add_max_add_right]

end Span

namespace Listing

open Text (isBlank byteLength)

variable {n limit : Nat}

/-! ### Words

A text is blanks, or blanks, a word and a text that does not go on with the word. To say something of
the runs of all texts, it is enough to say it of these two kinds. -/

/-- A text as words with blanks around them. -/
inductive Spaced : List Char → Prop where
  | blank {gap : List Char} : (∀ c ∈ gap, isBlank c = true) → Spaced gap
  | word {gap w rest : List Char} : (∀ c ∈ gap, isBlank c = true) → w ≠ [] →
      (∀ c ∈ w, isBlank c = false) → (∀ c, rest.head? = some c → isBlank c = true) →
      Spaced rest → Spaced (gap ++ (w ++ rest))

theorem spaced (cs : List Char) : Spaced cs := by
  induction cs with
  | nil => exact .blank (by simp)
  | cons c cs ih =>
    cases hc : isBlank c with
    | true =>
      cases ih with
      | blank hgap => exact .blank (List.forall_mem_cons.mpr ⟨hc, hgap⟩)
      | word hgap hne hw hend hrest =>
        rw [← List.cons_append]
        exact .word (List.forall_mem_cons.mpr ⟨hc, hgap⟩) hne hw hend hrest
    | false =>
      -- The character is a word by itself, unless it stands in front of a word.
      have alone (hend : ∀ d, cs.head? = some d → isBlank d = true) : Spaced ([] ++ ([c] ++ cs)) :=
        .word (by simp) (by simp) (by simp [hc]) hend ih
      cases ih with
      | blank hgap => exact alone fun d hd => hgap d (List.mem_of_head? hd)
      | @word gap w rest hgap hne hw hend hrest =>
        cases gap with
        | nil =>
          have joined : Spaced ([] ++ ((c :: w) ++ rest)) :=
            .word (by simp) (by simp) (List.forall_mem_cons.mpr ⟨hc, hw⟩) hend hrest
          exact joined
        | cons g gap =>
          exact alone fun d hd => hgap d (List.mem_cons.mpr (.inl (by simpa using hd.symm)))

def wordAt (r : Nat × List Char) : Located String :=
  ⟨String.ofList r.2, .ofBytes r.1 (r.1 + byteLength r.2)⟩

theorem words_eq (start : Nat) (cs : List Char) : words start cs = (runs start cs).map wordAt := rfl

theorem runs_gap (start : Nat) {gap : List Char} (h : ∀ c ∈ gap, isBlank c = true)
    (cs : List Char) : runs start (gap ++ cs) = runs (start + byteLength gap) cs := by
  induction gap generalizing start with
  | nil => rfl
  | cons c gap ih =>
    obtain ⟨hc, hgap⟩ := List.forall_mem_cons.mp h
    rw [List.cons_append, runs_blank start hc, ih _ hgap, byteLength, Nat.add_assoc]

theorem runs_spaced (start : Nat) {gap w rest : List Char} (hgap : ∀ c ∈ gap, isBlank c = true)
    (hne : w ≠ []) (hw : ∀ c ∈ w, isBlank c = false)
    (hend : ∀ c, rest.head? = some c → isBlank c = true) :
    runs start (gap ++ (w ++ rest)) = (start + byteLength gap, w) ::
      runs (start + byteLength gap + byteLength w) rest := by
  rw [runs_gap start hgap, runs_append _ rest hw hne hend]

theorem runs_blanks (start : Nat) {gap : List Char} (h : ∀ c ∈ gap, isBlank c = true) :
    runs start gap = [] := by
  have hruns := runs_gap start h []
  rwa [List.append_nil] at hruns

theorem runs_moved (start n : Nat) (cs : List Char) :
    runs (start + n) cs = (runs start cs).map fun r => (r.1 + n, r.2) := by
  induction spaced cs generalizing start with
  | blank hgap => simp only [runs_blanks _ hgap, List.map_nil]
  | @word gap w rest hgap hne hw hend _ ih =>
    have hrest := ih (start + byteLength gap + byteLength w)
    simp only [runs_spaced _ hgap hne hw hend, List.map_cons, ← hrest]
    simp only [Nat.add_right_comm _ n]

/-- Runs lie within their text. -/
theorem runs_bounds {start : Nat} {cs : List Char} {r : Nat × List Char} (h : r ∈ runs start cs) :
    start ≤ r.1 ∧ r.1 + byteLength r.2 ≤ start + byteLength cs := by
  induction spaced cs generalizing start with
  | blank hgap =>
    rw [runs_blanks _ hgap] at h
    cases h
  | word hgap hne hw hend _ ih =>
    rw [runs_spaced _ hgap hne hw hend] at h
    simp only [Text.byteLength_append]
    rcases List.mem_cons.mp h with rfl | hr
    · dsimp only
      omega
    · have hrest := ih hr
      omega

theorem wordAt_toNat {r : Nat × List Char} (h : r.1 + byteLength r.2 < 4294967296) :
    (wordAt r).span.start.toNat = r.1 ∧ (wordAt r).span.stop.toNat = r.1 + byteLength r.2 :=
  Span.ofBytes_toNat (by omega) h

theorem wordAt_moved {r : Nat × List Char} (n : Nat) (h : r.1 + byteLength r.2 < 4294967296) :
    wordAt (r.1 + n, r.2) = (wordAt r).moved n := by
  obtain ⟨hstart, hstop⟩ := wordAt_toNat h
  rw [Located.moved, Span.moved, hstart, hstop, Nat.add_right_comm]
  rfl

theorem words_moved {start : Nat} (n : Nat) {cs : List Char}
    (h : start + byteLength cs < 4294967296) :
    words (start + n) cs = (words start cs).map (Located.moved n) := by
  simp only [words_eq, runs_moved start n, List.map_map, List.map_inj_left, Function.comp_apply]
  intro r hr
  have hbounds := runs_bounds hr
  exact wordAt_moved n (by omega)

theorem words_upTo {start : Nat} {cs : List Char} (h : start + byteLength cs < 4294967296) :
    ∀ w ∈ words start cs, w.span.UpTo (start + byteLength cs) := by
  intro w hw
  obtain ⟨r, hr, rfl⟩ := List.mem_map.mp hw
  have hbounds := runs_bounds hr
  obtain ⟨hstart, hstop⟩ := wordAt_toNat (r := r) (by omega)
  show (wordAt r).span.UpTo _
  unfold Span.UpTo
  omega

/-! ### Lines -/

variable {m w : Located String} {args ws : List (Located String)}

theorem spanOf_upTo (h : ∀ x ∈ w :: ws, x.span.UpTo limit) : (spanOf w ws).UpTo limit := by
  obtain ⟨hw, hws⟩ := List.forall_mem_cons.mp h
  refine hw.merge ?_
  cases hlast : ws.getLast? with
  | none => exact hw
  | some last => exact hws last (List.mem_of_getLast? hlast)

theorem spanOf_nil (w : Located String) : spanOf w [] = w.span := w.span.merge_self

theorem spanOf_moved (hn : limit + n < 4294967296) (h : ∀ x ∈ w :: ws, x.span.UpTo limit) :
    spanOf (w.moved n) (ws.map (Located.moved n)) = (spanOf w ws).moved n := by
  obtain ⟨hw, hws⟩ := List.forall_mem_cons.mp h
  unfold spanOf
  rw [List.getLast?_map]
  cases hlast : ws.getLast? with
  | none => exact Span.merge_moved hw hw hn
  | some last => exact Span.merge_moved hw (hws last (List.mem_of_getLast? hlast)) hn

/-- The span of an error is that of some words that follow each other in the line. -/
theorem readOp_error {e : Located Error} (h : readOp m args = .error e) :
    ∃ before w ws after, m :: args = before ++ (w :: ws ++ after) ∧ e.span = spanOf w ws := by
  have none {op : Op} (h : noOperand m args op = .error e) :
      ∃ before w ws after, m :: args = before ++ (w :: ws ++ after) ∧ e.span = spanOf w ws := by
    cases args with
    | nil => cases h
    | cons w ws =>
      cases h
      exact ⟨[m], w, ws, [], by simp, rfl⟩
  have one {f : String → Except Error Op} (h : oneOperand m args f = .error e) :
      ∃ before w ws after, m :: args = before ++ (w :: ws ++ after) ∧ e.span = spanOf w ws := by
    cases args with
    | nil =>
      cases h
      exact ⟨[], m, [], [], by simp, (spanOf_nil m).symm⟩
    | cons a args =>
      cases args with
      | nil =>
        unfold oneOperand at h
        cases hf : f a.val with
        | ok op =>
          simp only [hf] at h
          cases h
        | error cause =>
          simp only [hf] at h
          cases h
          exact ⟨[m], a, [], [], by simp, (spanOf_nil a).symm⟩
      | cons w ws =>
        cases h
        exact ⟨[m, a], w, ws, [], by simp, rfl⟩
  unfold readOp at h
  split at h
  next => exact none h
  next => exact none h
  next => exact one h
  next => exact one h
  next => exact one h
  next => exact one h
  next =>
    cases h
    exact ⟨[], m, [], args, by simp, (spanOf_nil m).symm⟩

theorem noOperand_moved (op : Op) (hn : limit + n < 4294967296)
    (h : ∀ x ∈ args, x.span.UpTo limit) :
    noOperand (m.moved n) (args.map (Located.moved n)) op =
      (noOperand m args op).mapError (Located.moved n) := by
  cases args with
  | nil => rfl
  | cons w ws =>
    simp only [List.map_cons, noOperand, spanOf_moved hn h]
    rfl

theorem oneOperand_moved (f : String → Except Error Op) (hn : limit + n < 4294967296)
    (h : ∀ x ∈ args, x.span.UpTo limit) :
    oneOperand (m.moved n) (args.map (Located.moved n)) f =
      (oneOperand m args f).mapError (Located.moved n) := by
  cases args with
  | nil => rfl
  | cons a args =>
    cases args with
    | nil =>
      show (f a.val).mapError _ = ((f a.val).mapError _).mapError _
      cases f a.val with
      | ok op => rfl
      | error cause => rfl
    | cons w ws =>
      simp only [List.map_cons, oneOperand, spanOf_moved hn (List.forall_mem_cons.mp h).2]
      rfl

theorem readOp_moved (hn : limit + n < 4294967296) (h : ∀ x ∈ m :: args, x.span.UpTo limit) :
    readOp (m.moved n) (args.map (Located.moved n)) =
      (readOp m args).mapError (Located.moved n) := by
  have hargs := (List.forall_mem_cons.mp h).2
  have hval : (m.moved n).val = m.val := rfl
  unfold readOp
  rw [hval]
  split
  next => exact noOperand_moved _ hn hargs
  next => exact noOperand_moved _ hn hargs
  next => exact oneOperand_moved _ hn hargs
  next => exact oneOperand_moved _ hn hargs
  next => exact oneOperand_moved _ hn hargs
  next => exact oneOperand_moved _ hn hargs
  next => rfl

/-- What is read, `n` bytes further on. -/
def movedReading (n : Nat) :
    Except (Located Error) (Located Op) → Except (Located Error) (Located Op)
  | .ok x => .ok (x.moved n)
  | .error e => .error (e.moved n)

theorem readLine_moved {start : Nat} {line : List Char}
    (h : start + byteLength line + n < 4294967296) :
    readLine (start + n) line = (readLine start line).map (movedReading n) := by
  have hle := Text.byteLength_before_le '#' line
  have hwords : ∀ w ∈ words start (Text.before '#' line),
      w.span.UpTo (start + byteLength (Text.before '#' line)) := words_upTo (by omega)
  unfold readLine
  rw [words_moved n (by omega)]
  cases hcut : words start (Text.before '#' line) with
  | nil => rfl
  | cons w ws =>
    rw [hcut] at hwords
    have hop := readOp_moved (n := n) (by omega) hwords
    have hspan := spanOf_moved (n := n) (by omega) hwords
    simp only [List.map_cons, hop, hspan]
    cases readOp w ws with
    | ok op => rfl
    | error e => rfl

theorem readLines_moved {start : Nat} {lines : List (List Char)}
    (h : start + byteLength (Text.join '\n' lines) + n < 4294967296) :
    readLines (start + n) lines = (readLines start lines).map (movedReading n) := by
  induction lines generalizing start with
  | nil => rfl
  | cons line lines ih =>
    have hnewline : '\n'.utf8Size = 1 := rfl
    have hrest : readLines (start + n + byteLength line + 1) lines =
        (readLines (start + byteLength line + 1) lines).map (movedReading n) := by
      cases lines with
      | nil => rfl
      | cons next lines =>
        rw [Text.join, Text.byteLength_append, byteLength, hnewline] at h
        have hmoved : readLines (start + byteLength line + 1 + n) (next :: lines) = _ :=
          ih (by omega)
        rw [← hmoved]
        congr 1
        omega
    have hline : start + byteLength line + n < 4294967296 := by
      cases lines with
      | nil => exact h
      | cons next lines =>
        rw [Text.join, Text.byteLength_append] at h
        omega
    rw [readLines, readLines, readLine_moved hline, hrest, List.map_append]
    cases readLine start line with
    | none => rfl
    | some reading => rfl

/-- The byte at which a line starts, from the lines above it. -/
theorem lineStart_cons (start : Nat) (line : List Char) (before : List (List Char)) :
    start + byteLength ((line :: before).flatMap (· ++ ['\n'])) =
      start + byteLength line + 1 + byteLength (before.flatMap (· ++ ['\n'])) := by
  have hnewline : byteLength ['\n'] = 1 := rfl
  rw [List.flatMap_cons, Text.byteLength_append, Text.byteLength_append, hnewline]
  omega

theorem readLines_append (start : Nat) (xs ys : List (List Char)) :
    readLines start (xs ++ ys) =
      readLines start xs ++ readLines (start + byteLength (xs.flatMap (· ++ ['\n']))) ys := by
  induction xs generalizing start with
  | nil => rfl
  | cons x xs ih =>
    rw [List.cons_append, readLines, readLines, ih, lineStart_cons, List.append_assoc]

/-! ### Listings -/

/-- The errors of a reading, none when it succeeds. -/
def errors {ε α : Type} : Except (List ε) α → List ε
  | .ok _ => []
  | .error es => es

/-- All that two readings give when both succeed, and the errors of both otherwise. -/
def both {ε α : Type} (x y : Except (List ε) (List α)) : Except (List ε) (List α) :=
  match x, y with
  | .ok a, .ok b => .ok (a ++ b)
  | x, y => .error (errors x ++ errors y)

/-- The error of a line. -/
def error? {ε α : Type} : Except ε α → Option ε
  | .ok _ => none
  | .error e => some e

theorem gather_eq (readings : List (Except (Located Error) (Located Op))) :
    gather readings =
      if readings.filterMap error? = [] then .ok (readings.filterMap Except.toOption)
      else .error (readings.filterMap error?) := by
  have hsame {f : Except (Located Error) (Located Op) → Option (Located Error)}
      (hf : ∀ r, f r = error? r) : readings.filterMap f = readings.filterMap error? := by
    rw [funext hf]
  unfold gather
  rw [hsame fun r => by cases r <;> rfl]
  split
  next hnone => rw [if_pos hnone]
  next hsome => rw [if_neg hsome]

theorem gather_append (xs ys : List (Except (Located Error) (Located Op))) :
    gather (xs ++ ys) = both (gather xs) (gather ys) := by
  rw [gather_eq, gather_eq xs, gather_eq ys, List.filterMap_append, List.filterMap_append]
  by_cases hx : xs.filterMap error? = []
  · by_cases hy : ys.filterMap error? = []
    · simp [hx, hy, both]
    · simp [hx, hy, both, errors]
  · by_cases hy : ys.filterMap error? = []
    · simp [hx, hy, both, errors]
    · simp [hx, hy, both, errors]

/-- A reading with all operations and errors `n` bytes further on. `move` moves an error. -/
def movedAll {ε : Type} (move : Nat → ε → ε) (n : Nat) :
    Except (List ε) (List (Located Op)) → Except (List ε) (List (Located Op))
  | .ok ops => .ok (ops.map (Located.moved n))
  | .error es => .error (es.map (move n))

theorem gather_moved (n : Nat) (readings : List (Except (Located Error) (Located Op))) :
    gather (readings.map (movedReading n)) = movedAll Located.moved n (gather readings) := by
  have herrors : (readings.map (movedReading n)).filterMap error? =
      (readings.filterMap error?).map (Located.moved n) := by
    rw [List.filterMap_map, List.map_filterMap]
    congr 1
    funext r
    cases r <;> rfl
  have hops : (readings.map (movedReading n)).filterMap Except.toOption =
      (readings.filterMap Except.toOption).map (Located.moved n) := by
    rw [List.filterMap_map, List.map_filterMap]
    congr 1
    funext r
    cases r <;> rfl
  rw [gather_eq, gather_eq, herrors, hops]
  by_cases hnone : readings.filterMap error? = []
  · rw [hnone]
    rfl
  · rw [if_neg hnone, if_neg (by simpa using hnone)]
    rfl

theorem byteLength_lines (source : String) :
    byteLength ((Text.pieces '\n' source.toList).flatMap (· ++ ['\n'])) = source.utf8ByteSize + 1 := by
  rw [← Text.join_concat '\n' (Text.pieces_ne_nil '\n' source.toList), Text.join_pieces,
    Text.byteLength_append, Text.byteLength_toList]
  rfl

theorem read_join {a b : String} (hsize : a.utf8ByteSize + 1 + b.utf8ByteSize < 4294967296) :
    read (a ++ "\n" ++ b) = both (read a) (movedAll Located.moved (a.utf8ByteSize + 1) (read b)) := by
  have htext : (a ++ "\n" ++ b).toList = a.toList ++ '\n' :: b.toList := by simp
  have hmoved : readLines (0 + (a.utf8ByteSize + 1)) (Text.pieces '\n' b.toList) = _ :=
    readLines_moved (by
      rw [Text.join_pieces, Text.byteLength_toList]
      omega)
  rw [read, htext, Text.pieces_append, readLines_append, byteLength_lines, hmoved, gather_append,
    gather_moved]
  rfl

/-! ### Reports -/

/-- A text that is read for its user: its operations, or a report on every error. -/
def report (source : String) : Except (List Diagnostic) (List (Located Op)) :=
  (read source).mapError (·.map Error.diagnostic)

/-- The spans in a report. -/
def spans : Except (List Diagnostic) (List (Located Op)) → List Span
  | .ok ops => ops.map (·.span)
  | .error ds => ds.map (·.span)

theorem both_diagnostics (x y : Except (List (Located Error)) (List (Located Op))) :
    both (x.mapError (·.map Error.diagnostic)) (y.mapError (·.map Error.diagnostic)) =
      (both x y).mapError (·.map Error.diagnostic) := by
  cases x with
  | ok a =>
    cases y with
    | ok b => rfl
    | error f => rfl
  | error e =>
    cases y with
    | ok b =>
      show Except.error (e.map Error.diagnostic ++ []) = .error ((e ++ []).map Error.diagnostic)
      rw [List.append_nil, List.append_nil]
    | error f =>
      show Except.error (e.map Error.diagnostic ++ f.map Error.diagnostic) =
        .error ((e ++ f).map Error.diagnostic)
      rw [List.map_append]

/-- A report says where an error is in its span only. -/
theorem movedAll_diagnostics (n : Nat) (x : Except (List (Located Error)) (List (Located Op))) :
    movedAll Diagnostic.moved n (x.mapError (·.map Error.diagnostic)) =
      (movedAll Located.moved n x).mapError (·.map Error.diagnostic) := by
  cases x with
  | ok ops => rfl
  | error es =>
    show Except.error ((es.map Error.diagnostic).map (Diagnostic.moved n)) =
      .error ((es.map (Located.moved n)).map Error.diagnostic)
    rw [List.map_map, List.map_map]
    rfl

/-- The span of what is read in a line. -/
def readingSpan : Except (Located Error) (Located Op) → Span
  | .ok x => x.span
  | .error e => e.span

theorem readLine_upTo {start : Nat} {line : List Char}
    {reading : Except (Located Error) (Located Op)} (h : start + byteLength line < 4294967296)
    (hr : readLine start line = some reading) :
    (readingSpan reading).UpTo (start + byteLength line) := by
  have hle := Text.byteLength_before_le '#' line
  have hwords : ∀ w ∈ words start (Text.before '#' line),
      w.span.UpTo (start + byteLength (Text.before '#' line)) := words_upTo (by omega)
  suffices hspan : (readingSpan reading).UpTo (start + byteLength (Text.before '#' line)) by
    unfold Span.UpTo at *
    omega
  unfold readLine at hr
  cases hcut : words start (Text.before '#' line) with
  | nil =>
    rw [hcut] at hr
    cases hr
  | cons w ws =>
    rw [hcut] at hr hwords
    simp only [Option.some.injEq] at hr
    subst hr
    cases hop : readOp w ws with
    | ok op => exact spanOf_upTo hwords
    | error e =>
      obtain ⟨before, v, vs, after, hsplit, hspan⟩ := readOp_error hop
      show e.span.UpTo _
      rw [hspan]
      refine spanOf_upTo fun x hx => hwords x ?_
      rw [hsplit]
      exact List.mem_append_right _ (List.mem_append_left _ hx)

/-- What is read is read in some line, with the bytes of the lines before it counted. -/
theorem mem_readLines {start : Nat} {lines : List (List Char)}
    {reading : Except (Located Error) (Located Op)} (h : reading ∈ readLines start lines) :
    ∃ before line after, lines = before ++ line :: after ∧
      readLine (start + byteLength (before.flatMap (· ++ ['\n']))) line = some reading := by
  induction lines generalizing start with
  | nil => cases h
  | cons line lines ih =>
    rw [readLines, List.mem_append, Option.mem_toList] at h
    rcases h with hline | hlines
    · exact ⟨[], line, lines, rfl, hline⟩
    · obtain ⟨before, next, after, rfl, hnext⟩ := ih hlines
      refine ⟨line :: before, next, after, rfl, ?_⟩
      rw [lineStart_cons]
      exact hnext

theorem ops_of_report {source : String} {ops : List (Located Op)} (h : report source = .ok ops) :
    ops = (readLines 0 (Text.pieces '\n' source.toList)).filterMap Except.toOption := by
  rw [report, read, gather_eq] at h
  split at h
  next => exact (Except.ok.inj h).symm
  next => cases h

theorem errors_report (source : String) :
    errors (report source) =
      ((readLines 0 (Text.pieces '\n' source.toList)).filterMap error?).map Error.diagnostic := by
  rw [report, read, gather_eq]
  split
  next hnone =>
    rw [hnone]
    rfl
  next => rfl

theorem report_upTo {source : String} (h : source.utf8ByteSize < 4294967296) :
    ∀ s ∈ spans (report source), s.UpTo source.utf8ByteSize := by
  have hreading : ∀ r ∈ readLines 0 (Text.pieces '\n' source.toList),
      (readingSpan r).UpTo source.utf8ByteSize := by
    intro r hr
    obtain ⟨before, line, after, hlines, hline⟩ := mem_readLines hr
    obtain ⟨rest, hrest⟩ := Text.join_split '\n' before line after
    have hsize := congrArg byteLength hrest
    rw [← hlines, Text.join_pieces, Text.byteLength_toList, Text.byteLength_append,
      Text.byteLength_append] at hsize
    have hspan := readLine_upTo (by omega) hline
    unfold Span.UpTo at *
    omega
  intro s hs
  cases hreport : report source with
  | ok ops =>
    rw [hreport] at hs
    obtain ⟨x, hx, rfl⟩ := List.mem_map.mp hs
    rw [ops_of_report hreport] at hx
    obtain ⟨r, hr, hrx⟩ := List.mem_filterMap.mp hx
    have hspan := hreading r hr
    cases r with
    | ok y => cases hrx; exact hspan
    | error e => cases hrx
  | error ds =>
    have hds := errors_report source
    rw [hreport] at hs hds
    obtain ⟨d, hd, rfl⟩ := List.mem_map.mp hs
    rw [show ds = _ from hds] at hd
    obtain ⟨e, he, rfl⟩ := List.mem_map.mp hd
    obtain ⟨r, hr, hre⟩ := List.mem_filterMap.mp he
    have hspan := hreading r hr
    cases r with
    | ok y => cases hre
    | error e => cases hre; exact hspan

/-- **Reading is compositional over lines.** The report on two texts with a line feed between them is
the report on the first and the report on the second, moved by the bytes in front of it: all
operations when both can be read, and otherwise all errors of both, with nothing changed but the
spans of the second text. No position is too large to be moved. -/
theorem report_join (a b : String)
    (hsize : a.utf8ByteSize + 1 + b.utf8ByteSize < 4294967296) :
    report (a ++ "\n" ++ b) =
      both (report a) (movedAll Diagnostic.moved (a.utf8ByteSize + 1) (report b)) ∧
    ∀ s ∈ spans (report b),
      (s.moved (a.utf8ByteSize + 1)).start.toNat = s.start.toNat + (a.utf8ByteSize + 1) ∧
      (s.moved (a.utf8ByteSize + 1)).stop.toNat = s.stop.toNat + (a.utf8ByteSize + 1) := by
  constructor
  · rw [report, report, report, read_join hsize, movedAll_diagnostics, both_diagnostics]
  · intro s hs
    exact Span.moved_toNat (report_upTo (by omega) s hs) (by omega)

/-- Three lines, of which the second cannot be read; the last one has no line feed. -/
def above : String := "READ\nLD 9x # é\nWRITE"

/-- A blank of three bytes in front of an operation that misses its operand. -/
def below : String := "\u3000CONST"

/-- A text that can be read and ends in a line feed. -/
def readable : String := "READ # é\n"

/-- A text that can be read, with a blank in front of its last line. -/
def continued : String := "LD x\n WRITE"

theorem above_below_report :
    report above = .error [⟨.error, "invalid global name `9x`", ⟨8, 10⟩, [], none⟩] ∧
    report below = .error [⟨.error, "`CONST` expects one operand", ⟨3, 8⟩, [], none⟩] ∧
    report (above ++ "\n" ++ below) = .error
      [⟨.error, "invalid global name `9x`", ⟨8, 10⟩, [], none⟩,
        ⟨.error, "`CONST` expects one operand", ⟨25, 30⟩, [], none⟩] ∧
    report readable = .ok [⟨.read, ⟨0, 4⟩⟩] ∧
    report continued = .ok [⟨.load "x", ⟨0, 4⟩⟩, ⟨.write, ⟨6, 11⟩⟩] ∧
    report (readable ++ "\n" ++ continued) = .ok
      [⟨.read, ⟨0, 4⟩⟩, ⟨.load "x", ⟨11, 15⟩⟩, ⟨.write, ⟨17, 22⟩⟩] := by
  refine ⟨rfl, rfl, ?_, rfl, rfl, ?_⟩
  · rw [(report_join above below (by decide)).1]
    rfl
  · rw [(report_join readable continued (by decide)).1]
    rfl

end Listing

end StackBackend
