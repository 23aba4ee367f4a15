import StackBackend.Proofs.Lines

/-! What the spans of a listing point at.

Words that follow each other are the words of a slice of their text, and the span from the first to
the last of them covers this slice (`words_slice`). So everything that is read of a line covers a
slice of its code, and the slice of an operation, by itself, reads as the operation
(`readLine_slice`). The lines of a source keep these slices apart (`readLines_pairwise`), and those
that cannot be read give its errors, one each (`readLines_errors`). `report_spans` says this of the
bytes of the source. -/
namespace StackBackend

namespace Listing

open Text (isBlank byteLength)

/-! ### Slices -/

/-- A text cut in three, where no word is cut and the middle begins and ends with a word. -/
structure CutAtWords (left text right : List Char) : Prop where
  first : ∃ c, text.head? = some c ∧ isBlank c = false
  last : ∃ c, text.getLast? = some c ∧ isBlank c = false
  before : ∀ c, left.getLast? = some c → isBlank c = true
  after : ∀ c, right.head? = some c → isBlank c = true

variable {start : Nat} {cs : List Char} {r : Nat × List Char} {us rs vs : List (Nat × List Char)}

/-- Some runs at the start of a text are left out with what stands in front of the next one. -/
theorem runs_drop (h : runs start cs = us ++ r :: rs) :
    ∃ left rest, cs = left ++ rest ∧ runs (start + byteLength left) rest = r :: rs ∧
      r.1 = start + byteLength left ∧ (∃ c, rest.head? = some c ∧ isBlank c = false) ∧
      ∀ c, left.getLast? = some c → isBlank c = true := by
  induction spaced cs generalizing start us with
  | blank hgap =>
    rw [runs_blanks _ hgap] at h
    simp at h
  | @word gap w rest hgap hne hw hend _ ih =>
    rw [runs_spaced _ hgap hne hw hend] at h
    cases us with
    | nil =>
      obtain ⟨c, w, rfl⟩ := List.exists_cons_of_ne_nil hne
      obtain ⟨rfl, hrs⟩ := List.cons.inj h
      refine ⟨gap, _, rfl, ?_, rfl, ⟨c, rfl, hw c (List.mem_cons_self ..)⟩, ?_⟩
      · rw [runs_append _ rest hw hne hend, hrs]
      · intro d hd
        exact hgap d (List.mem_of_getLast? hd)
    | cons u us =>
      obtain ⟨-, hrs⟩ := List.cons.inj h
      obtain ⟨left, rest, rfl, hruns, hstart, hfirst, hlast⟩ := ih hrs
      have hsize : start + byteLength (gap ++ (w ++ left)) =
          start + byteLength gap + byteLength w + byteLength left := by
        simp only [Text.byteLength_append, Nat.add_assoc]
      refine ⟨gap ++ (w ++ left), rest, by simp, hsize ▸ hruns, hsize ▸ hstart, hfirst, ?_⟩
      -- The next run does not touch the word in front of it, so something is left between them.
      cases left with
      | nil =>
        obtain ⟨c, hc, hblank⟩ := hfirst
        rw [hend c hc] at hblank
        cases hblank
      | cons c left =>
        intro d hd
        apply hlast d
        simpa [List.getLast?_append, List.getLast?_cons] using hd

/-- Some runs at the start of a text are those of the text up to the last of them. -/
theorem runs_take (h : runs start cs = r :: rs ++ vs) :
    ∃ text right, cs = text ++ right ∧ runs start text = r :: rs ∧
      (rs.getLast?.getD r).1 + byteLength (rs.getLast?.getD r).2 = start + byteLength text ∧
      (∃ c, text.getLast? = some c ∧ isBlank c = false) ∧
      ∀ c, right.head? = some c → isBlank c = true := by
  induction spaced cs generalizing start r rs with
  | blank hgap =>
    rw [runs_blanks _ hgap] at h
    simp at h
  | @word gap w rest hgap hne hw hend _ ih =>
    rw [runs_spaced _ hgap hne hw hend] at h
    obtain ⟨rfl, hrs⟩ := List.cons.inj h
    cases rs with
    | nil =>
      have hruns : runs start (gap ++ (w ++ [])) = _ := runs_spaced start hgap hne hw (by simp)
      rw [List.append_nil] at hruns
      refine ⟨gap ++ w, rest, by simp, hruns, ?_, ⟨w.getLast hne, ?_, hw _ (List.getLast_mem hne)⟩,
        hend⟩
      · show start + byteLength gap + byteLength w = _
        rw [Text.byteLength_append, Nat.add_assoc]
      · rw [List.getLast?_append, List.getLast?_eq_some_getLast hne]
        rfl
    | cons q rs =>
      obtain ⟨text, right, rfl, hruns, hstop, ⟨c, hc, hblank⟩, hright⟩ := ih hrs
      have hafter : ∀ d, text.head? = some d → isBlank d = true := by
        intro d hd
        apply hend d
        rw [List.head?_append, hd]
        rfl
      refine ⟨gap ++ (w ++ text), right, by simp, ?_, ?_, ⟨c, ?_, hblank⟩, hright⟩
      · rw [runs_spaced start hgap hne hw hafter, hruns]
      · rw [List.getLast?_cons, Option.getD_some, hstop]
        simp only [Text.byteLength_append, Nat.add_assoc]
      · rw [← List.append_assoc, List.getLast?_append, hc]
        rfl

theorem runs_slice (h : runs start cs = us ++ (r :: rs ++ vs)) :
    ∃ left text right, cs = left ++ (text ++ right) ∧ CutAtWords left text right ∧
      runs (start + byteLength left) text = r :: rs ∧ r.1 = start + byteLength left ∧
      (rs.getLast?.getD r).1 + byteLength (rs.getLast?.getD r).2 =
        start + byteLength left + byteLength text := by
  obtain ⟨left, rest, rfl, hruns, hstart, ⟨c, hc, hfirst⟩, hbefore⟩ := runs_drop h
  obtain ⟨text, right, rfl, htext, hstop, hlast, hafter⟩ := runs_take hruns
  refine ⟨left, text, right, rfl, ⟨⟨c, ?_, hfirst⟩, hlast, hbefore, hafter⟩, htext, hstart, hstop⟩
  cases text with
  | nil => cases htext
  | cons d text => exact hc

variable {before ws after : List (Located String)} {w : Located String}

/-- Words that follow each other are those of a slice of the text, and their span covers it. -/
theorem words_slice (hsize : start + byteLength cs < 4294967296)
    (h : words start cs = before ++ (w :: ws ++ after)) :
    ∃ left text right, cs = left ++ (text ++ right) ∧ CutAtWords left text right ∧
      words (start + byteLength left) text = w :: ws ∧
      spanOf w ws =
        .ofBytes (start + byteLength left) (start + byteLength left + byteLength text) := by
  obtain ⟨us, more, hruns, -, hmore⟩ := List.map_eq_append_iff.mp h
  obtain ⟨mid, vs, rfl, hmid, -⟩ := List.map_eq_append_iff.mp hmore
  obtain ⟨r, rs, rfl, rfl, rfl⟩ := List.map_eq_cons_iff.mp hmid
  obtain ⟨left, text, right, rfl, hcut, htext, hstart, hstop⟩ := runs_slice hruns
  refine ⟨left, text, right, rfl, hcut, by rw [words_eq, htext]; rfl, ?_⟩
  simp only [Text.byteLength_append] at hsize
  have hfirst : r ∈ runs (start + byteLength left) text := htext ▸ List.mem_cons_self ..
  have hlast : rs.getLast?.getD r ∈ runs (start + byteLength left) text := by
    rw [htext]
    cases hl : rs.getLast? with
    | none => exact List.mem_cons_self ..
    | some l => exact List.mem_cons_of_mem _ (List.mem_of_getLast? hl)
  have hspan : spanOf (wordAt r) (rs.map wordAt) =
      (wordAt r).span.merge (wordAt (rs.getLast?.getD r)).span := by
    rw [spanOf, List.getLast?_map, Option.getD_map]
  have hr := runs_bounds hfirst
  have hl := runs_bounds hlast
  have hrAt := wordAt_toNat (r := r) (by omega)
  have hlAt := wordAt_toNat (r := rs.getLast?.getD r) (by omega)
  have hmerge := (wordAt r).span.merge_toNat (wordAt (rs.getLast?.getD r)).span
  have hslice := Span.ofBytes_toNat (a := start + byteLength left)
    (b := start + byteLength left + byteLength text) (by omega) (by omega)
  refine hspan.trans (Span.ext_toNat ?_ ?_)
  · omega
  · omega

/-! ### Lines -/

variable {n : Nat} {line text : List Char} {op : Op}
variable {reading : Except (Located Error) (Located Op)}

/-- An operation whose words fill a text is read from this text, wherever that begins. -/
theorem readLine_alone (hcode : '#' ∉ text) (hsize : n + byteLength text < 4294967296)
    (hwords : words n text = w :: ws) (hop : readOp w ws = .ok op)
    (hspan : spanOf w ws = .ofBytes n (n + byteLength text)) :
    readLine 0 text = some (.ok ⟨op, .ofBytes 0 (byteLength text)⟩) := by
  have hthere : readLine (0 + n) text = some (.ok ⟨op, .ofBytes n (n + byteLength text)⟩) := by
    rw [readLine, Text.before_eq_self hcode, Nat.zero_add, hwords]
    simp only [hop, hspan]
    rfl
  rw [readLine_moved (by omega), Option.map_eq_some_iff] at hthere
  obtain ⟨reading, hhere, hmoved⟩ := hthere
  have hupTo := readLine_upTo (by omega) hhere
  cases reading with
  | error e => cases hmoved
  | ok x =>
    obtain ⟨rfl, hfills⟩ := Located.mk.inj (Except.ok.inj hmoved)
    have hfar := Span.moved_toNat (n := n) hupTo (by omega)
    have hnear := Span.ofBytes_toNat (a := 0) (b := byteLength text) (by omega) (by omega)
    have hends := Span.ofBytes_toNat (a := n) (b := n + byteLength text) (by omega) (by omega)
    rw [← hfills] at hends
    dsimp only [readingSpan] at hfar
    have hx : x.span = .ofBytes 0 (byteLength text) := Span.ext_toNat (by omega) (by omega)
    rw [hhere, ← hx]

/-- What is read of a line covers a slice of its code, and the slice of an operation is read as
the operation. -/
theorem readLine_slice (hsize : start + byteLength line < 4294967296)
    (h : readLine start line = some reading) :
    ∃ left text right, Text.before '#' line = left ++ (text ++ right) ∧
      CutAtWords left text right ∧
      readingSpan reading =
        .ofBytes (start + byteLength left) (start + byteLength left + byteLength text) ∧
      ∀ x, reading = .ok x →
        readLine 0 text = some (.ok ⟨x.val, .ofBytes 0 (byteLength text)⟩) := by
  have hle := Text.byteLength_before_le '#' line
  unfold readLine at h
  split at h
  next => cases h
  next w ws hwords =>
    cases hop : readOp w ws with
    | ok op =>
      rw [hop] at h
      cases h
      have hall : words start (Text.before '#' line) = [] ++ (w :: ws ++ []) := by
        simpa using hwords
      obtain ⟨left, text, right, hcode, hcut, htext, hspan⟩ := words_slice (by omega) hall
      refine ⟨left, text, right, hcode, hcut, hspan, ?_⟩
      intro x hx
      cases hx
      have hsize' := congrArg byteLength hcode
      simp only [Text.byteLength_append] at hsize'
      refine readLine_alone ?_ (by omega) htext hop hspan
      intro hsign
      exact (Text.mem_before (hcode ▸ List.mem_append_right _ (List.mem_append_left _ hsign))).2 rfl
    | error e =>
      rw [hop] at h
      cases h
      obtain ⟨before, first, more, after, hall, he⟩ := readOp_error hop
      obtain ⟨left, text, right, hcode, hcut, -, hspan⟩ :=
        words_slice (by omega) (hwords.trans hall)
      refine ⟨left, text, right, hcode, hcut, he.trans hspan, ?_⟩
      intro x hx
      cases hx

/-- The slice has at least one byte. -/
theorem CutAtWords.byteLength_pos {left right : List Char} (h : CutAtWords left text right) :
    0 < byteLength text := by
  obtain ⟨c, hc, -⟩ := h.first
  cases text with
  | nil => cases hc
  | cons d text =>
    have hpos := d.utf8Size_pos
    rw [byteLength]
    omega

theorem readLine_bounds (hsize : start + byteLength line < 4294967296)
    (h : readLine start line = some reading) :
    start ≤ (readingSpan reading).start.toNat ∧
      (readingSpan reading).start.toNat < (readingSpan reading).stop.toNat ∧
      (readingSpan reading).stop.toNat ≤ start + byteLength line := by
  obtain ⟨left, text, right, hcode, hcut, hspan, -⟩ := readLine_slice hsize h
  have hle := Text.byteLength_before_le '#' line
  rw [hcode] at hle
  simp only [Text.byteLength_append] at hle
  have hpos := hcut.byteLength_pos
  have hends := Span.ofBytes_toNat (a := start + byteLength left)
    (b := start + byteLength left + byteLength text) (by omega) (by omega)
  rw [hspan]
  omega

/-- Line feeds stand between the spans of different lines. -/
theorem readLines_pairwise {lines : List (List Char)}
    (hsize : start + byteLength (lines.flatMap (· ++ ['\n'])) ≤ 4294967296) :
    (∀ r ∈ readLines start lines, start ≤ (readingSpan r).start.toNat) ∧
    (readLines start lines).Pairwise fun r s =>
      (readingSpan r).start.toNat < (readingSpan s).start.toNat ∧
      (readingSpan r).stop.toNat < (readingSpan s).start.toNat := by
  induction lines generalizing start with
  | nil => exact ⟨by simp [readLines], .nil⟩
  | cons line lines ih =>
    rw [lineStart_cons] at hsize
    have hline : ∀ r ∈ (readLine start line).toList, start ≤ (readingSpan r).start.toNat ∧
        (readingSpan r).start.toNat < (readingSpan r).stop.toNat ∧
        (readingSpan r).stop.toNat ≤ start + byteLength line := by
      intro r hr
      exact readLine_bounds (by omega) (Option.mem_toList.mp hr)
    obtain ⟨hrest, hpairs⟩ := ih hsize
    rw [readLines]
    constructor
    · intro r hr
      rcases List.mem_append.mp hr with hr | hr
      · exact (hline r hr).1
      · have := hrest r hr
        omega
    · refine List.pairwise_append.mpr ⟨?_, hpairs, ?_⟩
      · cases readLine start line with
        | none => exact .nil
        | some r => exact List.pairwise_singleton ..
      · intro r hr s hs
        have hr := hline r hr
        have hs := hrest s hs
        omega

/-! ### Sources -/

theorem report_line (hline : '\n' ∉ line) :
    report (String.ofList line) =
      (gather (readLine 0 line).toList).mapError (·.map Error.diagnostic) := by
  rw [report, read, String.toList_ofList, Text.pieces_eq_singleton hline, readLines, readLines,
    List.append_nil]

/-- A line that by itself is not a listing. -/
def unread (line : List Char) : Bool := !(report (String.ofList line)).isOk

theorem unread_eq (hline : '\n' ∉ line) (hsize : start + byteLength line < 4294967296) :
    unread line = ((readLine start line).bind error?).isSome := by
  have hmoved : readLine (0 + start) line = (readLine 0 line).map (movedReading start) :=
    readLine_moved (by omega)
  rw [Nat.zero_add] at hmoved
  rw [unread, report_line hline, hmoved]
  cases readLine 0 line with
  | none => rfl
  | some reading =>
    cases reading with
    | ok x => rfl
    | error e => rfl

/-- The numbers of the lines that cannot be read, with `k` for the first line. -/
def unreadLines (k : Nat) (lines : List (List Char)) : List Nat :=
  ((lines.zipIdx k).filter (unread ·.1)).map (·.2)

theorem unreadLines_cons (k : Nat) (line : List Char) (lines : List (List Char)) :
    unreadLines k (line :: lines) =
      if unread line then k :: unreadLines (k + 1) lines else unreadLines (k + 1) lines := by
  rw [unreadLines, List.zipIdx_cons, List.filter_cons]
  split
  next => rfl
  next => rfl

theorem readLines_errors {lines : List (List Char)} {k : Nat}
    (hlines : ∀ line ∈ lines, '\n' ∉ line)
    (hsize : start + byteLength (lines.flatMap (· ++ ['\n'])) ≤ 4294967296) :
    ((readLines start lines).filterMap error?).length = (unreadLines k lines).length ∧
    ∀ p ∈ (unreadLines k lines).zip ((readLines start lines).filterMap error?),
      ∃ before line after, lines = before ++ line :: after ∧ p.1 = k + before.length ∧
        readLine (start + byteLength (before.flatMap (· ++ ['\n']))) line = some (.error p.2) := by
  induction lines generalizing start k with
  | nil => exact ⟨rfl, by simp [readLines]⟩
  | cons line lines ih =>
    obtain ⟨hline, hrest⟩ := List.forall_mem_cons.mp hlines
    rw [lineStart_cons] at hsize
    have hunread : unread line = ((readLine start line).bind error?).isSome :=
      unread_eq hline (by omega)
    obtain ⟨hlength, hzip⟩ := ih (k := k + 1) hrest hsize
    have hbelow : ∀ p ∈ (unreadLines (k + 1) lines).zip
        ((readLines (start + byteLength line + 1) lines).filterMap error?),
        ∃ before next after, line :: lines = before ++ next :: after ∧ p.1 = k + before.length ∧
          readLine (start + byteLength (before.flatMap (· ++ ['\n']))) next = some (.error p.2) := by
      intro p hp
      obtain ⟨before, next, after, rfl, hk, hnext⟩ := hzip p hp
      refine ⟨line :: before, next, after, rfl, ?_, ?_⟩
      · rw [hk, List.length_cons, Nat.add_right_comm, Nat.add_assoc]
      · rw [lineStart_cons]
        exact hnext
    rw [readLines, List.filterMap_append, unreadLines_cons, hunread]
    cases hr : readLine start line with
    | none => exact ⟨hlength, hbelow⟩
    | some reading =>
      cases reading with
      | ok x => exact ⟨hlength, hbelow⟩
      | error e =>
        refine ⟨congrArg (· + 1) hlength, List.forall_mem_cons.mpr ⟨?_, hbelow⟩⟩
        exact ⟨[], line, lines, rfl, rfl, hr⟩

/-- The lines above line `k` of a source, with their line feeds. -/
def linesAbove (source : String) (k : Nat) : List Char :=
  ((source.toList.splitOn '\n').take k).flatMap (· ++ ['\n'])

/-- A span that covers `text` in the code of line `k` of a source, with `left` and `right` around
it. The lines count from 0, and the code of a line ends in front of its first `#`. -/
structure Covers (source : String) (k : Nat) (s : Span) (left text right : List Char) : Prop where
  nonempty : s.isEmpty = false
  line : ∃ line, (source.toList.splitOn '\n')[k]? = some line ∧
    line.takeWhile (· ≠ '#') = left ++ text ++ right
  cut : CutAtWords left text right
  /-- The span begins and ends between characters of the source. -/
  inside : linesAbove source k ++ left ++ text <+: source.toList
  start : s.start.toNat = byteLength (linesAbove source k ++ left)
  stop : s.stop.toNat = byteLength (linesAbove source k ++ left ++ text)

/-- Whatever is read of a source covers a slice of one of its lines. -/
theorem covers_of_readLine {source : String} {before after : List (List Char)}
    (hsize : source.utf8ByteSize < 4294967296)
    (hlines : Text.pieces '\n' source.toList = before ++ line :: after)
    (h : readLine (byteLength (before.flatMap (· ++ ['\n']))) line = some reading) :
    ∃ left text right, Covers source before.length (readingSpan reading) left text right ∧
      ∀ x, reading = .ok x →
        report (String.ofList text) = .ok [⟨x.val, .ofBytes 0 (byteLength text)⟩] := by
  obtain ⟨rest, hrest⟩ := Text.join_split '\n' before line after
  rw [← hlines, Text.join_pieces] at hrest
  have hbytes := congrArg byteLength hrest
  rw [Text.byteLength_toList, Text.byteLength_append, Text.byteLength_append] at hbytes
  have habove : linesAbove source before.length = before.flatMap (· ++ ['\n']) := by
    rw [linesAbove, ← Text.pieces_eq_splitOn, hlines, List.take_left]
  obtain ⟨left, text, right, hcode, hcut, hspan, halone⟩ := readLine_slice (by omega) h
  have hle := Text.byteLength_before_le '#' line
  rw [hcode] at hle
  simp only [Text.byteLength_append] at hle
  have hends := Span.ofBytes_toNat
    (a := byteLength (before.flatMap (· ++ ['\n'])) + byteLength left)
    (b := byteLength (before.flatMap (· ++ ['\n'])) + byteLength left + byteLength text)
    (by omega) (by omega)
  have hpos := hcut.byteLength_pos
  refine ⟨left, text, right, ⟨?_, ⟨line, ?_, ?_⟩, hcut, ?_, ?_, ?_⟩, ?_⟩
  · rw [hspan]
    simp only [Span.isEmpty, decide_eq_false_iff_not, UInt32.le_iff_toNat_le]
    omega
  · rw [← Text.pieces_eq_splitOn, hlines, List.getElem?_append_right (Nat.le_refl _), Nat.sub_self]
    rfl
  · rw [List.append_assoc]
    exact hcode
  · obtain ⟨tail, htail⟩ := List.takeWhile_prefix (l := line) (· ≠ '#')
    refine ⟨right ++ tail ++ rest, ?_⟩
    rw [hrest, habove, ← htail, show line.takeWhile (· ≠ '#') = _ from hcode]
    simp only [List.append_assoc]
  · rw [hspan, habove, Text.byteLength_append, hends.1]
  · rw [hspan, habove, Text.byteLength_append, Text.byteLength_append, hends.2]
  · intro x hx
    have hline : '\n' ∉ text := by
      intro hfeed
      have hmem : '\n' ∈ Text.before '#' line :=
        hcode ▸ List.mem_append_right _ (List.mem_append_left _ hfeed)
      exact Text.not_mem_pieces (hlines ▸ List.mem_append_right _ (List.mem_cons_self ..))
        (Text.mem_before hmem).1
    rw [report_line hline, halone x hx]
    rfl

/-- **Spans point at what they describe.** The span of an operation covers words of one line, in
front of its comment, that read as this operation when they stand alone, and the spans stand in the
source one after the other. There is one error for each line that cannot be read by itself, in the
order of the lines, and its span covers words of this line. -/
theorem report_spans (source : String) (hsize : source.utf8ByteSize < 4294967296) :
    (∀ ops, report source = .ok ops →
      (∀ x ∈ ops, ∃ k left text right, Covers source k x.span left text right ∧
        report (String.ofList text) = .ok [⟨x.val, .ofBytes 0 (byteLength text)⟩]) ∧
      ops.Pairwise fun x y => x.span.start < y.span.start ∧ x.span.stop < y.span.start) ∧
    (errors (report source)).length = (unreadLines 0 (source.toList.splitOn '\n')).length ∧
    ∀ k d, (k, d) ∈ (unreadLines 0 (source.toList.splitOn '\n')).zip (errors (report source)) →
      d.isError = true ∧ ∃ left text right, Covers source k d.span left text right := by
  have hlines : 0 + byteLength ((Text.pieces '\n' source.toList).flatMap (· ++ ['\n'])) ≤
      4294967296 := by
    rw [byteLength_lines]
    omega
  refine ⟨?_, ?_⟩
  · intro ops hops
    rw [ops_of_report hops]
    constructor
    · intro x hx
      obtain ⟨r, hr, hrx⟩ := List.mem_filterMap.mp hx
      cases r with
      | error e => cases hrx
      | ok y =>
        cases hrx
        obtain ⟨before, line, after, hcut, hline⟩ := mem_readLines hr
        rw [Nat.zero_add] at hline
        obtain ⟨left, text, right, hcovers, halone⟩ := covers_of_readLine hsize hcut hline
        exact ⟨before.length, left, text, right, hcovers, halone x rfl⟩
    · refine (readLines_pairwise hlines).2.filterMap _ ?_
      intro r s hrs x hx y hy
      cases r with
      | error e => cases hx
      | ok x =>
        cases s with
        | error e => cases hy
        | ok y =>
          cases hx
          cases hy
          simp only [UInt32.lt_iff_toNat_lt]
          exact hrs
  · have hfeed : ∀ line ∈ Text.pieces '\n' source.toList, '\n' ∉ line :=
      fun _ => Text.not_mem_pieces
    obtain ⟨hlength, hzip⟩ := readLines_errors (k := 0) hfeed hlines
    rw [errors_report, ← Text.pieces_eq_splitOn, List.length_map, List.zip_map_right]
    refine ⟨hlength, ?_⟩
    intro k d hd
    obtain ⟨⟨j, e⟩, he, hkd⟩ := List.mem_map.mp hd
    cases hkd
    obtain ⟨before, line, after, hcut, hk, hline⟩ := hzip _ he
    rw [Nat.zero_add] at hk hline
    obtain ⟨left, text, right, hcovers, -⟩ := covers_of_readLine hsize hcut hline
    refine ⟨rfl, left, text, right, ?_⟩
    rw [← hk] at hcovers
    exact hcovers

/-- A wide blank between two words, a comment and an empty line. -/
def annotated : String := "CONST\u30007 # größer\n\n  WRITE"

/-- Two of these lines cannot be read. -/
def misspelled : String := "READ # ä\n\u3000LD 9x\nST x\nWRITE  a b#c"

theorem annotated_misspelled_spans :
    (∃ k left text right, Covers annotated k ⟨0, 9⟩ left text right ∧
      report (String.ofList text) = .ok [⟨.const 7, .ofBytes 0 (byteLength text)⟩]) ∧
    (∃ left text right, Covers misspelled 1 ⟨16, 18⟩ left text right) ∧
    ∃ left text right, Covers misspelled 3 ⟨31, 34⟩ left text right := by
  have hops : report annotated = .ok [⟨.const 7, ⟨0, 9⟩⟩, ⟨.write, ⟨24, 29⟩⟩] := rfl
  have herrors : (unreadLines 0 (misspelled.toList.splitOn '\n')).zip (errors (report misspelled)) =
      [(1, ⟨.error, "invalid global name `9x`", ⟨16, 18⟩, [], none⟩),
        (3, ⟨.error, "`WRITE` takes no operand", ⟨31, 34⟩, [], none⟩)] := rfl
  obtain ⟨hread, -⟩ := report_spans annotated (by decide)
  obtain ⟨-, -, hunread⟩ := report_spans misspelled (by decide)
  rw [herrors] at hunread
  refine ⟨(hread _ hops).1 _ (List.mem_cons_self ..), ?_, ?_⟩
  · exact (hunread _ _ (List.mem_cons_self ..)).2
  · exact (hunread _ _ (List.mem_cons_of_mem _ (List.mem_cons_self ..))).2

end Listing

end StackBackend
