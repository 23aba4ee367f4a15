/-! Text cut at a separator.

`pieces sep` keeps every piece, empty ones included, so a text with `n` separators has `n + 1`
pieces (`length_pieces`) and joining them with the separator gives the text back (`join_pieces`). No
piece holds the separator (`not_mem_pieces`), and pieces that do not are found again when they are
joined (`pieces_join`). Cutting a text that was put together at a separator cuts its two parts
(`pieces_append`). -/
namespace StackBackend.Text

def pieces (sep : Char) : List Char → List (List Char)
  | [] => [[]]
  | c :: cs =>
    if c = sep then [] :: pieces sep cs
    else
      match pieces sep cs with
      | [] => [[c]]
      | p :: ps => (c :: p) :: ps

/-- The pieces with the separator between them. -/
def join (sep : Char) : List (List Char) → List Char
  | [] => []
  | [p] => p
  | p :: q :: ps => p ++ sep :: join sep (q :: ps)

/-- What stands before the first `sep`, or all of the text when there is none. -/
def before (sep : Char) (cs : List Char) : List Char :=
  cs.takeWhile (· ≠ sep)

/-- The two sides of the first `sep`. -/
def splitOnce (sep : Char) : List Char → Option (List Char × List Char)
  | [] => none
  | c :: cs =>
    if c = sep then some ([], cs)
    else (splitOnce sep cs).map fun (l, r) => (c :: l, r)

theorem splitOnce_eq_none {sep : Char} {cs : List Char} : splitOnce sep cs = none ↔ sep ∉ cs := by
  induction cs with
  | nil => simp [splitOnce]
  | cons c cs ih =>
    by_cases hc : c = sep
    · simp [splitOnce, hc]
    · simp [splitOnce, hc, ih, Ne.symm hc]

/-- The left side ends at the first `sep`. -/
theorem splitOnce_eq_some {sep : Char} {cs l r : List Char} :
    splitOnce sep cs = some (l, r) ↔ cs = l ++ sep :: r ∧ sep ∉ l := by
  induction cs generalizing l r with
  | nil => simp [splitOnce]
  | cons c cs ih =>
    by_cases hc : c = sep
    · cases l with
      | nil => simp [splitOnce, hc]
      | cons d l => simp +contextual [splitOnce, hc, eq_comm]
    · cases l with
      | nil => simp [splitOnce, hc]
      | cons d l =>
        simp only [splitOnce, hc, if_false, Option.map_eq_some_iff, Prod.mk.injEq, Prod.exists, ih]
        constructor
        · rintro ⟨l', r', ⟨rfl, hl⟩, hcons, rfl⟩
          cases hcons
          simp [hl, Ne.symm hc]
        · rintro ⟨hcs, hl⟩
          cases hcs
          exact ⟨l, r, ⟨rfl, fun h => hl (List.mem_cons_of_mem _ h)⟩, rfl, rfl⟩

/-- A text is divided by the first separator in one way only. -/
theorem split_unique {sep : Char} {l r l' r' : List Char} (h : l ++ sep :: r = l' ++ sep :: r')
    (hl : sep ∉ l) (hl' : sep ∉ l') : l = l' ∧ r = r' := by
  have hleft : splitOnce sep (l ++ sep :: r) = some (l, r) := splitOnce_eq_some.mpr ⟨rfl, hl⟩
  have hright : splitOnce sep (l ++ sep :: r) = some (l', r') := splitOnce_eq_some.mpr ⟨h, hl'⟩
  simpa using hleft.symm.trans hright

/-- A line without the carriage return that can stand before its line feed. -/
def withoutReturn (line : List Char) : List Char :=
  if line.getLast? = some '\r' then line.dropLast else line

/-- The lines of a text that a line feed follows. -/
def lines (cs : List Char) : List (List Char) := (pieces '\n' cs).map withoutReturn

/-- Whether a text holds the character NUL, with which the texts of a system end. -/
def hasNul (text : String) : Bool := text.toList.contains (Char.ofNat 0)

/-- Bytes of the text in UTF-8. -/
def byteLength : List Char → Nat
  | [] => 0
  | c :: cs => c.utf8Size + byteLength cs

/-! ### Pieces -/

theorem pieces_ne_nil (sep : Char) (cs : List Char) : pieces sep cs ≠ [] := by
  cases cs with
  | nil => simp [pieces]
  | cons c cs =>
    simp only [pieces]
    split
    · simp
    · split <;> simp

theorem pieces_eq_splitOn (sep : Char) (cs : List Char) : pieces sep cs = cs.splitOn sep := by
  induction cs with
  | nil => rfl
  | cons c cs ih =>
    rw [List.splitOn_cons_eq_if_modifyHead, ← ih, pieces]
    by_cases hc : c = sep
    · simp [hc]
    · obtain ⟨p, ps, hp⟩ := List.exists_cons_of_ne_nil (pieces_ne_nil sep cs)
      simp [hc, hp]

theorem pieces_append (sep : Char) (a b : List Char) :
    pieces sep (a ++ sep :: b) = pieces sep a ++ pieces sep b := by
  induction a with
  | nil => simp [pieces]
  | cons c a ih =>
    simp only [List.cons_append, pieces, ih]
    split
    · rfl
    · cases hp : pieces sep a with
      | nil => exact absurd hp (pieces_ne_nil sep a)
      | cons p ps => rfl

theorem length_pieces (sep : Char) (cs : List Char) :
    (pieces sep cs).length = cs.count sep + 1 := by
  induction cs with
  | nil => rfl
  | cons c cs ih =>
    rw [pieces, List.count_cons]
    split
    next h => simp [h, ih]
    next h =>
      cases hp : pieces sep cs with
      | nil => exact absurd hp (pieces_ne_nil sep cs)
      | cons p ps =>
        rw [hp] at ih
        simpa [h] using ih

theorem not_mem_pieces {sep : Char} {cs p : List Char} (h : p ∈ pieces sep cs) : sep ∉ p := by
  induction cs generalizing p with
  | nil =>
    rw [pieces, List.mem_singleton] at h
    simp [h]
  | cons c cs ih =>
    rw [pieces] at h
    split at h
    next =>
      rcases List.mem_cons.mp h with rfl | hp
      · simp
      · exact ih hp
    next hc =>
      obtain ⟨q, qs, hq⟩ := List.exists_cons_of_ne_nil (pieces_ne_nil sep cs)
      rw [hq] at h ih
      rcases List.mem_cons.mp h with rfl | hp
      · exact List.not_mem_cons_of_ne_of_not_mem (Ne.symm hc) (ih (List.mem_cons_self ..))
      · exact ih (List.mem_cons_of_mem _ hp)

theorem pieces_eq_singleton {sep : Char} {cs : List Char} (h : sep ∉ cs) :
    pieces sep cs = [cs] := by
  induction cs with
  | nil => rfl
  | cons c cs ih =>
    obtain ⟨hc, hrest⟩ := List.ne_and_not_mem_of_not_mem_cons h
    rw [pieces, if_neg (Ne.symm hc), ih hrest]

/-- A text of lines is cut into these lines and the empty one behind the last line feed. -/
theorem pieces_lines {sep : Char} {lines : List (List Char)} (h : ∀ l ∈ lines, sep ∉ l) :
    pieces sep (lines.flatMap (· ++ [sep])) = lines ++ [[]] := by
  induction lines with
  | nil => rfl
  | cons l lines ih =>
    obtain ⟨hl, hlines⟩ := List.forall_mem_cons.mp h
    rw [List.flatMap_cons, List.append_assoc, List.singleton_append, pieces_append, ih hlines,
      pieces_eq_singleton hl]
    rfl

theorem pieces_words {sep : Char} {first : List Char} {more : List (List Char)}
    (hfirst : sep ∉ first) (hmore : ∀ w ∈ more, sep ∉ w) :
    pieces sep (first ++ more.flatMap (sep :: ·)) = first :: more := by
  induction more generalizing first with
  | nil => simpa using pieces_eq_singleton hfirst
  | cons w more ih =>
    obtain ⟨hw, hmore⟩ := List.forall_mem_cons.mp hmore
    rw [List.flatMap_cons, List.cons_append, pieces_append, pieces_eq_singleton hfirst,
      ih hw hmore]
    rfl

/-! ### Pieces joined -/

theorem join_pieces (sep : Char) (cs : List Char) : join sep (pieces sep cs) = cs := by
  induction cs with
  | nil => rfl
  | cons c cs ih =>
    simp only [pieces]
    split
    next h =>
      subst h
      cases hp : pieces c cs with
      | nil => exact absurd hp (pieces_ne_nil c cs)
      | cons p ps => rw [hp] at ih; simp [join, ih]
    next h =>
      cases hp : pieces sep cs with
      | nil => exact absurd hp (pieces_ne_nil sep cs)
      | cons p ps =>
        rw [hp] at ih
        cases ps with
        | nil => simpa [join] using ih
        | cons q ps => simpa [join] using ih

theorem pieces_join {sep : Char} {ps : List (List Char)} (hne : ps ≠ []) (h : ∀ p ∈ ps, sep ∉ p) :
    pieces sep (join sep ps) = ps := by
  induction ps with
  | nil => exact absurd rfl hne
  | cons p ps ih =>
    obtain ⟨hp, hps⟩ := List.forall_mem_cons.mp h
    have hsingle : pieces sep p = [p] := pieces_eq_singleton hp
    cases ps with
    | nil => exact hsingle
    | cons q ps => rw [join, pieces_append, hsingle, ih (by simp) hps, List.singleton_append]

theorem join_append (sep : Char) (front back : List (List Char)) :
    join sep front <+: join sep (front ++ back) := by
  induction front with
  | nil => exact List.nil_prefix
  | cons p front ih =>
    cases front with
    | nil =>
      cases back with
      | nil => exact List.prefix_rfl
      | cons b back => exact List.prefix_append _ _
    | cons q front =>
      obtain ⟨rest, hrest⟩ := ih
      refine ⟨rest, ?_⟩
      simp only [List.cons_append, join, List.append_assoc] at hrest ⊢
      rw [hrest]

theorem join_concat (sep : Char) {ps : List (List Char)} (hne : ps ≠ []) :
    join sep ps ++ [sep] = ps.flatMap (· ++ [sep]) := by
  induction ps with
  | nil => exact absurd rfl hne
  | cons p ps ih =>
    cases ps with
    | nil => simp [join]
    | cons q ps =>
      rw [List.flatMap_cons, ← ih (by simp), join]
      simp

/-- The pieces before one of them and the separators behind them stand in front of it. -/
theorem join_split (sep : Char) (before : List (List Char)) (p : List Char)
    (after : List (List Char)) : ∃ rest,
      join sep (before ++ p :: after) = before.flatMap (· ++ [sep]) ++ (p ++ rest) := by
  induction before with
  | nil =>
    cases after with
    | nil => exact ⟨[], by simp [join]⟩
    | cons q after => exact ⟨sep :: join sep (q :: after), by simp [join]⟩
  | cons q before ih =>
    obtain ⟨rest, hrest⟩ := ih
    obtain ⟨r, rs, hr⟩ : ∃ r rs, before ++ p :: after = r :: rs :=
      List.exists_cons_of_ne_nil (by simp)
    refine ⟨rest, ?_⟩
    rw [List.cons_append, hr, join, ← hr, hrest]
    simp

/-! ### The text before a separator -/

theorem mem_before {sep c : Char} {cs : List Char} (h : c ∈ before sep cs) : c ∈ cs ∧ c ≠ sep := by
  refine ⟨List.takeWhile_subset _ h, ?_⟩
  have hall : (before sep cs).all (· ≠ sep) = true := List.all_takeWhile
  simpa using List.all_eq_true.mp hall c h

theorem before_eq_self {sep : Char} {cs : List Char} (h : sep ∉ cs) : before sep cs = cs := by
  induction cs with
  | nil => rfl
  | cons c cs ih =>
    obtain ⟨hc, hrest⟩ := List.ne_and_not_mem_of_not_mem_cons h
    simpa [before, Ne.symm hc] using ih hrest

theorem before_append_cons (sep : Char) (cs text : List Char) :
    before sep (cs ++ sep :: text) = before sep cs := by
  unfold before
  rw [List.takeWhile_append]
  split
  next h =>
    rw [List.takeWhile_cons_of_neg (by simp), List.append_nil]
    exact ((List.takeWhile_prefix _).eq_of_length h).symm
  next => rfl

/-! ### Bytes -/

theorem byteLength_append (a b : List Char) :
    byteLength (a ++ b) = byteLength a + byteLength b := by
  induction a with
  | nil => simp [byteLength]
  | cons c a ih => simp [byteLength, ih, Nat.add_assoc]

theorem byteLength_toList (s : String) : byteLength s.toList = s.utf8ByteSize := by
  rw [← String.ofList_toList (s := s)]
  generalize s.toList = cs
  rw [String.toList_ofList]
  induction cs with
  | nil => rfl
  | cons c cs ih =>
    rw [byteLength, ih, String.ofList_cons, String.utf8ByteSize_append,
      String.utf8ByteSize_singleton]

theorem byteLength_before_le (sep : Char) (cs : List Char) :
    byteLength (before sep cs) ≤ byteLength cs := by
  have hcut := List.takeWhile_append_dropWhile (p := (· ≠ sep)) (l := cs)
  have hsize := congrArg byteLength hcut
  rw [byteLength_append] at hsize
  unfold before
  omega

end StackBackend.Text
