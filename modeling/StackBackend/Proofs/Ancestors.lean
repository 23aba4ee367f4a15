import StackBackend.Build
import StackBackend.Host.World

/-! The ancestors of a path.

What a path leads to depends on its segments, and of these only on the `names`, the ones that are
not silent. The ancestors of a path have fewer and fewer of its names (`map_ancestors`), their texts
are beginnings of its text (`text_ancestors`), and they start where it starts
(`isAbsolute_ancestors`). A file in a directory has one segment more than the directory, up to
silent ones (`segments_join`). -/
namespace StackBackend

namespace Path

open World (segmentsOf)

/-! ### Names -/

/-- The segments that lead somewhere. -/
def names (p : Path) : List (List Char) := (segmentsOf p).filter (!isSilent ·)

/-- What stands before the segments of a path. -/
def leadSegments : Lead → List (List Char)
  | .root => [[]]
  | .here => [['.']]
  | .plain => []

theorem segments_eq (p : Path) : segmentsOf p = leadSegments p.parts.1 ++ p.parts.2 := by
  unfold segmentsOf parts
  split
  next h => rw [h]; rfl
  next h => rw [h]; rfl
  next => rfl

theorem names_eq (p : Path) : p.names = p.parts.2.filter (!isSilent ·) := by
  rw [names, segments_eq, List.filter_append]
  cases p.parts.1 <;> rfl

theorem slash_not_mem {p : Path} {s : List Char} (hs : s ∈ p.parts.2) : '/' ∉ s := by
  have hmem : s ∈ segmentsOf p := by
    rw [segments_eq]
    exact List.mem_append_right _ hs
  exact Text.not_mem_pieces hmem

theorem ofParts_parts (p : Path) : ofParts p.parts.1 p.parts.2 = p := by
  have htext : String.ofList (Text.join '/' (segmentsOf p)) = p.text := by
    rw [segmentsOf, Text.join_pieces, String.ofList_toList]
  unfold parts
  split
  next h =>
    rw [segmentsOf, h] at htext
    exact congrArg Path.mk htext
  next h =>
    rw [segmentsOf, h] at htext
    exact congrArg Path.mk htext
  next => exact congrArg Path.mk htext

theorem names_ofParts (lead : Lead) {segments : List (List Char)} (h : ∀ s ∈ segments, '/' ∉ s) :
    (ofParts lead segments).names = segments.filter (!isSilent ·) := by
  have hjoin : (Text.pieces '/' (Text.join '/' segments)).filter (!isSilent ·) =
      segments.filter (!isSilent ·) := by
    cases segments with
    | nil => rfl
    | cons s segments => rw [Text.pieces_join (by simp) h]
  cases lead with
  | root => simpa [names, segmentsOf, ofParts, Text.pieces, isSilent] using hjoin
  | here =>
    have hslash : ∀ s ∈ ['.'] :: segments, '/' ∉ s := List.forall_mem_cons.mpr ⟨by decide, h⟩
    have hpieces := Text.pieces_join (by simp) hslash
    simp [names, segmentsOf, ofParts, hpieces, isSilent]
  | plain => simpa [names, segmentsOf, ofParts] using hjoin

/-! ### Ancestors -/

theorem filter_dropWhile_silent (segments : List (List Char)) :
    (segments.dropWhile isSilent).filter (!isSilent ·) = segments.filter (!isSilent ·) := by
  induction segments with
  | nil => rfl
  | cons s segments ih => by_cases hs : isSilent s <;> simp [hs, ih]

theorem scanr_eq {α β : Type} (step : α → β → β) (start : β) (l : List α) :
    l.scanr step start = l.foldr step start :: (l.scanr step start).tail := by
  cases l with
  | nil => rfl
  | cons a l => rw [List.scanr_cons, List.tail_cons]

/-- A value for each ancestor, built up along its names: they go off one by one, from the last. A
path that starts with `.` has one more ancestor, with no names again. -/
theorem map_above {α : Type} (step : List Char → α → α) (start : α) (lead : Lead)
    {segments : List (List Char)} (h : ∀ s ∈ segments, '/' ∉ s) :
    (above lead segments).map (·.names.reverse.foldr step start) =
      ((segments.filter (!isSilent ·)).scanr step start).tail ++
        (if lead = .here then [start] else []) := by
  induction segments with
  | nil => cases lead <;> rfl
  | cons s segments ih =>
    obtain ⟨-, hsegments⟩ := List.forall_mem_cons.mp h
    specialize ih hsegments
    by_cases hs : isSilent s
    · simpa [above, hs] using ih
    · have hnames : (ofParts lead (segments.dropWhile isSilent).reverse).names.reverse =
          segments.filter (!isSilent ·) := by
        have hrest : ∀ t ∈ (segments.dropWhile isSilent).reverse, '/' ∉ t := fun t ht =>
          hsegments t ((List.dropWhile_suffix _).mem (List.mem_reverse.mp ht))
        rw [names_ofParts lead hrest, List.filter_reverse, List.reverse_reverse,
          filter_dropWhile_silent]
      rw [above, if_neg hs, List.map_cons, hnames, ih, List.filter_cons_of_pos (by simp [hs]),
        List.scanr_cons, List.tail_cons, ← List.cons_append, ← scanr_eq]

theorem map_parents {α : Type} (step : List Char → α → α) (start : α) (p : Path) :
    p.parents.map (·.names.reverse.foldr step start) =
      (p.names.reverse.scanr step start).tail ++ (if p.parts.1 = .here then [start] else []) := by
  rw [parents, map_above step start _ fun s hs => slash_not_mem (List.mem_reverse.mp hs),
    List.filter_reverse, ← names_eq]

theorem map_ancestors {α : Type} (step : List Char → α → α) (start : α) (p : Path) :
    p.ancestors.map (·.names.reverse.foldr step start) =
      p.names.reverse.scanr step start ++ (if p.parts.1 = .here then [start] else []) := by
  rw [ancestors, List.map_cons, map_parents, ← List.cons_append, ← scanr_eq]

/-- An ancestor has the first few of the names. -/
theorem names_ancestors {p q : Path} (h : q ∈ p.ancestors) : q.names <+: p.names := by
  have hscanr (l : List (List Char)) : ∀ x ∈ l.scanr List.cons [], x <:+ l := by
    induction l with
    | nil => simp
    | cons s l ih =>
      rw [List.scanr_cons, List.foldr_cons_nil]
      refine List.forall_mem_cons.mpr ⟨List.suffix_rfl, fun x hx => ?_⟩
      exact (ih x hx).trans (List.suffix_cons ..)
  have hmem := List.mem_map_of_mem (f := fun q : Path => q.names.reverse.foldr List.cons []) h
  rw [map_ancestors, List.foldr_cons_nil, List.mem_append] at hmem
  rw [← List.reverse_suffix]
  rcases hmem with hmem | hmem
  · exact hscanr _ _ hmem
  · have hnil : q.names.reverse = [] := by
      split at hmem
      next => exact List.mem_singleton.mp hmem
      next => cases hmem
    rw [hnil]
    exact List.nil_suffix

theorem text_ofParts_append (lead : Lead) (front back : List (List Char)) :
    (ofParts lead front).text.toList <+: (ofParts lead (front ++ back)).text.toList := by
  cases lead with
  | root => simpa [ofParts] using Text.join_append '/' front back
  | here => simpa [ofParts] using Text.join_append '/' (['.'] :: front) back
  | plain => simpa [ofParts] using Text.join_append '/' front back

theorem isAbsolute_iff {p : Path} : p.isAbsolute ↔ p.text.toList.head? = some '/' := by
  unfold isAbsolute parts
  cases p.text.toList with
  | nil => simp [Text.pieces]
  | cons c cs =>
    obtain ⟨q, qs, hq⟩ := List.exists_cons_of_ne_nil (Text.pieces_ne_nil '/' cs)
    by_cases hc : c = '/'
    · simp [Text.pieces, hc, hq]
    · simp only [Text.pieces, hc, hq, if_false]
      split
      next h => simp at h
      next => simp [hc]
      next => simp [hc]

theorem text_above {lead : Lead} {segments : List (List Char)} {q : Path}
    (h : q ∈ above lead segments) :
    q.text.toList <+: (ofParts lead segments.reverse).text.toList ∧
      (lead = .root → q.isAbsolute) := by
  induction segments with
  | nil =>
    cases lead with
    | here =>
      obtain rfl := List.mem_singleton.mp h
      exact ⟨List.nil_prefix, by simp⟩
    | root => cases h
    | plain => cases h
  | cons s segments ih =>
    have hlater (hq : q ∈ above lead segments) : q.text.toList <+:
        (ofParts lead (s :: segments).reverse).text.toList ∧ (lead = .root → q.isAbsolute) := by
      obtain ⟨htext, hroot⟩ := ih hq
      rw [List.reverse_cons]
      exact ⟨htext.trans (text_ofParts_append ..), hroot⟩
    rw [above] at h
    split at h
    next => exact hlater h
    next =>
      rcases List.mem_cons.mp h with rfl | h
      · have hsplit : (s :: segments).reverse = (segments.dropWhile isSilent).reverse ++
            ((segments.takeWhile isSilent).reverse ++ [s]) := by
          rw [List.reverse_cons, ← List.append_assoc, ← List.reverse_append,
            List.takeWhile_append_dropWhile]
        refine ⟨hsplit ▸ text_ofParts_append .., ?_⟩
        rintro rfl
        exact isAbsolute_iff.mpr (by simp [ofParts])
      · exact hlater h

/-- The text of an ancestor is a beginning of the text. -/
theorem text_ancestors {p q : Path} (h : q ∈ p.ancestors) : q.text.toList <+: p.text.toList := by
  rcases List.mem_cons.mp h with rfl | h
  · exact List.prefix_rfl
  · have htext := (text_above h).1
    rwa [List.reverse_reverse, ofParts_parts] at htext

theorem isAbsolute_ancestors {p q : Path} (h : q ∈ p.ancestors) : q.isAbsolute = p.isAbsolute := by
  have htext := text_ancestors h
  rcases List.mem_cons.mp h with rfl | h
  · rfl
  · rw [Bool.eq_iff_iff]
    constructor
    · intro hq
      obtain ⟨rest, hrest⟩ := htext
      rw [isAbsolute_iff] at hq ⊢
      rw [← hrest, List.head?_append, hq, Option.some_or]
    · intro hp
      exact (text_above h).2 (of_decide_eq_true hp)

/-! ### Files in a directory -/

/-- The slash between a directory and a name, where the directory does not end in one. -/
def slashAfter (p : Path) : List Char :=
  if p.text.toList.getLast?.all (· = '/') then [] else ['/']

section Join
variable {name : String} (hslash : '/' ∉ name.toList)
include hslash

theorem text_join (p : Path) :
    (p.join ⟨name⟩).text.toList = p.text.toList ++ (p.slashAfter ++ name.toList) := by
  have hrelative : ¬ (Path.mk name).isAbsolute := by
    rw [isAbsolute_iff]
    exact fun h => hslash (List.mem_of_mem_head? h)
  unfold join slashAfter
  rw [if_neg hrelative]
  split <;> simp

theorem segments_join (p : Path) : ∃ front, segmentsOf (p.join ⟨name⟩) = front ++ [name.toList] ∧
    front.filter (!isSilent ·) = p.names := by
  have hname : Text.pieces '/' name.toList = [name.toList] :=
    Text.pieces_eq_singleton hslash
  rw [segmentsOf, text_join hslash, names, segmentsOf, slashAfter]
  split
  next hend =>
    cases hlast : p.text.toList.getLast? with
    | none =>
      rw [List.getLast?_eq_none_iff.mp hlast]
      exact ⟨[], hname, rfl⟩
    | some c =>
      obtain ⟨text, htext⟩ := List.getLast?_eq_some_iff.mp hlast
      obtain rfl : c = '/' := by simpa [hlast] using hend
      refine ⟨Text.pieces '/' text, ?_, ?_⟩
      · rw [htext, List.append_assoc, List.nil_append, List.singleton_append, Text.pieces_append,
          hname]
      · rw [htext, Text.pieces_append, List.filter_append]
        simp [Text.pieces, isSilent]
  next =>
    refine ⟨Text.pieces '/' p.text.toList, ?_, rfl⟩
    rw [List.singleton_append, Text.pieces_append, hname]

theorem isAbsolute_join (p : Path) : (p.join ⟨name⟩).isAbsolute = p.isAbsolute := by
  rw [Bool.eq_iff_iff, isAbsolute_iff, isAbsolute_iff, text_join hslash, List.head?_append]
  cases hhead : p.text.toList.head? with
  | none =>
    have hempty := List.head?_eq_none_iff.mp hhead
    simp [slashAfter, hempty]
    exact fun h => hslash (List.mem_of_mem_head? h)
  | some c => simp

/-- A file in an ancestor has no longer a path than one in the directory. -/
theorem byteLength_join {p q : Path} (h : q ∈ p.ancestors) :
    Text.byteLength (q.join ⟨name⟩).text.toList ≤ Text.byteLength (p.join ⟨name⟩).text.toList := by
  obtain ⟨rest, hrest⟩ := text_ancestors h
  cases rest with
  | nil =>
    rw [List.append_nil] at hrest
    have htext : (q.join ⟨name⟩).text.toList = (p.join ⟨name⟩).text.toList := by
      rw [text_join hslash, text_join hslash, slashAfter, slashAfter, hrest]
    exact Nat.le_of_eq (congrArg _ htext)
  | cons c rest =>
    have hc : 0 < c.utf8Size := c.utf8Size_pos
    have hslash' : Text.byteLength q.slashAfter ≤ 1 := by
      unfold slashAfter
      split <;> decide
    rw [text_join hslash, text_join hslash, ← hrest]
    simp only [Text.byteLength_append, Text.byteLength]
    omega

end Join

/-! ### The directory of an input -/

/-- The directory of an input is its parent, or `.` in place of nothing. -/
theorem directoryOf_spec {input : Path} {front : List (List Char)} {name : List Char}
    (h : segmentsOf input = front ++ [name]) (hname : ¬ isSilent name) :
    (Build.directoryOf input).names = front.filter (!isSilent ·) ∧
      (Build.directoryOf input).isAbsolute = input.isAbsolute ∧
      (Build.directoryOf input = ⟨"."⟩ ∨ Build.directoryOf input ∈ input.ancestors) := by
  have hnames : input.names.reverse = name :: (front.filter (!isSilent ·)).reverse := by
    simp [names, h, hname]
  have hparents := map_parents List.cons [] input
  rw [hnames, List.scanr_cons, List.tail_cons] at hparents
  have hhead := congrArg List.head? hparents
  rw [List.head?_map, List.head?_append, List.head?_scanr, Option.some_or] at hhead
  obtain ⟨dir, hdir, hdirNames⟩ := Option.map_eq_some_iff.mp hhead
  rw [List.foldr_cons_nil, List.foldr_cons_nil, List.reverse_inj] at hdirNames
  have hmem : dir ∈ input.ancestors := List.mem_cons_of_mem _ (List.mem_of_mem_head? hdir)
  by_cases hempty : dir = ⟨""⟩
  · have hdot : Build.directoryOf input = ⟨"."⟩ := by
      simp [Build.directoryOf, parent?, hdir, hempty]
    rw [hdot, ← hdirNames, ← isAbsolute_ancestors hmem, hempty]
    exact ⟨by decide, by decide, .inl rfl⟩
  · have htext : dir.text ≠ "" := fun h => hempty (congrArg Path.mk h)
    have hparent : Build.directoryOf input = dir := by
      simp [Build.directoryOf, parent?, hdir, htext]
    rw [hparent]
    exact ⟨hdirNames, isAbsolute_ancestors hmem, .inr hmem⟩

end Path

end StackBackend
