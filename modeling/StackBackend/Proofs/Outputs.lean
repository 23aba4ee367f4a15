import StackBackend.Proofs.Discovery
import StackBackend.Proofs.FileNames

/-! What a build writes, beside what it reads.

The outputs of a build are named after the stem of its input (`Stem`). As paths, the input and both
outputs are different, and an input or an executable is refused only where they would not be
(`forInput_outputs`).

Different paths can still lead to one place. Outputs that are named after the input never do, since
they differ from it in their last name only. An executable that is asked for is compared with the
input as it is written, so it is kept from the input's place only if it is written with the same
start (`outputs_apart`): otherwise a build overwrites its own input (`executable_over_input`). -/
namespace StackBackend

/-! ### Stems -/

namespace Path

/-- What stands before the last dot of a file name; the whole name where no dot comes after its
first character. -/
inductive Stem : List Char → List Char → Prop where
  | whole {name : List Char} : '.' ∉ name.tail → Stem name name
  | cut {stem ext : List Char} : stem ≠ [] → '.' ∉ ext → Stem (stem ++ '.' :: ext) stem

theorem stem_stemOf (name : List Char) : Stem name (stemOf name) := by
  unfold stemOf
  split
  next hnone =>
    have hdot : '.' ∉ name := by simpa using Text.splitOnce_eq_none.mp hnone
    exact .whole fun h => hdot (List.mem_of_mem_tail h)
  next ext hsome =>
    obtain ⟨hname, hext⟩ := Text.splitOnce_eq_some.mp hsome
    rw [List.reverse_eq_iff] at hname
    apply Stem.whole
    simpa [hname] using hext
  next ext stem hne hsome =>
    obtain ⟨hname, hext⟩ := Text.splitOnce_eq_some.mp hsome
    have hcut : name = stem.reverse ++ '.' :: ext.reverse := by
      rw [List.reverse_eq_iff] at hname
      simpa using hname
    have hstem : stem ≠ [] := by
      intro h
      exact hne h
    rw [hcut]
    exact .cut (by simpa using hstem) (by simpa using hext)

theorem Stem.unique {name s t : List Char} (hs : Stem name s) (ht : Stem name t) : s = t := by
  -- A stem that was cut off leaves a dot behind the first character.
  have hdot {stem ext : List Char} (h : stem ≠ []) : '.' ∈ (stem ++ '.' :: ext).tail := by
    obtain ⟨c, cs, rfl⟩ := List.exists_cons_of_ne_nil h
    simp
  generalize hname : name = other at ht
  cases hs with
  | whole hs =>
    cases ht with
    | whole => exact hname
    | cut ht => exact absurd (hdot ht) (hname ▸ hs)
  | cut hs hext =>
    cases ht with
    | whole ht => exact absurd (hdot hs) (hname ▸ ht)
    | cut _ hext' =>
      have hreverse := congrArg List.reverse hname
      simp only [List.reverse_append, List.reverse_cons, List.append_assoc,
        List.singleton_append] at hreverse
      have hunique := Text.split_unique hreverse (by simpa using hext) (by simpa using hext')
      exact List.reverse_inj.mp hunique.2

section Names
variable {name stem : List Char} (h : Stem name stem)
include h

theorem Stem.eq_stemOf : stem = stemOf name := h.unique (stem_stemOf name)

theorem Stem.isPrefix : stem <+: name := by
  cases h with
  | whole => exact List.prefix_rfl
  | cut => exact List.prefix_append _ _

variable (hname : IsFileName name)
include hname

theorem Stem.nonempty : stem ≠ [] := by
  cases h with
  | whole =>
    intro hempty
    have hnamed := hname.named
    rw [hempty] at hnamed
    cases hnamed
  | cut hstem => exact hstem

theorem Stem.slash : '/' ∉ stem := fun hslash => hname.slash (h.isPrefix.subset hslash)

/-- A stem with an extension is a name again. -/
theorem Stem.extended (ext : List Char) (hlength : 2 ≤ ext.length) (hslash : '/' ∉ ext) :
    IsFileName (stem ++ ext) := by
  have hstem := List.length_pos_iff.mpr (h.nonempty hname)
  have hne {other : List Char} (hshort : other.length ≤ 2) : stem ++ ext ≠ other := by
    intro heq
    have hlengths := congrArg List.length heq
    rw [List.length_append] at hlengths
    omega
  exact ⟨by simp [h.slash hname, hslash], by simp [isSilent, hne], hne (by decide)⟩

end Names

end Path

/-! ### Outputs as paths -/

namespace Artifacts

open StackBackend.Path (IsFileName Renamed Stem)

/-- The name of an executable that is not asked for. -/
def defaultName (name stem : List Char) : List Char :=
  if stem = name then stem ++ ".out".toList else stem

theorem defaultName_ne (name stem : List Char) :
    defaultName name stem ≠ name ∧ defaultName name stem ≠ stem ++ ".s".toList := by
  have hlonger {ext : List Char} (h : ext ≠ []) : stem ≠ stem ++ ext := by simpa using h
  unfold defaultName
  split
  next hstem =>
    subst hstem
    exact ⟨(hlonger (by decide)).symm, fun h => absurd (List.append_cancel_left h) (by decide)⟩
  next hstem => exact ⟨hstem, hlonger (by decide)⟩

section Named
variable {input : Path} {name stem : List Char} (hname : input.fileName? = some name)
  (hstem : Stem name stem)
include hname hstem

theorem slash_not_mem_defaultName : '/' ∉ defaultName name stem := by
  have hslash := hstem.slash (Path.isFileName_of_fileName? hname)
  unfold defaultName
  split
  next => simpa using hslash
  next => exact hslash

theorem assembly_isFileName : IsFileName (stem ++ ".s".toList) :=
  hstem.extended (Path.isFileName_of_fileName? hname) _ (by decide) (by decide)

theorem assembly_forth (h : ['.', '.'] ∉ input.names) :
    ['.', '.'] ∉ (input.withFileName (stem ++ ".s".toList)).names := by
  have hassembly := assembly_isFileName hname hstem
  rw [Path.names_renamed hname hassembly, List.mem_append]
  intro hmem
  rcases hmem with hmem | hmem
  · exact h ((List.dropLast_prefix _).mem hmem)
  · exact hassembly.forth (List.mem_singleton.mp hmem).symm

theorem stem?_eq : input.stem? = some stem := by
  rw [Path.stem?, hname, Option.map_some, ← hstem.eq_stemOf]

theorem same_assembly_iff :
    (input.withFileName (stem ++ ".s".toList)).same input ↔ stem ++ ".s".toList = name :=
  Path.same_withFileName_iff hname (assembly_isFileName hname hstem).slash

theorem defaultExecutable_eq :
    defaultExecutable input stem = input.withFileName (defaultName name stem) := by
  have hsame := Path.same_withFileName_iff hname (hstem.slash (Path.isFileName_of_fileName? hname))
  unfold defaultExecutable defaultName
  by_cases h : stem = name
  · rw [if_pos h]
    exact if_pos (hsame.mpr h)
  · rw [if_neg h]
    exact if_neg fun hplain => h (hsame.mp hplain)

/-- The executable that is not asked for is neither the input nor the assembly. -/
theorem default_not_same : ¬ (input.withFileName (defaultName name stem)).same input ∧
    ¬ (input.withFileName (defaultName name stem)).same
      (input.withFileName (stem ++ ".s".toList)) := by
  have hslash := slash_not_mem_defaultName hname hstem
  have hassembly := assembly_isFileName hname hstem
  constructor
  · intro h
    exact (defaultName_ne name stem).1 ((Path.same_withFileName_iff hname hslash).mp h)
  · intro h
    exact (defaultName_ne name stem).2 (Path.eq_of_same_withFileName hname hslash hassembly h)

theorem forInput_of_clash (h : stem ++ ".s".toList = name) (executable : Option Path) :
    forInput input executable =
      .error (.assemblyOverInput (input.withFileName (stem ++ ".s".toList))) := by
  simp only [forInput, stem?_eq hname hstem]
  exact if_pos ((same_assembly_iff hname hstem).mpr h)

variable (hother : stem ++ ".s".toList ≠ name)
include hother

theorem forInput_none : forInput input none =
    .ok ⟨input.withFileName (stem ++ ".s".toList), input.withFileName (defaultName name stem)⟩ := by
  have hassembly := fun h => hother ((same_assembly_iff hname hstem).mp h)
  simp only [forInput, stem?_eq hname hstem]
  rw [if_neg hassembly, defaultExecutable_eq hname hstem]
  exact if_neg (default_not_same hname hstem).2

/-- An executable that is asked for is taken as it is, unless it is the input or the assembly. -/
theorem forInput_some {p : Path} {a : Artifacts} : forInput input (some p) = .ok a ↔
    (¬ p.same input ∧ ¬ p.same (input.withFileName (stem ++ ".s".toList))) ∧
      a = ⟨input.withFileName (stem ++ ".s".toList), p⟩ := by
  have hassembly := fun h => hother ((same_assembly_iff hname hstem).mp h)
  simp only [forInput, stem?_eq hname hstem]
  rw [if_neg hassembly]
  by_cases hinput : p.same input
  · rw [if_pos hinput]
    exact iff_of_false (by simp) fun h => h.1.1 hinput
  · rw [if_neg hinput, distinct]
    by_cases hassembly : p.same (input.withFileName (stem ++ ".s".toList))
    · rw [if_pos hassembly]
      exact iff_of_false (by simp) fun h => h.1.2 hassembly
    · rw [if_neg hassembly]
      exact ⟨fun h => ⟨⟨hinput, hassembly⟩, (Except.ok.inj h).symm⟩, fun h => congrArg _ h.2.symm⟩

end Named

theorem forInput_unnamed {input : Path} (h : input.fileName? = none) (executable : Option Path) :
    forInput input executable = .error (.noFileName input) := by
  rw [forInput, Path.stem?, h]
  rfl

/-- What outputs say about the input they are for. -/
theorem forInput_eq_ok {input : Path} {executable : Option Path} {a : Artifacts}
    (h : forInput input executable = .ok a) : ∃ name stem, input.fileName? = some name ∧
      Stem name stem ∧ stem ++ ".s".toList ≠ name ∧
      a.assembly = input.withFileName (stem ++ ".s".toList) ∧
      a.executable = executable.getD (input.withFileName (defaultName name stem)) ∧
      ¬ a.executable.same input ∧ ¬ a.executable.same a.assembly := by
  cases hname : input.fileName? with
  | none =>
    rw [forInput_unnamed hname] at h
    cases h
  | some name =>
    have hstem := Path.stem_stemOf name
    by_cases hclash : Path.stemOf name ++ ".s".toList = name
    · rw [forInput_of_clash hname hstem hclash] at h
      cases h
    · refine ⟨name, _, rfl, hstem, hclash, ?_⟩
      cases executable with
      | none =>
        rw [forInput_none hname hstem hclash] at h
        cases h
        exact ⟨rfl, rfl, default_not_same hname hstem⟩
      | some p =>
        obtain ⟨hsame, rfl⟩ := (forInput_some hname hstem hclash).mp h
        exact ⟨rfl, rfl, hsame⟩

/-- An input has no outputs for one of four reasons. -/
theorem forInput_refused_iff {input : Path} {executable : Option Path} :
    (∃ e, forInput input executable = .error e) ↔
      input.fileName? = none ∨
      (∃ name stem, input.fileName? = some name ∧ Stem name stem ∧ name = stem ++ ".s".toList) ∨
      (∃ p, executable = some p ∧ p.same input) ∨
      ∃ p name stem assembly, executable = some p ∧ input.fileName? = some name ∧
        Stem name stem ∧ Renamed input (stem ++ ".s".toList) assembly ∧ p.same assembly := by
  constructor
  · intro h
    obtain ⟨e, he⟩ := h
    cases hname : input.fileName? with
    | none => exact .inl rfl
    | some name =>
      have hstem := Path.stem_stemOf name
      by_cases hclash : Path.stemOf name ++ ".s".toList = name
      · exact .inr (.inl ⟨name, _, rfl, hstem, hclash.symm⟩)
      · cases executable with
        | none =>
          rw [forInput_none hname hstem hclash] at he
          cases he
        | some p =>
          by_cases hinput : p.same input
          · exact .inr (.inr (.inl ⟨p, rfl, hinput⟩))
          · by_cases hassembly : p.same (input.withFileName (Path.stemOf name ++ ".s".toList))
            · have hrenamed := Path.renamed_withFileName hname (assembly_isFileName hname hstem)
              exact .inr (.inr (.inr ⟨p, name, _, _, rfl, rfl, hstem, hrenamed, hassembly⟩))
            · have hok := (forInput_some hname hstem hclash).mpr ⟨⟨hinput, hassembly⟩, rfl⟩
              rw [hok] at he
              cases he
  · intro h
    cases houtcome : forInput input executable with
    | error e => exact ⟨e, rfl⟩
    | ok a =>
      obtain ⟨name, stem, hname, hstem, hother, hassembly, hexecutable, hinput, hapart⟩ :=
        forInput_eq_ok houtcome
      rcases h with h | ⟨name', stem', hname', hstem', hclash⟩ | ⟨p, rfl, hp⟩ |
        ⟨p, name', stem', assembly, rfl, hname', hstem', hrenamed, hp⟩
      · rw [hname] at h
        cases h
      · cases hname.symm.trans hname'
        exact absurd (hstem.unique hstem' ▸ hclash.symm) hother
      · exact absurd (hexecutable ▸ hp) hinput
      · cases hname.symm.trans hname'
        cases hstem.unique hstem'
        have hsame : assembly.same a.assembly := by
          rw [hassembly]
          exact hrenamed.same (Path.renamed_withFileName hname (assembly_isFileName hname hstem))
        exact absurd (Path.same_trans (hexecutable ▸ hp) hsame) hapart

/-- **Outputs are different paths, and nothing else is refused.** The input and its outputs are
pairwise different; the assembly is the input with the name `stem.s`, and an executable that is
asked for is the one that is given. There are no outputs exactly when the input has no file name or
is its own assembly, or when the executable that is asked for is the input or the assembly. The
executable that is not asked for is the input without its extension, or with the extension `out`
when it has none. -/
theorem forInput_outputs (input : Path) (executable : Option Path) :
    (∀ a, forInput input executable = .ok a →
      (¬ a.assembly.same input ∧ ¬ a.executable.same input ∧ ¬ a.executable.same a.assembly) ∧
      (∃ name stem, input.fileName? = some name ∧ Stem name stem ∧
        Renamed input (stem ++ ".s".toList) a.assembly) ∧
      ∀ p, executable = some p → a.executable = p) ∧
    ((∃ e, forInput input executable = .error e) ↔
      input.fileName? = none ∨
      (∃ name stem, input.fileName? = some name ∧ Stem name stem ∧ name = stem ++ ".s".toList) ∨
      (∃ p, executable = some p ∧ p.same input) ∨
      ∃ p name stem assembly, executable = some p ∧ input.fileName? = some name ∧
        Stem name stem ∧ Renamed input (stem ++ ".s".toList) assembly ∧ p.same assembly) ∧
    ∀ a name stem, forInput input none = .ok a → input.fileName? = some name → Stem name stem →
      (stem = name → Renamed input (stem ++ ".out".toList) a.executable) ∧
      (stem ≠ name → a.executable = input.withFileName stem) := by
  refine ⟨?_, ?_, ?_⟩
  · intro a h
    obtain ⟨name, stem, hname, hstem, hother, hassembly, hexecutable, hinput, hapart⟩ :=
      forInput_eq_ok h
    refine ⟨⟨?_, hinput, hapart⟩, ⟨name, stem, hname, hstem, ?_⟩, ?_⟩
    · rw [hassembly, same_assembly_iff hname hstem]
      exact hother
    · rw [hassembly]
      exact Path.renamed_withFileName hname (assembly_isFileName hname hstem)
    · intro p hp
      rw [hexecutable, hp]
      rfl
  · exact forInput_refused_iff
  · intro a name stem h hname hstem
    obtain ⟨name', stem', hname', hstem', -, -, hexecutable, -⟩ := forInput_eq_ok h
    cases hname.symm.trans hname'
    cases hstem.unique hstem'
    rw [hexecutable, Option.getD_none, defaultName]
    constructor
    · intro hwhole
      have hfallback := hstem.extended (Path.isFileName_of_fileName? hname) ".out".toList
        (by decide) (by decide)
      rw [if_pos hwhole]
      exact Path.renamed_withFileName hname hfallback
    · intro hcut
      rw [if_neg hcut]

/-- A name with a dot at its start only, in a path with segments that lead nowhere. -/
def hidden : Path := ⟨"a//.hidden/."⟩

theorem hidden_outputs :
    (∃ a, forInput hidden none = .ok a ∧ a.executable = ⟨"a/.hidden.out"⟩ ∧
      ¬ a.assembly.same hidden ∧ ¬ a.executable.same hidden ∧ ¬ a.executable.same a.assembly) ∧
    ∃ e, forInput hidden (some ⟨"a/./.hidden.s/"⟩) = .error e := by
  have hok : forInput hidden none = .ok ⟨⟨"a/.hidden.s"⟩, ⟨"a/.hidden.out"⟩⟩ := rfl
  have hstem : Stem ".hidden".toList ".hidden".toList := .whole (by decide)
  constructor
  · exact ⟨_, hok, rfl, ((forInput_outputs hidden none).1 _ hok).1⟩
  · apply (forInput_outputs hidden (some ⟨"a/./.hidden.s/"⟩)).2.1.mpr
    exact .inr (.inr (.inr ⟨_, _, _, ⟨"a/.hidden.s"⟩, rfl, rfl, hstem,
      ⟨[.name ['a']], _, rfl, rfl⟩, by decide⟩))

end Artifacts

/-! ### Outputs as places -/

namespace World

open StackBackend.Path (IsFileName isSilent)
open Artifacts (defaultName forInput)

/-- The place that a path leads to, if there is a directory at every step. -/
def leadsTo (w : World) (p : Path) : Place := (segmentsOf p).reverse.foldr stepTo (w.startOf p)

theorem find_leadsTo {w : World} {p : Path} {here : Place} {e : Entry}
    (h : w.find p = .ok (here, e)) : w.leadsTo p = here := by
  unfold find at h
  rw [check_eq_ok, bind_eq_ok] at h
  obtain ⟨-, place, hwalk, hentry⟩ := h
  rw [leadsTo, ← walk_eq hwalk]
  split at hentry
  next => exact congrArg Prod.fst (Except.ok.inj hentry)
  next => cases hentry

theorem leadsTo_eq (w : World) (p : Path) :
    w.leadsTo p = p.names.reverse.foldr stepTo (w.startOf p) := by
  rw [leadsTo, Path.names, ← List.filter_reverse, foldr_filter_silent]

/-- The place of the directory that a path names its last name in. -/
def directoryPlace (w : World) (p : Path) : Place :=
  p.names.dropLast.reverse.foldr stepTo (w.startOf p)

theorem stepTo_named {s : List Char} (h : IsFileName s) (here : Place) :
    stepTo s here = String.ofList s :: here := by
  rw [stepTo, if_neg (Bool.eq_false_iff.mp h.named), if_neg h.forth]

theorem stepTo_ne {s t : List Char} (h : s ≠ t) (here : Place) :
    stepTo s here ≠ String.ofList t :: here := by
  unfold stepTo
  intro heq
  split at heq
  next => exact absurd (congrArg List.length heq) (by simp)
  next =>
    split at heq
    next =>
      have hlength := congrArg List.length heq
      rw [List.length_tail, List.length_cons] at hlength
      omega
    next => exact h (String.ofList_injective (List.cons.inj heq).1)

section Places
variable {w : World} {p : Path} {old : List Char} (h : p.fileName? = some old)
include h

theorem leadsTo_named : w.leadsTo p = String.ofList old :: w.directoryPlace p := by
  rw [leadsTo_eq, Path.names_eq_concat h, List.reverse_concat, List.foldr_cons]
  exact stepTo_named (Path.isFileName_of_fileName? h) _

theorem leadsTo_withFileName {name : List Char} (hslash : '/' ∉ name) :
    w.leadsTo (p.withFileName name) = stepTo name (w.directoryPlace p) := by
  have hstart : w.startOf (p.withFileName name) = w.startOf p := by
    rw [startOf, startOf, Path.isAbsolute_withFileName h hslash]
  rw [leadsTo_eq, hstart, Path.names_withFileName h hslash, List.reverse_append, List.foldr_append,
    ← directoryPlace]
  by_cases hname : isSilent name <;> simp [stepTo, hname]

end Places

section Forth
variable {w : World} {p q : Path} (hp : ['.', '.'] ∉ p.names) (hq : ['.', '.'] ∉ q.names)
include hp

theorem leadsTo_forth : w.leadsTo p = p.names.reverse.map String.ofList ++ w.startOf p := by
  have hnamed : ∀ s ∈ p.names.reverse, IsFileName s := by
    intro s hs
    have hs := List.mem_reverse.mp hs
    obtain ⟨hsilent, hslash⟩ := Path.not_silent_of_mem_names hs
    exact ⟨hslash, hsilent, fun hup => hp (hup ▸ hs)⟩
  rw [leadsTo_eq]
  generalize p.names.reverse = segments at hnamed
  induction segments with
  | nil => rfl
  | cons s segments ih =>
    obtain ⟨hs, hsegments⟩ := List.forall_mem_cons.mp hnamed
    rw [List.foldr_cons, ih hsegments, stepTo_named hs]
    rfl

include hq in
/-- Among paths that never turn back, those that start in the same way and lead to one place are the
same. -/
theorem same_iff_leadsTo (w : World) :
    p.same q ↔ p.parts.1 = q.parts.1 ∧ w.leadsTo p = w.leadsTo q := by
  rw [Path.same_iff, leadsTo_forth hp, leadsTo_forth hq, startOf, startOf, Path.isAbsolute,
    Path.isAbsolute]
  constructor
  · intro h
    rw [h.1, h.2]
    exact ⟨rfl, rfl⟩
  · intro h
    obtain ⟨hlead, hplace⟩ := h
    rw [hlead] at hplace
    have hnames := (List.map_inj_right fun _ _ heq => String.ofList_injective heq).mp
      (List.append_cancel_right hplace)
    exact ⟨hlead, List.reverse_inj.mp hnames⟩

end Forth

section Apart
variable (w : World) {input : Path} {name stem : List Char} (hname : input.fileName? = some name)
  (hstem : Path.Stem name stem)
include hname hstem

theorem leadsTo_assembly : w.leadsTo (input.withFileName (stem ++ ".s".toList)) =
    String.ofList (stem ++ ".s".toList) :: w.directoryPlace input := by
  have hassembly := Artifacts.assembly_isFileName hname hstem
  rw [leadsTo_withFileName hname hassembly.slash, stepTo_named hassembly]

theorem default_apart :
    w.leadsTo (input.withFileName (defaultName name stem)) ≠ w.leadsTo input ∧
      w.leadsTo (input.withFileName (defaultName name stem)) ≠
        w.leadsTo (input.withFileName (stem ++ ".s".toList)) := by
  obtain ⟨hinput, hassembly⟩ := Artifacts.defaultName_ne name stem
  rw [leadsTo_assembly w hname hstem, leadsTo_named hname,
    leadsTo_withFileName hname (Artifacts.slash_not_mem_defaultName hname hstem)]
  exact ⟨stepTo_ne hinput _, stepTo_ne hassembly _⟩

/-- A path with the start of the input that is neither the input nor the assembly leads to neither
of the two. -/
theorem given_apart {p : Path} (hforth : ['.', '.'] ∉ input.names) (hp : ['.', '.'] ∉ p.names)
    (hstart : p.parts.1 = input.parts.1) (hinput : ¬ p.same input)
    (hassembly : ¬ p.same (input.withFileName (stem ++ ".s".toList))) :
    w.leadsTo p ≠ w.leadsTo input ∧
      w.leadsTo p ≠ w.leadsTo (input.withFileName (stem ++ ".s".toList)) := by
  have hlead := Path.lead_withFileName hname (Artifacts.assembly_isFileName hname hstem)
  rw [same_iff_leadsTo hp hforth w] at hinput
  rw [same_iff_leadsTo hp (Artifacts.assembly_forth hname hstem hforth) w, hlead] at hassembly
  exact ⟨fun hone => hinput ⟨hstart, hone⟩, fun hone => hassembly ⟨hstart, hone⟩⟩

end Apart

/-- **What a build writes is apart from what it reads, up to how a path starts.** Let neither the
input nor the executable that is asked for turn back. The assembly does not lead to the place of the
input, and the executable leads to neither of the two if it is named after the input or is written
with the same start as the input. An executable that is written with another start is always taken,
wherever it leads. -/
theorem outputs_apart (w : World) (input : Path) (executable : Option Path)
    (hinput : ['.', '.'] ∉ input.names)
    (hexecutable : ∀ p, executable = some p → ['.', '.'] ∉ p.names) :
    (∀ a, forInput input executable = .ok a →
      w.leadsTo a.assembly ≠ w.leadsTo input ∧
      ((∀ p, executable = some p → p.parts.1 = input.parts.1) →
        w.leadsTo a.executable ≠ w.leadsTo input ∧
        w.leadsTo a.executable ≠ w.leadsTo a.assembly)) ∧
    ∀ a p, forInput input none = .ok a → executable = some p → p.parts.1 ≠ input.parts.1 →
      forInput input executable = .ok ⟨a.assembly, p⟩ := by
  constructor
  · intro a h
    obtain ⟨name, stem, hname, hstem, hother, hassembly, hgiven, hnotInput, hnotAssembly⟩ :=
      Artifacts.forInput_eq_ok h
    rw [hassembly] at hnotAssembly ⊢
    rw [hgiven] at hnotInput hnotAssembly ⊢
    constructor
    · rw [leadsTo_assembly w hname hstem, leadsTo_named hname]
      exact fun hone => hother (String.ofList_injective (List.cons.inj hone).1)
    · intro hstart
      cases executable with
      | none => exact default_apart w hname hstem
      | some p =>
        exact given_apart w hname hstem hinput (hexecutable p rfl) (hstart p rfl) hnotInput
          hnotAssembly
  · intro a p h hp hstart
    obtain ⟨name, stem, hname, hstem, hother, hassembly, -⟩ := Artifacts.forInput_eq_ok h
    have hlead := Path.lead_withFileName hname (Artifacts.assembly_isFileName hname hstem)
    rw [hp, hassembly]
    refine (Artifacts.forInput_some hname hstem hother).mpr ⟨⟨?_, ?_⟩, rfl⟩
    · intro hsame
      exact hstart (Path.same_iff.mp hsame).1
    · intro hsame
      exact hstart ((Path.same_iff.mp hsame).1.trans hlead)

/-- The input and the executable have one name, in different directories. -/
theorem nested_apart :
    nested.leadsTo ⟨"bin/prog"⟩ ≠ nested.leadsTo ⟨"src/./prog"⟩ ∧
    nested.leadsTo ⟨"bin/prog"⟩ ≠ nested.leadsTo ⟨"src/prog.s"⟩ ∧
    nested.leadsTo ⟨"src/prog.s"⟩ ≠ nested.leadsTo ⟨"src/./prog"⟩ := by
  have hok : forInput ⟨"src/./prog"⟩ (some ⟨"bin/prog"⟩) = .ok ⟨⟨"src/prog.s"⟩, ⟨"bin/prog"⟩⟩ := rfl
  have hforth : ∀ p, some (Path.mk "bin/prog") = some p → ['.', '.'] ∉ p.names := by
    intro p hp
    cases hp
    decide
  have hstart : ∀ p, some (Path.mk "bin/prog") = some p →
      p.parts.1 = (Path.mk "src/./prog").parts.1 := by
    intro p hp
    cases hp
    decide
  obtain ⟨hassembly, hexecutable⟩ :=
    (outputs_apart nested ⟨"src/./prog"⟩ (some ⟨"bin/prog"⟩) (by decide) hforth).1 _ hok
  exact ⟨(hexecutable hstart).1, (hexecutable hstart).2, hassembly⟩

/-- A program in the working directory, which is the root. -/
def workbench : World where
  entries := [(["prog.ir"], .file [] false)]
  cwd := []
  environment := []
  search := []
  journal := []

/-- **A build can overwrite its own input and its own assembly.** The executable is written where
the input is found when it is given as `./prog.ir`, and where the assembly is written when it is
given by the absolute path of the assembly. -/
theorem executable_over_input :
    (forInput ⟨"prog.ir"⟩ (some ⟨"./prog.ir"⟩) = .ok ⟨⟨"prog.s"⟩, ⟨"./prog.ir"⟩⟩ ∧
      workbench.find ⟨"prog.ir"⟩ = .ok (["prog.ir"], .file [] false) ∧
      workbench.writable ⟨"./prog.ir"⟩ = .ok ["prog.ir"] ∧
      workbench.leadsTo ⟨"./prog.ir"⟩ = workbench.leadsTo ⟨"prog.ir"⟩) ∧
    forInput ⟨"prog.ir"⟩ (some ⟨"/prog.s"⟩) = .ok ⟨⟨"prog.s"⟩, ⟨"/prog.s"⟩⟩ ∧
      workbench.writable ⟨"prog.s"⟩ = .ok ["prog.s"] ∧
      workbench.writable ⟨"/prog.s"⟩ = .ok ["prog.s"] ∧
      workbench.leadsTo ⟨"/prog.s"⟩ = workbench.leadsTo ⟨"prog.s"⟩ := by
  have hfound : workbench.find ⟨"prog.ir"⟩ = .ok (["prog.ir"], .file [] false) := rfl
  refine ⟨⟨rfl, hfound, rfl, ?_⟩, rfl, rfl, rfl, rfl⟩
  rw [find_leadsTo hfound]
  rfl

end World

end StackBackend
