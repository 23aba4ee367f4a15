import StackBackend.Placement

/-! Pending values lie where their depth says.

Locations are chosen by looking at the top of the stack only, and yet the whole stack has one
shape: the value at depth `i` is in register `i` while there are registers, and in slot
`i - registers` above them. `Canonical` states this shape and that the frame has room for it. From
it follow that no two pending values share a location and that none of them is in memory that has
a name or in a register with another use. -/
namespace StackBackend.Placement

/-- The location of the value at depth `i`. -/
def location (registers : UInt8) (i : Nat) : Operand :=
  if i < registers.toNat then .reg ⟨.ofNat i⟩ else .slot (.ofNat (i - registers.toNat))

theorem location_of_lt {registers : UInt8} {i : Nat} (h : i < registers.toNat) :
    location registers i = .reg ⟨.ofNat i⟩ := if_pos h

theorem location_of_le {registers : UInt8} {i : Nat} (h : registers.toNat ≤ i) :
    location registers i = .slot (.ofNat (i - registers.toNat)) := if_neg (Nat.not_lt.mpr h)

/-- The locations of the values below depth `n`, the newest first. -/
def layout (registers : UInt8) : Nat → List Operand
  | 0 => []
  | n + 1 => location registers n :: layout registers n

theorem length_layout (registers : UInt8) (n : Nat) : (layout registers n).length = n := by
  induction n with
  | zero => rfl
  | succ n ih => simp only [layout, List.length_cons, ih]

theorem mem_layout {registers : UInt8} {n : Nat} {o : Operand} :
    o ∈ layout registers n ↔ ∃ i, i < n ∧ o = location registers i := by
  induction n with
  | zero => simp [layout]
  | succ n ih =>
    simp only [layout, List.mem_cons, ih]
    constructor
    · rintro (rfl | ⟨i, hi, rfl⟩)
      · exact ⟨n, by omega, rfl⟩
      · exact ⟨i, by omega, rfl⟩
    · rintro ⟨i, hi, rfl⟩
      by_cases hn : i = n
      · exact .inl (by rw [hn])
      · exact .inr ⟨i, by omega, rfl⟩

/-- Different depths have different locations, as far as slots are numbered. -/
theorem location_inj {registers : UInt8} {i j : Nat} (hi : i < registers.toNat + 4294967296)
    (hj : j < registers.toNat + 4294967296) (h : location registers i = location registers j) :
    i = j := by
  have hr : registers.toNat < 256 := registers.toNat_lt
  unfold location at h
  split at h <;> split at h
  next hi' hj' =>
    injection h with h
    injection h with h
    have := congrArg UInt8.toNat h
    simp only [UInt8.toNat_ofNat'] at this
    omega
  next => cases h
  next => cases h
  next hi' hj' =>
    injection h with h
    have := congrArg UInt32.toNat h
    simp only [UInt32.toNat_ofNat'] at this
    omega

/-- The shape of a placement that grew from the empty one. -/
structure Canonical (p : Placement) : Prop where
  one_le : 1 ≤ p.registers.toNat
  le_four : p.registers.toNat ≤ 4
  pending : p.pending = layout p.registers p.depth
  /-- The frame has room for every value that is not in a register. -/
  room : p.depth ≤ p.registers.toNat + p.frame.toNat

theorem toNat_usable_eq (requested : UInt8) :
    (usable requested).toNat = max 1 (min requested.toNat 4) := by
  have h₁ : (1 : UInt8).toNat = 1 := rfl
  have h₄ : Reg.maxAllocatable.toNat = 4 := rfl
  unfold usable
  simp only [UInt8.lt_iff_toNat_lt, h₁, h₄]
  split
  next =>
    rw [h₁]
    omega
  next =>
    split
    next =>
      rw [h₄]
      omega
    next => omega

theorem toNat_usable (requested : UInt8) :
    1 ≤ (usable requested).toNat ∧ (usable requested).toNat ≤ 4 := by
  rw [toNat_usable_eq]
  omega

theorem canonical_empty (requested : UInt8) : (empty requested).Canonical :=
  ⟨(toNat_usable requested).1, (toNat_usable requested).2, rfl, Nat.zero_le _⟩

namespace Canonical

variable {p q : Placement} {o : Operand}

theorem depth_lt (h : p.Canonical) : p.depth < p.registers.toNat + 4294967296 := by
  have := h.room
  have := p.frame.toNat_lt
  omega

/-! ### What lies where -/

theorem mem_pending (h : p.Canonical) :
    o ∈ p.pending ↔ ∃ i, i < p.depth ∧ o = location p.registers i := by
  rw [h.pending, mem_layout]

end Canonical

/-- A location that a placement may hand out: one of its registers or a slot of its frame. -/
def Within (p : Placement) : Operand → Prop
  | .reg r => r.index.toNat < p.registers.toNat
  | .slot k => k.toNat < p.frame.toNat
  | .mem _ | .imm _ => False

theorem location_within {p : Placement} {i : Nat} (hi : i < p.registers.toNat + p.frame.toNat) :
    p.Within (location p.registers i) := by
  have hr : p.registers.toNat < 256 := p.registers.toNat_lt
  have hf : p.frame.toNat < 4294967296 := p.frame.toNat_lt
  unfold location
  split
  next h =>
    show (UInt8.ofNat i).toNat < p.registers.toNat
    rw [UInt8.toNat_ofNat']
    omega
  next h =>
    show (UInt32.ofNat (i - p.registers.toNat)).toNat < p.frame.toNat
    rw [UInt32.toNat_ofNat']
    omega

theorem Canonical.within {p : Placement} {o : Operand} (h : p.Canonical) (ho : o ∈ p.pending) :
    p.Within o := by
  obtain ⟨i, hi, rfl⟩ := h.mem_pending.mp ho
  have hroom := h.room
  exact location_within (by omega)

theorem mem_live {p : Placement} {r : Reg} : r ∈ p.live ↔ .reg r ∈ p.pending := by
  simp only [live, stack, List.mem_filterMap, List.mem_reverse]
  constructor
  · rintro ⟨o, ho, hr⟩
    cases o with
    | reg r' => cases hr; exact ho
    | slot k => cases hr
    | mem x => cases hr
    | imm v => cases hr
  · exact fun h => ⟨_, h, rfl⟩

/-- Pending values are in the first four registers only. -/
theorem Canonical.live_lt {p : Placement} {r : Reg} (h : p.Canonical) (hr : r ∈ p.live) :
    r.index.toNat < 4 := by
  have hlt : r.index.toNat < p.registers.toNat := h.within (mem_live.mp hr)
  have hfour := h.le_four
  omega

/-! ### Choosing a location -/

/-- `q` is `p` with a frame that is no smaller. -/
structure Grown (p q : Placement) : Prop where
  pending : q.pending = p.pending
  globals : q.globals = p.globals
  registers : q.registers = p.registers
  frame : p.frame.toNat ≤ q.frame.toNat

theorem toNat_max (a b : UInt32) : (max a b).toNat = max a.toNat b.toNat := by
  show (if a ≤ b then b else a).toNat = _
  simp only [UInt32.le_iff_toNat_le]
  split <;> omega

theorem cover_slot {p q : Placement} {k : UInt32} (h : p.cover (.slot k) = .ok q) :
    Grown p q ∧ q.frame.toNat = max p.frame.toNat (k.toNat + 1) := by
  simp only [cover] at h
  split at h
  next => cases h
  next hk =>
    cases h
    have hlast : k.toNat ≠ 4294967295 := fun he => hk (UInt32.toNat_inj.mp he)
    have hlt := k.toNat_lt
    have hnext : (k + 1).toNat = k.toNat + 1 := by
      rw [UInt32.toNat_add]
      show (k.toNat + 1) % 4294967296 = _
      omega
    have hframe : (max p.frame (k + 1)).toNat = max p.frame.toNat (k.toNat + 1) := by
      rw [toNat_max, hnext]
    refine ⟨⟨rfl, rfl, rfl, ?_⟩, hframe⟩
    show p.frame.toNat ≤ (max p.frame (k + 1)).toNat
    omega

/-- The frame covers every slot that is handed out, up to the last one that can be counted. -/
theorem cover_eq_ok {p q : Placement} {o : Operand} (h : p.cover o = .ok q) :
    Grown p q ∧ ∀ k, o = .slot k → k.toNat < q.frame.toNat := by
  cases o with
  | slot k =>
    obtain ⟨hg, hframe⟩ := cover_slot h
    refine ⟨hg, ?_⟩
    intro k' hk
    cases hk
    omega
  | reg r => cases h; exact ⟨⟨rfl, rfl, rfl, Nat.le_refl _⟩, by simp⟩
  | mem x => cases h; exact ⟨⟨rfl, rfl, rfl, Nat.le_refl _⟩, by simp⟩
  | imm v => cases h; exact ⟨⟨rfl, rfl, rfl, Nat.le_refl _⟩, by simp⟩

theorem allocate_eq_ok {p q : Placement} {o : Operand} :
    p.allocate = .ok (o, q) ↔ p.next = .ok o ∧ p.cover o = .ok q := by
  unfold allocate
  cases hn : p.next with
  | error e => simp [bind, Except.bind]
  | ok o' =>
    cases hc : p.cover o' with
    | error e =>
      simp only [bind, Except.bind, hc, reduceCtorEq, false_iff]
      rintro ⟨⟨⟩, hq⟩
      rw [hc] at hq
      cases hq
    | ok q' =>
      simp only [bind, Except.bind, hc, pure, Except.pure, Except.ok.injEq, Prod.mk.injEq]
      constructor
      · rintro ⟨rfl, rfl⟩
        exact ⟨rfl, hc⟩
      · rintro ⟨rfl, hq⟩
        rw [hc] at hq
        cases hq
        exact ⟨rfl, rfl⟩

/-- Above the location of one depth comes the location of the next. -/
theorem next_of_top {p : Placement} {n : Nat} {rest : List Operand}
    (hp : p.pending = location p.registers n :: rest) (hfour : p.registers.toNat ≤ 4)
    (hn : n + 1 < p.registers.toNat + 4294967296) :
    p.next = .ok (location p.registers (n + 1)) := by
  by_cases hlt : n < p.registers.toNat
  · -- From a register: to the next one, or to the first slot.
    rw [location_of_lt hlt] at hp
    have hindex : (UInt8.ofNat n).toNat = n := by
      rw [UInt8.toNat_ofNat']
      omega
    have hnext : (UInt8.ofNat n + 1).toNat = n + 1 := by
      rw [UInt8.toNat_add, hindex]
      show (n + 1) % 256 = n + 1
      omega
    have hlast : UInt8.ofNat n ≠ 255 := by
      intro he
      rw [he] at hindex
      have : (255 : UInt8).toNat = 255 := rfl
      omega
    simp only [Placement.next, hp, hlast, if_false, UInt8.lt_iff_toNat_lt, hnext]
    split
    next hr =>
      rw [location_of_lt hr]
      congr 3
      apply UInt8.toNat_inj.mp
      rw [hnext, UInt8.toNat_ofNat']
      omega
    next hr =>
      rw [location_of_le (by omega)]
      congr 2
      apply UInt32.toNat_inj.mp
      rw [UInt32.toNat_ofNat']
      show 0 = _
      omega
  · -- From a slot: to the next one.
    rw [location_of_le (by omega)] at hp
    have hindex : (UInt32.ofNat (n - p.registers.toNat)).toNat = n - p.registers.toNat := by
      rw [UInt32.toNat_ofNat']
      omega
    have hlast : UInt32.ofNat (n - p.registers.toNat) ≠ lastSlot := by
      intro he
      rw [he] at hindex
      have : lastSlot.toNat = 4294967295 := rfl
      omega
    simp only [Placement.next, hp, hlast, if_false]
    rw [location_of_le (by omega)]
    congr 2
    apply UInt32.toNat_inj.mp
    rw [UInt32.toNat_add, hindex, UInt32.toNat_ofNat']
    show (n - p.registers.toNat + 1) % 4294967296 = _
    omega

theorem allocate_grown {p q : Placement} {o : Operand} (h : p.allocate = .ok (o, q)) : Grown p q :=
  (cover_eq_ok (allocate_eq_ok.mp h).2).1

namespace Canonical

variable {p q : Placement} {o : Operand}

theorem grown (h : p.Canonical) (hg : Grown p q) : q.Canonical := by
  have hdepth : q.depth = p.depth := congrArg List.length hg.pending
  have hroom := h.room
  have hframe := hg.frame
  refine ⟨?_, ?_, ?_, ?_⟩
  · rw [hg.registers]
    exact h.one_le
  · rw [hg.registers]
    exact h.le_four
  · rw [hg.pending, hg.registers, hdepth]
    exact h.pending
  · rw [hg.registers, hdepth]
    omega

theorem push (h : p.Canonical) (hroom : p.depth < p.registers.toNat + p.frame.toNat) :
    (p.push (location p.registers p.depth)).Canonical := by
  refine ⟨h.one_le, h.le_four, ?_, hroom⟩
  show _ :: p.pending = layout p.registers (p.depth + 1)
  rw [h.pending]
  simp only [layout, depth]

/-- The location that the top of the stack leads to is the one of the next depth. -/
theorem next (h : p.Canonical) : p.next = .ok (location p.registers p.depth) := by
  have hpending := h.pending
  have hlt := h.depth_lt
  cases hd : p.depth with
  | zero =>
    rw [hd] at hpending
    rw [location_of_lt (by have := h.one_le; omega)]
    simp only [Placement.next, hpending]
    rfl
  | succ n =>
    rw [hd] at hpending hlt
    exact next_of_top hpending h.le_four hlt

/-- A canonical placement hands out the location of its depth, and remains canonical. -/
theorem allocate (h : p.Canonical) (ha : p.allocate = .ok (o, q)) :
    o = location p.registers p.depth ∧ q.Canonical ∧ (q.push o).Canonical := by
  obtain ⟨hnext, hcover⟩ := allocate_eq_ok.mp ha
  rw [h.next] at hnext
  cases hnext
  obtain ⟨hg, hslot⟩ := cover_eq_ok hcover
  have hq := h.grown hg
  have hdepth : q.depth = p.depth := congrArg List.length hg.pending
  refine ⟨rfl, hq, ?_⟩
  rw [← hg.registers, ← hdepth]
  apply hq.push
  rw [hdepth, hg.registers]
  by_cases hd : p.depth < p.registers.toNat
  · omega
  · have hk := hslot _ (location_of_le (by omega))
    have hlt := h.depth_lt
    rw [UInt32.toNat_ofNat'] at hk
    omega

/-- There is a location for one more value until the slots cannot be counted any more. -/
theorem allocate_of_lt (h : p.Canonical) (hd : p.depth < p.registers.toNat + 4294967295) :
    ∃ o q, p.allocate = .ok (o, q) := by
  suffices hcover : ∃ q, p.cover (location p.registers p.depth) = .ok q by
    obtain ⟨q, hq⟩ := hcover
    exact ⟨_, q, allocate_eq_ok.mpr ⟨h.next, hq⟩⟩
  by_cases hlt : p.depth < p.registers.toNat
  · rw [location_of_lt hlt]
    exact ⟨p, rfl⟩
  · rw [location_of_le (by omega)]
    have hlast : UInt32.ofNat (p.depth - p.registers.toNat) ≠ lastSlot := by
      intro he
      have := congrArg UInt32.toNat he
      rw [UInt32.toNat_ofNat'] at this
      have hl : lastSlot.toNat = 4294967295 := rfl
      omega
    simp only [cover, hlast, if_false]
    exact ⟨_, rfl⟩

/-! ### Taking values away, naming globals -/

theorem pop {rest : List Operand} (h : p.Canonical) (hp : p.pending = o :: rest) :
    ({p with pending := rest} : Placement).Canonical := by
  have hpending := h.pending
  have hroom := h.room
  have hdepth : p.depth = rest.length + 1 := by
    rw [depth, hp, List.length_cons]
  rw [hp, hdepth] at hpending
  refine ⟨h.one_le, h.le_four, (List.cons.inj hpending).2, ?_⟩
  show rest.length ≤ p.registers.toNat + p.frame.toNat
  omega

/-- The newest value shares its location with none of the others. -/
theorem head_not_mem {rest : List Operand} (h : p.Canonical) (hp : p.pending = o :: rest) :
    o ∉ rest := by
  have hdepth : p.depth = rest.length + 1 := by
    rw [depth, hp, List.length_cons]
  have hpending := h.pending
  rw [hp, hdepth] at hpending
  obtain ⟨rfl, hrest⟩ := List.cons.inj hpending
  rw [hrest, length_layout]
  have hlt := h.depth_lt
  intro hm
  obtain ⟨i, hi, he⟩ := mem_layout.mp hm
  have := location_inj (by omega) (by omega) he
  omega

theorem addGlobal (h : p.Canonical) (x : String) : (p.addGlobal x).Canonical := by
  unfold Placement.addGlobal
  split
  · exact h
  · exact ⟨h.one_le, h.le_four, h.pending, h.room⟩

end Canonical

end StackBackend.Placement
