import IpNuma.Driver.Ioctl

/-!
# `any_v2p`

The walk through the page tables of the process, as `virt2phys.h` of the driver and `virt2phys.c`
have it.  What the accessors of the kernel show of the tables is a `PageTables`, without any
assumption on the entries.

At `out` the function returns `paddr`, which is assigned only behind the last level.  So the walk is
sound, whatever is in `paddr` before, exactly if each entry that it reads and does not give up at
`bad` leads on: `anyV2p_sound_iff`.
-/

namespace IpNuma

/-- The page tables as the accessors show them.  An argument of `BitVec 64` is the pointer to an
entry, or the virtual address; 1 GiB and 2 MiB pages are the large entries. -/
structure PageTables where
  /-- `probe_kernel_address` succeeds. -/
  readable : BitVec 64 → Bool
  pgdOffset : BitVec 64 → BitVec 64
  pgdPresent : BitVec 64 → Bool
  p4dOffset : BitVec 64 → BitVec 64 → BitVec 64
  p4dNone : BitVec 64 → Bool
  pudOffset : BitVec 64 → BitVec 64 → BitVec 64
  pudPresent : BitVec 64 → Bool
  pudLarge : BitVec 64 → Bool
  pmdOffset : BitVec 64 → BitVec 64 → BitVec 64
  pmdPresent : BitVec 64 → Bool
  pmdLarge : BitVec 64 → Bool
  pteOffsetKernel : BitVec 64 → BitVec 64 → BitVec 64
  ptePresent : BitVec 64 → Bool
  pteVal : BitVec 64 → BitVec 64
  /-- `PHYSICAL_PAGE_MASK`. -/
  physicalPageMask : BitVec 64
  mask_low : physicalPageMask &&& 0xfff#64 = 0

namespace PageTables

variable (K : PageTables)

/-- `bad_address`. -/
def badAddress (p : BitVec 64) : Bool := !K.readable p

/-! ### The function -/

/-- `any_v2p` from the last level on, `paddr` being what the variable holds. -/
def fromPte (paddr vaddr pte : BitVec 64) : Option (BitVec 64) :=
  if K.badAddress pte then some 0
  else if !K.ptePresent pte then some paddr
  -- `PAGE_SIZE` is 4096
  else some ((K.pteVal pte &&& K.physicalPageMask) ||| (vaddr &&& 0xfff#64))

def fromPmd (paddr vaddr pmd : BitVec 64) : Option (BitVec 64) :=
  if K.badAddress pmd then some 0
  else if !K.pmdPresent pmd || K.pmdLarge pmd then some paddr
  else K.fromPte paddr vaddr (K.pteOffsetKernel pmd vaddr)

def fromPud (paddr vaddr pud : BitVec 64) : Option (BitVec 64) :=
  if K.badAddress pud then some 0
  else if !K.pudPresent pud || K.pudLarge pud then some paddr
  else K.fromPmd paddr vaddr (K.pmdOffset pud vaddr)

/-- From a kernel version on there is a level in between, whose entry is read without
`bad_address`. -/
def fromPgd (p4dLevel : Bool) (paddr vaddr pgd : BitVec 64) : Option (BitVec 64) :=
  if p4dLevel then
    let p4d := K.p4dOffset pgd vaddr
    if !K.readable p4d then none
    else if K.p4dNone p4d then some 0
    else K.fromPud paddr vaddr (K.pudOffset p4d vaddr)
  else K.fromPud paddr vaddr (K.pudOffset pgd vaddr)

/-- `any_v2p`.  The result is `none` if a read faults. -/
def anyV2p (p4dLevel : Bool) (paddr vaddr : BitVec 64) : Option (BitVec 64) :=
  let pgd := K.pgdOffset vaddr
  if K.badAddress pgd then some 0
  else if !K.pgdPresent pgd then some paddr
  else K.fromPgd p4dLevel paddr vaddr pgd

/-! ### The tables -/

section Levels

variable (p4dLevel : Bool) (v : BitVec 64)

/-- The entries on the way to `v`. -/
def pgd : BitVec 64 := K.pgdOffset v

def p4d : BitVec 64 := K.p4dOffset (K.pgd v) v

def pud : BitVec 64 := K.pudOffset (if p4dLevel then K.p4d v else K.pgd v) v

def pmd : BitVec 64 := K.pmdOffset (K.pud p4dLevel v) v

def pte : BitVec 64 := K.pteOffsetKernel (K.pmd p4dLevel v) v

/-- There is a table of this level for `v`. -/
def HasPud : Prop := K.readable (K.pgd v) = true ∧ K.pgdPresent (K.pgd v) = true ∧
  (p4dLevel = true → K.readable (K.p4d v) = true ∧ K.p4dNone (K.p4d v) = false)

def HasPmd : Prop := K.HasPud p4dLevel v ∧ K.readable (K.pud p4dLevel v) = true ∧
  K.pudPresent (K.pud p4dLevel v) = true ∧ K.pudLarge (K.pud p4dLevel v) = false

def HasPte : Prop := K.HasPmd p4dLevel v ∧ K.readable (K.pmd p4dLevel v) = true ∧
  K.pmdPresent (K.pmd p4dLevel v) = true ∧ K.pmdLarge (K.pmd p4dLevel v) = false

/-- A present 4 KiB page maps `v` to `p`. -/
structure Maps (p : BitVec 64) : Prop where
  table : K.HasPte p4dLevel v
  readable : K.readable (K.pte p4dLevel v) = true
  present : K.ptePresent (K.pte p4dLevel v) = true
  /-- The frame and the offset in the page. -/
  addr : p = (K.pteVal (K.pte p4dLevel v) &&& K.physicalPageMask) +
    BitVec.ofNat 64 (v.toNat % 4096)

/-- A result that may be handed out. -/
def Sound (r : Option (BitVec 64)) : Prop := ∃ p, r = some p ∧ (p = 0 ∨ K.Maps p4dLevel v p)

/-- Every entry on the way is unreadable, or present and not large; that of the level in between is
readable. -/
structure Walkable : Prop where
  pgd : K.readable (K.pgd v) = true → K.pgdPresent (K.pgd v) = true
  p4d : K.readable (K.pgd v) = true → p4dLevel = true → K.readable (K.p4d v) = true
  pud : K.HasPud p4dLevel v → K.readable (K.pud p4dLevel v) = true →
    K.pudPresent (K.pud p4dLevel v) = true ∧ K.pudLarge (K.pud p4dLevel v) = false
  pmd : K.HasPmd p4dLevel v → K.readable (K.pmd p4dLevel v) = true →
    K.pmdPresent (K.pmd p4dLevel v) = true ∧ K.pmdLarge (K.pmd p4dLevel v) = false
  pte : K.HasPte p4dLevel v → K.readable (K.pte p4dLevel v) = true →
    K.ptePresent (K.pte p4dLevel v) = true

end Levels

/-! ### Level by level -/

variable {K} {p4dLevel : Bool} {v : BitVec 64}

theorem sound_zero : K.Sound p4dLevel v (some 0) := ⟨0, rfl, .inl rfl⟩

/-- The frame and the offset do not overlap. -/
theorem or_eq_add (x : BitVec 64) : (x &&& K.physicalPageMask) ||| (v &&& 0xfff#64) =
    (x &&& K.physicalPageMask) + BitVec.ofNat 64 (v.toNat % 4096) := by
  have hoffset : v &&& 0xfff#64 = BitVec.ofNat 64 (v.toNat % 4096) := by
    apply BitVec.eq_of_toNat_eq
    rw [BitVec.toNat_and]
    change v.toNat &&& 2 ^ 12 - 1 = _
    rw [Nat.and_two_pow_sub_one_eq_mod, BitVec.toNat_ofNat]
    omega
  have hdisjoint : (x &&& K.physicalPageMask) &&& (v &&& 0xfff#64) = 0 := by
    rw [BitVec.and_comm v, ← BitVec.and_assoc, BitVec.and_assoc x, K.mask_low]
    simp
  rw [← hoffset, BitVec.add_eq_or_of_and_eq_zero _ _ hdisjoint]

/-- One level: an entry that cannot be read is given up, one that ends the walk leaves `paddr` as it
is.  If there is no page behind such an entry, the results are sound exactly if it is not met. -/
theorem sound_level {read stop : Bool} {next : BitVec 64 → Option (BitVec 64)} {Q : Prop}
    (hmaps : ∀ p, K.Maps p4dLevel v p → stop = false)
    (hnext : read = true → stop = false → ((∀ paddr, K.Sound p4dLevel v (next paddr)) ↔ Q)) :
    (∀ paddr, K.Sound p4dLevel v
        (if !read then some 0 else if stop then some paddr else next paddr)) ↔
      (read = true → stop = false) ∧ (read = true → stop = false → Q) := by
  cases read with
  | false =>
    exact ⟨fun _ => ⟨fun h => absurd h Bool.false_ne_true, fun h => absurd h Bool.false_ne_true⟩,
      fun _ _ => sound_zero⟩
  | true =>
    cases stop with
    | false => exact (hnext rfl rfl).trans ⟨fun hq => ⟨fun _ => rfl, fun _ _ => hq⟩,
        fun h => h.2 rfl rfl⟩
    | true =>
      refine ⟨fun hall => ?_, fun h => absurd (h.1 rfl) (Ne.symm Bool.false_ne_true)⟩
      -- what the variable happens to hold is no address of a page
      obtain ⟨p, hp, hzero | hp'⟩ := hall 1
      · have hone : (1 : BitVec 64) = 0 := (Option.some.inj hp).trans hzero
        exact absurd hone (by decide)
      · exact absurd (hmaps p hp') (Ne.symm Bool.false_ne_true)

theorem stop_iff {present large : Bool} :
    (!present || large) = false ↔ present = true ∧ large = false := by
  cases present <;> cases large <;> decide

theorem sound_fromPte (h : K.HasPte p4dLevel v) :
    (∀ paddr, K.Sound p4dLevel v (K.fromPte paddr v (K.pte p4dLevel v))) ↔
      (K.readable (K.pte p4dLevel v) = true → K.ptePresent (K.pte p4dLevel v) = true) := by
  refine (sound_level (Q := True) (fun p hp => by rw [hp.present]; rfl)
    fun hread hstop => ⟨fun _ => trivial, fun _ _ => ?_⟩).trans ?_
  · exact ⟨_, rfl, .inr ⟨h, hread, by simpa using hstop, or_eq_add _⟩⟩
  · simp

theorem sound_fromPmd (h : K.HasPmd p4dLevel v) :
    (∀ paddr, K.Sound p4dLevel v (K.fromPmd paddr v (K.pmd p4dLevel v))) ↔
      (K.readable (K.pmd p4dLevel v) = true →
          K.pmdPresent (K.pmd p4dLevel v) = true ∧ K.pmdLarge (K.pmd p4dLevel v) = false) ∧
        (K.HasPte p4dLevel v → K.readable (K.pte p4dLevel v) = true →
          K.ptePresent (K.pte p4dLevel v) = true) := by
  refine (sound_level (fun p hp => stop_iff.2 hp.table.2.2) fun hread hstop =>
    sound_fromPte ⟨h, hread, stop_iff.1 hstop⟩).trans ?_
  rw [stop_iff]
  exact and_congr_right fun _ =>
    ⟨fun hq htable => hq htable.2.1 htable.2.2, fun hq hread hstop => hq ⟨h, hread, hstop⟩⟩

theorem sound_fromPud (h : K.HasPud p4dLevel v) :
    (∀ paddr, K.Sound p4dLevel v (K.fromPud paddr v (K.pud p4dLevel v))) ↔
      (K.readable (K.pud p4dLevel v) = true →
          K.pudPresent (K.pud p4dLevel v) = true ∧ K.pudLarge (K.pud p4dLevel v) = false) ∧
        (K.HasPmd p4dLevel v → K.readable (K.pmd p4dLevel v) = true →
          K.pmdPresent (K.pmd p4dLevel v) = true ∧ K.pmdLarge (K.pmd p4dLevel v) = false) ∧
        (K.HasPte p4dLevel v → K.readable (K.pte p4dLevel v) = true →
          K.ptePresent (K.pte p4dLevel v) = true) := by
  refine (sound_level (fun p hp => stop_iff.2 hp.table.1.2.2) fun hread hstop =>
    sound_fromPmd ⟨h, hread, stop_iff.1 hstop⟩).trans ?_
  rw [stop_iff]
  refine and_congr_right fun _ => ⟨fun hq => ⟨fun htable => ?_, fun htable => ?_⟩,
    fun hq hread hstop => ⟨hq.1 ⟨h, hread, hstop⟩, hq.2⟩⟩
  · exact (hq htable.2.1 htable.2.2).1
  · exact (hq htable.1.2.1 htable.1.2.2).2 htable

theorem sound_fromPgd (hread : K.readable (K.pgd v) = true)
    (hpres : K.pgdPresent (K.pgd v) = true) :
    (∀ paddr, K.Sound p4dLevel v (K.fromPgd p4dLevel paddr v (K.pgd v))) ↔
      (p4dLevel = true → K.readable (K.p4d v) = true) ∧
        (K.HasPud p4dLevel v → ∀ paddr, K.Sound p4dLevel v
          (K.fromPud paddr v (K.pud p4dLevel v))) := by
  unfold fromPgd
  cases p4dLevel with
  | false =>
    have htable : K.HasPud false v := ⟨hread, hpres, fun h => absurd h Bool.false_ne_true⟩
    exact ⟨fun hall => ⟨fun h => absurd h Bool.false_ne_true, fun _ => hall⟩,
      fun hboth => hboth.2 htable⟩
  | true =>
    by_cases hp4d : K.readable (K.p4d v) = true
    · by_cases hnone : K.p4dNone (K.p4d v) = true
      · have hstep : ∀ paddr, (if !K.readable (K.p4d v) then none
            else if K.p4dNone (K.p4d v) then some 0
            else K.fromPud paddr v (K.pudOffset (K.p4d v) v)) = some 0 := by
          intro paddr
          rw [hp4d, hnone]
          rfl
        refine ⟨fun _ => ⟨fun _ => hp4d, fun htable => ?_⟩, fun _ paddr => ?_⟩
        · exact absurd (hnone.symm.trans (htable.2.2 rfl).2) (Ne.symm Bool.false_ne_true)
        · exact (hstep paddr).symm ▸ sound_zero
      · have hnone' := Bool.eq_false_iff.2 hnone
        have htable : K.HasPud true v := ⟨hread, hpres, fun _ => ⟨hp4d, hnone'⟩⟩
        have hstep : ∀ paddr, (if !K.readable (K.p4d v) then none
            else if K.p4dNone (K.p4d v) then some 0
            else K.fromPud paddr v (K.pudOffset (K.p4d v) v)) =
              K.fromPud paddr v (K.pud true v) := by
          intro paddr
          rw [hp4d, hnone']
          rfl
        refine ⟨fun hall => ⟨fun _ => hp4d, fun _ paddr => ?_⟩, fun hboth paddr => ?_⟩
        · exact hstep paddr ▸ hall paddr
        · exact (hstep paddr).symm ▸ hboth.2 htable paddr
    · refine ⟨fun hall => ?_, fun hboth => absurd (hboth.1 rfl) hp4d⟩
      -- the read faults
      obtain ⟨p, hp, -⟩ := hall 0
      have hfault : (if !K.readable (K.p4d v) then none
          else if K.p4dNone (K.p4d v) then some 0
          else K.fromPud 0 v (K.pudOffset (K.p4d v) v)) = none := by
        rw [Bool.eq_false_iff.2 hp4d]
        rfl
      exact absurd (hfault.symm.trans hp) (by simp)

theorem sound_anyV2p : (∀ paddr, K.Sound p4dLevel v (K.anyV2p p4dLevel paddr v)) ↔
    (K.readable (K.pgd v) = true → K.pgdPresent (K.pgd v) = true) ∧
      (K.readable (K.pgd v) = true → K.pgdPresent (K.pgd v) = true →
        (p4dLevel = true → K.readable (K.p4d v) = true) ∧
          (K.HasPud p4dLevel v → ∀ paddr, K.Sound p4dLevel v
            (K.fromPud paddr v (K.pud p4dLevel v)))) := by
  refine (sound_level (fun p hp => ?_) fun hread hstop =>
    sound_fromPgd hread (by simpa [pgd] using hstop)).trans ?_
  · have hpres : K.pgdPresent (K.pgd v) = true := hp.table.1.1.2.1
    change (!K.pgdPresent (K.pgd v)) = false
    rw [hpres]
    rfl
  · have hpres : (!K.pgdPresent (K.pgd v)) = false ↔ K.pgdPresent (K.pgd v) = true := by simp
    rw [← hpres]
    exact Iff.rfl

theorem walkable_of_sound (h : ∀ paddr, K.Sound p4dLevel v (K.anyV2p p4dLevel paddr v)) :
    K.Walkable p4dLevel v := by
  obtain ⟨hpgd, hnext⟩ := sound_anyV2p.1 h
  have hpud := fun htable : K.HasPud p4dLevel v =>
    (sound_fromPud htable).1 ((hnext htable.1 htable.2.1).2 htable)
  exact ⟨hpgd, fun hread => (hnext hread (hpgd hread)).1, fun htable => (hpud htable).1,
    fun htable => (hpud htable.1).2.1 htable, fun htable => (hpud htable.1.1).2.2 htable⟩

theorem sound_of_walkable (h : K.Walkable p4dLevel v) (paddr : BitVec 64) :
    K.Sound p4dLevel v (K.anyV2p p4dLevel paddr v) := by
  refine sound_anyV2p.2 ⟨h.pgd, fun hread _ => ⟨h.p4d hread, fun htable => ?_⟩⟩ paddr
  exact (sound_fromPud htable).2 ⟨h.pud htable, h.pmd, h.pte⟩

/-- **The walk is sound** whatever `paddr` holds before, that is, it returns 0 or the address of a
present 4 KiB page, exactly if every entry that it meets is unreadable, or present and not large. -/
theorem anyV2p_sound_iff (K : PageTables) (p4dLevel : Bool) (v : BitVec 64) :
    (∀ paddr, K.Sound p4dLevel v (K.anyV2p p4dLevel paddr v)) ↔ K.Walkable p4dLevel v :=
  ⟨walkable_of_sound, sound_of_walkable⟩

theorem longAt_setLong (ptr : ℕ → BitVec 8) (x : BitVec 64) :
    Board.longAt (Board.setLong ptr x) = x := by
  refine eq_of_octet (n := 8) _ _ fun j hj => ?_
  change octet (lanes (octet x 7) (octet x 6) (octet x 5) (octet x 4) (octet x 3) (octet x 2)
    (octet x 1) (octet x 0)) j = octet x j
  unfold lanes
  interval_cases j <;> simp

/-- What `IPNUMA_IOCTL_GETPADDR` leaves in the buffer is the result of the walk. -/
theorem getPaddr_sound {B : Board} {host : Host} {s : B.State} {ptr : ℕ → BitVec 8}
    {paddr : BitVec 64} (h : K.Walkable p4dLevel (Board.longAt ptr))
    (hhost : some (host.anyV2p (Board.longAt ptr)) =
      K.anyV2p p4dLevel paddr (Board.longAt ptr)) :
    K.Sound p4dLevel (Board.longAt ptr)
      (some (Board.longAt (B.ioctl host s .getPaddr ptr).ptr)) := by
  have hptr : Board.longAt (B.ioctl host s .getPaddr ptr).ptr =
      host.anyV2p (Board.longAt ptr) := longAt_setLong ptr _
  rw [hptr, hhost]
  exact sound_of_walkable h paddr

/-- Tables without any entry. -/
def emptyTables : PageTables where
  readable _ := true
  pgdOffset _ := 0xffff888000001000#64
  pgdPresent _ := false
  p4dOffset pgd _ := pgd
  p4dNone _ := true
  pudOffset p4d _ := p4d
  pudPresent _ := false
  pudLarge _ := false
  pmdOffset pud _ := pud
  pmdPresent _ := false
  pmdLarge _ := false
  pteOffsetKernel pmd _ := pmd
  ptePresent _ := false
  pteVal _ := 0
  physicalPageMask := 0x000ffffffffff000#64
  mask_low := by decide

/-- What the variable held is returned for an address that is not mapped. -/
theorem anyV2p_unassigned :
    emptyTables.anyV2p false 0xdeadb000#64 0x7f0012345678#64 = some 0xdeadb000#64 ∧
      ¬ ∀ (K : PageTables) (p4dLevel : Bool) (paddr v : BitVec 64),
        K.Sound p4dLevel v (K.anyV2p p4dLevel paddr v) := by
  refine ⟨rfl, fun hall => ?_⟩
  obtain ⟨p, hp, hzero | hmaps⟩ := hall emptyTables false 0xdeadb000#64 0x7f0012345678#64
  · have hpaddr : 0xdeadb000#64 = 0#64 := (Option.some.inj hp).trans hzero
    exact absurd hpaddr (by decide)
  · exact absurd hmaps.present (by decide)

end PageTables

end IpNuma
