import IpNuma.Driver.Probe

/-!
# The resources of the driver

While the calls fit, at most one device is bound, and it has exactly what its probe acquired
(`Holds`).  The pointers are then its own, or they were cleared by a probe of another device that
failed at BAR0.  From such a state a call keeps the discipline exactly if it fits (`call_cases`), so
this goes for whole runs: `run_disciplined_iff`.  By `released_of_fits` nothing is left in the end.
-/

namespace IpNuma

open Clocked Ledger

namespace Driver

variable {D : Type*} [DecidableEq D]

/-- What a probe that succeeds acquires. -/
structure Acquired where
  ptr0 : ℕ
  ptr1 : ℕ
  virt : ℕ
  phys : ℕ
  /-- The IRQ is granted. -/
  irq : Bool
  ptr_ne : ptr0 ≠ ptr1

/-- The resources. -/
def Acquired.resources (a : Acquired) (d : D) : List (Resource D) :=
  [.enable d, .regions d, .map a.ptr0, .map a.ptr1, .dma d a.virt a.phys] ++
    (if a.irq then [.irq d] else []) ++ [.misc]

/-- The owners if only `d` has something. -/
def Acquired.owner (a : Acquired) (d : D) (r : Resource D) : Option D :=
  if r ∈ a.resources d then some d else none

/-- The pointers are those of `d`. -/
structure Points (s : Statics D) (d : D) (a : Acquired) : Prop where
  mmio0Ptr : s.mmio0Ptr = some a.ptr0
  mmio1Ptr : s.mmio1Ptr = some a.ptr1
  dmaVirtPtr : s.dmaVirtPtr = some a.virt
  dmaPhysPtr : s.dmaPhysPtr = a.phys
  pcidev : s.pcidev = some d

/-- The pointers are `NULL`. -/
structure Cleared (s : Statics D) : Prop where
  mmio0Ptr : s.mmio0Ptr = none
  mmio1Ptr : s.mmio1Ptr = none
  dmaVirtPtr : s.dmaVirtPtr = none

/-- The states while the calls fit. -/
inductive Holds (s : Driver D) : Prop
  | free (hbound : s.bound = ∅) (howner : s.owner = fun _ => none) : Holds s
  | held {d : D} {a : Acquired} (hbound : s.bound = {d}) (howner : s.owner = a.owner d)
      (hptr : Points s.statics d a ∨ Cleared s.statics) : Holds s

variable {s : Driver D} {d : D} {k : Answers}

theorem holds_start : Holds (start : Driver D) := .free rfl rfl

/-- The other devices are not at issue in a legal call. -/
theorem disciplined_of_legal {c : DriverCall D}
    (hlegal : Along Ledger.apply Legal s.owner (s.events c))
    (hsettled : ∀ r d, (s.step c).owner r = some d → d ∈ (s.step c).bound) :
    s.Disciplined c := by
  refine ⟨hlegal, hsettled, fun r d hne => run_of_ne (fun e he => ?_) hlegal r⟩
  obtain ⟨e', -, rfl⟩ := List.mem_map.1 he
  exact hne

/-! ### A probe -/

/-- No resource of the device `d` is taken. -/
structure Vacant (s : Driver D) (d : D) : Prop where
  bound : d ∉ s.bound
  enable : s.owner (.enable d) = none
  regions : s.owner (.regions d) = none

theorem Holds.vacant (h : Holds s) (hd : d ∉ s.bound) : Vacant s d := by
  cases h with
  | free hbound howner => exact ⟨hd, by rw [howner], by rw [howner]⟩
  | @held e a hbound howner hptr =>
    have hne : d ≠ e := fun h => hd (by rw [hbound, h]; exact Finset.mem_singleton_self e)
    refine ⟨hd, ?_, ?_⟩ <;> rw [howner] <;> exact if_neg (by simp [Acquired.resources, hne])

/-- What a probe can do. -/
inductive Probed (d : D) (k : Answers) (r : CallResult D) : Prop
  /-- Nothing was enabled, but it is disabled. -/
  | enable (hk : k.pciEnableDevice ≠ 0)
      (hev : r.events = [.release (.regions d), .release (.enable d)])
  /-- No regions were granted, but they are released. -/
  | regions (hk : k.pciRequestRegions ≠ 0) (hev : r.events =
      [.acquire (.enable d), .release (.regions d), .release (.enable d)])
  /-- BAR0 is not mapped, and all is released. -/
  | bar0 (hk : k.pciEnableDevice = 0 ∧ k.pciRequestRegions = 0 ∧ k.ioremap = none)
      (hev : r.events = [.acquire (.enable d), .acquire (.regions d), .release (.regions d),
        .release (.enable d)]) (hret : r.ret ≠ 0) (hptr : Cleared r.statics)
  /-- BAR0 is mapped and stays so. -/
  | left {ptr0 : ℕ} {es : List (Event (Resource D))} (h0 : k.ioremap = some ptr0)
      (hk : k.ioremapWc = none ∨ k.dmaAllocCoherent = none ∨ k.miscRegister ≠ 0)
      (hev : r.events =
        [.acquire (.enable d), .acquire (.regions d), .acquire (.map ptr0)] ++ es)
      (hes : ∀ e ∈ es, e ≠ .release (.map ptr0)) (hret : r.ret ≠ 0)
  | done {a : Acquired} (hk : k.pciEnableDevice = 0 ∧ k.pciRequestRegions = 0 ∧
        k.ioremap ≠ none ∧ k.ioremapWc ≠ none ∧ k.dmaAllocCoherent ≠ none ∧ k.miscRegister = 0)
      (hev : r.events = (a.resources d).map .acquire) (hret : r.ret = 0)
      (hptr : Points r.statics d a)

omit [DecidableEq D] in
theorem probed (s : Statics D) (d : D) {k : Answers}
    (hne : k.ioremapWc = none ∨ k.ioremap ≠ k.ioremapWc) : Probed d k (s.initOne d k) := by
  have hminus : (-1 : ℤ) ≠ 0 := by decide
  unfold Statics.initOne
  by_cases he : k.pciEnableDevice = 0
  swap
  · simp only [if_pos he]
    exact .enable he rfl
  simp only [if_neg (not_not.2 he)]
  by_cases hr : k.pciRequestRegions = 0
  swap
  · simp only [if_pos hr]
    exact .regions hr rfl
  simp only [if_neg (not_not.2 hr)]
  cases h0 : k.ioremap with
  | none => exact .bar0 ⟨he, hr, h0⟩ rfl hminus ⟨rfl, rfl, rfl⟩
  | some p =>
    cases h1 : k.ioremapWc with
    | none => exact .left h0 (.inl h1) rfl (by simp) hminus
    | some q =>
      cases h2 : k.dmaAllocCoherent with
      | none => exact .left h0 (.inr (.inl h2)) rfl (by simp) hminus
      | some x =>
        by_cases hm : k.miscRegister = 0
        · have hpq : p ≠ q := by
            rintro rfl
            rcases hne with hne | hne
            · rw [h1] at hne
              exact absurd hne (by simp)
            · exact hne (h0.trans h1.symm)
          simp only [if_neg (not_not.2 hm)]
          have hk : k.pciEnableDevice = 0 ∧ k.pciRequestRegions = 0 ∧ k.ioremap ≠ none ∧
              k.ioremapWc ≠ none ∧ k.dmaAllocCoherent ≠ none ∧ k.miscRegister = 0 :=
            ⟨he, hr, by simp [h0], by simp [h1], by simp [h2], hm⟩
          by_cases hi : k.requestIrq = 0
          · simp only [if_pos hi]
            exact .done (a := ⟨p, q, x.1, x.2, true, hpq⟩) hk rfl rfl ⟨rfl, rfl, rfl, rfl, rfl⟩
          · simp only [if_neg hi]
            exact .done (a := ⟨p, q, x.1, x.2, false, hpq⟩) hk rfl rfl ⟨rfl, rfl, rfl, rfl, rfl⟩
        · simp only [if_pos hm]
          have hes : ∀ e ∈ [.acquire (.map q), .acquire (.dma d x.1 x.2)] ++
              (if k.requestIrq = 0 then [.acquire (.irq d)] else []),
                e ≠ Event.release (Resource.map p) := by
            split_ifs <;> simp
          refine .left h0 (.inr (.inr hm)) ?_ hes hm
          split_ifs <;> rfl

/-- A device that is left with something. -/
theorem not_disciplined_left {c : DriverCall D} (r : Resource D)
    (howner : (s.step c).owner r = some d) (hbound : d ∉ (s.step c).bound) :
    ¬ s.Disciplined c := fun hdisc => hbound (hdisc.settled r d howner)

theorem not_disciplined_enable (h : Vacant s d)
    (hev : (s.statics.initOne d k).events = [.release (.regions d), .release (.enable d)]) :
    ¬ s.Disciplined (.probe d k) := by
  intro hdisc
  have hlegal := hdisc.legal
  rw [events, result, hev] at hlegal
  exact absurd (h.regions.symm.trans hlegal.1) (by simp)

theorem not_disciplined_regions (h : Vacant s d) (hev : (s.statics.initOne d k).events =
      [.acquire (.enable d), .release (.regions d), .release (.enable d)]) :
    ¬ s.Disciplined (.probe d k) := by
  intro hdisc
  have hlegal := hdisc.legal
  rw [events, result, hev] at hlegal
  have hregions : Ledger.apply s.owner (d, .acquire (.enable d)) (.regions d) = some d :=
    hlegal.2.1
  rw [Ledger.apply, Function.update_of_ne (by simp), h.regions] at hregions
  exact absurd hregions (by simp)

theorem bound_of_ret (hret : (s.statics.initOne d k).ret ≠ 0) :
    (s.step (.probe d k)).bound = s.bound := if_neg hret

/-- The mapping of BAR0 is left. -/
theorem not_disciplined_mapped (h : Vacant s d) {p : ℕ} {es : List (Event (Resource D))}
    (hev : (s.statics.initOne d k).events =
      [.acquire (.enable d), .acquire (.regions d), .acquire (.map p)] ++ es)
    (hes : ∀ e ∈ es, e ≠ .release (.map p)) (hret : (s.statics.initOne d k).ret ≠ 0) :
    ¬ s.Disciplined (.probe d k) := by
  refine not_disciplined_left (.map p) ?_ (by rw [bound_of_ret hret]; exact h.bound)
  change run Ledger.apply s.owner (s.events (.probe d k)) (.map p) = some d
  rw [events, result, hev, List.map_append, run_append]
  refine run_kept (by simp [Ledger.apply, DriverCall.pdev]) fun e he => ?_
  obtain ⟨e', he', rfl⟩ := List.mem_map.1 he
  exact ⟨hes e' he', fun _ => rfl⟩

/-- All is released. -/
theorem step_bar0 (h : Vacant s d) (hev : (s.statics.initOne d k).events =
      [.acquire (.enable d), .acquire (.regions d), .release (.regions d), .release (.enable d)]) :
    Along Ledger.apply Legal s.owner (s.events (.probe d k)) ∧
      (s.step (.probe d k)).owner = s.owner := by
  have hevents : s.events (.probe d k) = [(d, .acquire (.enable d)), (d, .acquire (.regions d)),
      (d, .release (.regions d)), (d, .release (.enable d))] := by
    rw [events, result, hev]
    rfl
  refine ⟨?_, ?_⟩
  · rw [hevents]
    simp [Ledger.apply, Legal, h.enable, h.regions]
  · change run Ledger.apply s.owner (s.events (.probe d k)) = s.owner
    rw [hevents]
    funext r
    by_cases hen : r = .enable d
    · simp [Ledger.apply, hen, h.enable]
    · by_cases hreg : r = .regions d
      · simp [Ledger.apply, hreg, h.regions]
      · simp [Ledger.apply, hen, hreg]

omit [DecidableEq D] in
theorem Acquired.nodup_resources (a : Acquired) (d : D) : (a.resources d).Nodup := by
  have hne := a.ptr_ne
  unfold Acquired.resources
  split_ifs <;> simp [hne]

/-- From nothing all is acquired. -/
theorem step_done (howner : s.owner = fun _ => none) {a : Acquired}
    (hev : (s.statics.initOne d k).events = (a.resources d).map .acquire) :
    Along Ledger.apply Legal s.owner (s.events (.probe d k)) ∧
      (s.step (.probe d k)).owner = a.owner d := by
  have hevents : s.events (.probe d k) = (a.resources d).map fun r => (d, .acquire r) := by
    rw [events, result, hev, List.map_map]
    rfl
  change _ ∧ run Ledger.apply s.owner (s.events (.probe d k)) = a.owner d
  rw [hevents, howner]
  exact acquire_all d (a.nodup_resources d) fun _ _ => rfl

/-- With another device bound `ipnuma_dev` is registered twice. -/
theorem not_disciplined_misc {e : D} (howner : s.owner .misc = some e) {a : Acquired}
    (hev : (s.statics.initOne d k).events = (a.resources d).map .acquire) :
    ¬ s.Disciplined (.probe d k) := by
  intro hdisc
  have hlegal := hdisc.legal
  rw [events, result, hev, Acquired.resources, List.map_append, List.map_append, along_append]
    at hlegal
  have hfree := hlegal.2.1
  revert hfree
  rw [List.map_map]
  intro hfree
  refine absurd ((run_kept howner fun e he => ?_).symm.trans hfree) (by simp)
  obtain ⟨r, hr, rfl⟩ := List.mem_map.1 he
  refine ⟨by simp, fun h => ?_⟩
  have hr' : r = .misc := by simpa using h
  rw [hr'] at hr
  revert hr
  split_ifs <;> simp

/-! ### A removal -/

omit [DecidableEq D] in
theorem events_of_points {a : Acquired} (h : Points s.statics d a) : s.events (.remove d) =
    [.irq d, .map a.ptr0, .map a.ptr1, .dma d a.virt a.phys, .regions d, .enable d, .misc].map
      fun r => (d, .release r) := by
  simp [events, result, Statics.removeOne, Statics.unmap, Statics.freeDma, h.mmio0Ptr, h.mmio1Ptr,
    h.dmaVirtPtr, h.dmaPhysPtr, h.pcidev, DriverCall.pdev]

omit [DecidableEq D] in
theorem events_of_cleared (h : Cleared s.statics) : s.events (.remove d) =
    [.irq d, .regions d, .enable d, .misc].map fun r => (d, .release r) := by
  simp [events, result, Statics.removeOne, Statics.unmap, Statics.freeDma, h.mmio0Ptr, h.mmio1Ptr,
    h.dmaVirtPtr, DriverCall.pdev]

/-- All is released. -/
theorem step_remove {a : Acquired} (howner : s.owner = a.owner d) (hirq : a.irq = true)
    (hptr : Points s.statics d a) : Along Ledger.apply Legal s.owner (s.events (.remove d)) ∧
      (s.step (.remove d)).owner = fun _ => none := by
  change _ ∧ run Ledger.apply s.owner (s.events (.remove d)) = _
  rw [events_of_points hptr, howner]
  have hne := a.ptr_ne
  have hown : ∀ r ∈ [Resource.irq d, .map a.ptr0, .map a.ptr1, .dma d a.virt a.phys, .regions d,
      .enable d, .misc], a.owner d r = some d := by
    simp [Acquired.owner, Acquired.resources, hirq]
  obtain ⟨hlegal, hrun⟩ := release_all d (by simp [hne]) hown
  refine ⟨hlegal, hrun.trans ?_⟩
  funext r
  split_ifs with hr
  · rfl
  · refine if_neg fun hmem => hr ?_
    rw [Acquired.resources, hirq, if_pos rfl] at hmem
    simp only [List.mem_append, List.mem_cons, List.not_mem_nil, or_false] at hmem ⊢
    tauto

/-- No IRQ was granted, but it is freed. -/
theorem not_disciplined_irq {a : Acquired} (howner : s.owner = a.owner d) (hirq : a.irq = false) :
    ¬ s.Disciplined (.remove d) := by
  intro hdisc
  have hfree : s.owner (.irq d) = none := by
    rw [howner]
    exact if_neg (by simp [Acquired.resources, hirq])
  exact absurd (hfree.symm.trans hdisc.legal.1) (by simp)

/-- The mappings are left. -/
theorem not_disciplined_cleared {a : Acquired} (howner : s.owner = a.owner d)
    (hptr : Cleared s.statics) : ¬ s.Disciplined (.remove d) := by
  refine not_disciplined_left (.map a.ptr0) ?_ (Finset.notMem_erase d s.bound)
  change run Ledger.apply s.owner (s.events (.remove d)) (.map a.ptr0) = some d
  rw [events_of_cleared hptr]
  refine run_kept ?_ fun e he => ?_
  · rw [howner]
    exact if_pos (by simp [Acquired.resources])
  · obtain ⟨r, hr, rfl⟩ := List.mem_map.1 he
    refine ⟨fun h => ?_, fun _ => rfl⟩
    have hr' : r = .map a.ptr0 := by simpa using h
    rw [hr'] at hr
    exact absurd hr (by simp)

/-! ### Runs -/

/-- A call keeps the discipline and leaves such a state, or it breaks it and does not fit. -/
theorem call_cases {c : DriverCall D} (h : Holds s) (hp : s.Promised c) :
    (s.Disciplined c ∧ s.Fits c ∧ Holds (s.step c)) ∨ (¬ s.Disciplined c ∧ ¬ s.Fits c) := by
  cases c with
  | probe d k =>
    have hvacant := h.vacant hp.1
    cases probed s.statics d hp.2 with
    | enable hk hev => exact .inr ⟨not_disciplined_enable hvacant hev, fun hf => hk hf.1⟩
    | regions hk hev => exact .inr ⟨not_disciplined_regions hvacant hev, fun hf => hk hf.2.1⟩
    | bar0 hk hev hret hptr =>
      obtain ⟨hlegal, howner⟩ := step_bar0 hvacant hev
      have hbound := bound_of_ret hret
      left
      refine ⟨disciplined_of_legal hlegal fun r e he => ?_, ⟨hk.1, hk.2.1, .inl hk.2.2⟩, ?_⟩
      · rw [howner] at he
        rw [hbound]
        cases h with
        | free hb ho =>
          rw [ho] at he
          exact absurd he (by simp)
        | @held e' a hb ho =>
          rw [ho, Acquired.owner] at he
          split_ifs at he
          rw [hb, Option.some.inj he]
          exact Finset.mem_singleton_self e
      · cases h with
        | free hb ho => exact .free (hbound.trans hb) (howner.trans ho)
        | held hb ho => exact .held (hbound.trans hb) (howner.trans ho) (.inr hptr)
    | left h0 hk hev hes hret =>
      refine .inr ⟨not_disciplined_mapped hvacant hev hes hret, ?_⟩
      rintro ⟨-, -, hnone | ⟨h1, h2, h3, -⟩⟩
      · rw [h0] at hnone
        exact absurd hnone (by simp)
      · rcases hk with hk | hk | hk
        · exact h1 hk
        · exact h2 hk
        · exact hk h3
    | @done a hk hev hret hptr =>
      have hbound : (s.step (.probe d k)).bound = insert d s.bound := if_pos hret
      cases h with
      | free hb ho =>
        obtain ⟨hlegal, howner⟩ := step_done ho hev
        left
        refine ⟨disciplined_of_legal hlegal fun r e he => ?_,
          ⟨hk.1, hk.2.1, .inr ⟨hk.2.2.2.1, hk.2.2.2.2.1, hk.2.2.2.2.2, hb⟩⟩,
          .held (by rw [hbound, hb]; rfl) howner (.inl hptr)⟩
        rw [howner, Acquired.owner] at he
        split_ifs at he
        rw [hbound, Option.some.inj he]
        exact Finset.mem_insert_self e s.bound
      | @held e a' hb ho =>
        have hmisc : s.owner .misc = some e := by
          rw [ho]
          exact if_pos (by simp [Acquired.resources])
        refine .inr ⟨not_disciplined_misc hmisc hev, ?_⟩
        rintro ⟨-, -, hnone | ⟨-, -, -, hempty⟩⟩
        · exact hk.2.2.1 hnone
        · rw [hb] at hempty
          exact absurd hempty (Finset.singleton_ne_empty e)
  | remove d =>
    cases h with
    | free hb ho =>
      have hd : d ∈ s.bound := hp
      rw [hb] at hd
      exact absurd hd (Finset.notMem_empty d)
    | @held e a hb ho hptr =>
      have hd : d ∈ s.bound := hp
      rw [hb, Finset.mem_singleton] at hd
      subst hd
      have hirq : s.owner (.irq d) = if a.irq = true then some d else none := by
        rw [ho, Acquired.owner, Acquired.resources]
        cases a.irq <;> simp
      rcases hptr with hptr | hptr
      · cases hgranted : a.irq with
        | true =>
          obtain ⟨hlegal, howner⟩ := step_remove ho hgranted hptr
          have hbound : (s.step (.remove d)).bound = ∅ := by
            change s.bound.erase d = ∅
            rw [hb, Finset.erase_singleton]
          left
          refine ⟨disciplined_of_legal hlegal fun r e he => ?_, ⟨?_, ?_⟩, .free hbound howner⟩
          · rw [howner] at he
            exact absurd he (by simp)
          · rw [hptr.mmio0Ptr]
            simp
          · rw [hirq, if_pos hgranted]
        | false =>
          refine .inr ⟨not_disciplined_irq ho hgranted, fun hf => ?_⟩
          rw [Fits, hirq, hgranted] at hf
          exact absurd hf.2 (by simp)
      · exact .inr ⟨not_disciplined_cleared ho hptr, fun hf => hf.1 hptr.mmio0Ptr⟩

theorem run_disciplined_of_holds (cs : List (DriverCall D)) (hs : Holds s)
    (h : Along step Promised s cs) : Along step Disciplined s cs ↔ Along step Fits s cs := by
  induction cs generalizing s with
  | nil => exact Iff.rfl
  | cons c cs ih =>
    obtain ⟨hp, h⟩ := h
    rcases call_cases hs hp with ⟨hdisc, hfits, hnext⟩ | ⟨hdisc, hfits⟩
    · exact (and_iff_right hdisc).trans ((ih hnext h).trans (and_iff_right hfits).symm)
    · exact ⟨fun hd => absurd hd.1 hdisc, fun hf => absurd hf.1 hfits⟩

/-- **The discipline is kept** in a sequence of calls exactly if every call fits. -/
theorem run_disciplined_iff {cs : List (DriverCall D)} (h : Along step Promised start cs) :
    Along step Disciplined start cs ↔ Along step Fits start cs :=
  run_disciplined_of_holds cs holds_start h

/-- All calls succeed. -/
def granted : Answers where
  pciEnableDevice := 0
  pciRequestRegions := 0
  resource0 := ⟨0xf7000000, 0xf7000fff, 0x40200, 0x1000⟩
  ioremap := some 0xffffc90000010000
  resource2 := ⟨0xe0000000, 0xefffffff, 0x4220c, 0x10000000⟩
  ioremapWc := some 0xffffc90010000000
  dmaAllocCoherent := some (0xffff880036000000, 0x36000000)
  requestIrq := 0
  miscRegister := 0

/-- Two devices one after the other, the second in two attempts. -/
def twoDevices : List (DriverCall ℕ) :=
  [.probe 0 granted, .remove 0, .probe 1 { granted with ioremap := none }, .probe 1 granted,
    .remove 1]

theorem run_disciplined_two : Along step Disciplined start twoDevices :=
  (run_disciplined_iff (by decide)).2 (by decide)

/-- A probe that fails at BAR2 leaves the mapping of BAR0. -/
theorem probe_left : ¬ ∀ cs : List (DriverCall ℕ), Along step Promised start cs →
    Along step Disciplined start cs := by
  intro hall
  have h := (hall [.probe 0 { granted with ioremapWc := none }] (by decide)).1
  have hbound := h.settled (.map 0xffffc90000010000) 0 (by decide)
  exact absurd hbound (by decide)

/-! ### The whole sequence -/

theorem log_legal {cs : List (DriverCall D)} (h : Along step Disciplined s cs) :
    Along Ledger.apply Legal s.owner (log step events s cs) ∧
      run Ledger.apply s.owner (log step events s cs) = (run step s cs).owner := by
  induction cs generalizing s with
  | nil => exact ⟨trivial, rfl⟩
  | cons c cs ih =>
    obtain ⟨hlegal, hrun⟩ := ih h.2
    rw [log_cons, along_append, run_append, run_cons]
    exact ⟨⟨h.1.legal, hlegal⟩, hrun⟩

/-- A device that is not bound has nothing. -/
theorem not_owner_of_disciplined {cs : List (DriverCall D)}
    (h : Along step Disciplined start cs) {d : D} (hd : d ∉ (run step start cs).bound)
    (r : Resource D) : (run step start cs).owner r ≠ some d := by
  intro hr
  rcases List.eq_nil_or_concat cs with rfl | ⟨cs, c, rfl⟩
  · exact absurd hr (by simp [start])
  · rw [List.concat_eq_append] at h hr hd
    rw [run_concat] at hr hd
    exact hd (((along_concat _ _ _ _ _).1 h).2.settled r d hr)

/-- What a device that is not bound has acquired it has released as often. -/
theorem count_of_disciplined {cs : List (DriverCall D)} (h : Along step Disciplined start cs)
    {d : D} (hd : d ∉ (run step start cs).bound) (r : Resource D) :
    (log step events start cs).count (d, .acquire r) =
      (log step events start cs).count (d, .release r) := by
  obtain ⟨hlegal, hrun⟩ := log_legal h
  have hcount := count_of_legal hlegal d r
  rw [hrun, if_neg (not_owner_of_disciplined h hd r), if_neg (by simp [start])] at hcount
  omega

/-- **Nothing leaks.**  When all calls fit, a device that is not bound behind them has released each
resource as often as it has acquired it, and nothing is its own any more. -/
theorem released_of_fits {cs : List (DriverCall D)} (h : Along step Promised start cs)
    (hfits : Along step Fits start cs) {d : D} (hd : d ∉ (run step start cs).bound)
    (r : Resource D) :
    (log step events start cs).count (d, .acquire r) =
        (log step events start cs).count (d, .release r) ∧
      (run step start cs).owner r ≠ some d := by
  have hdisc := (run_disciplined_of_holds cs holds_start h).2 hfits
  exact ⟨count_of_disciplined hdisc hd r, not_owner_of_disciplined hdisc hd r⟩

/-- The second device has mapped BAR0 once, and unmapped it. -/
theorem released_of_fits_two :
    (log step events start twoDevices).count (1, .acquire (.map 0xffffc90000010000)) =
        (log step events start twoDevices).count (1, .release (.map 0xffffc90000010000)) ∧
      (run step start twoDevices).owner (.map 0xffffc90000010000) ≠ some 1 :=
  released_of_fits (by decide) (by decide) (by decide) _

end Driver

end IpNuma
