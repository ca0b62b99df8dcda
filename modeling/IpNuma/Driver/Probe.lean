import IpNuma.Clocked.Ledger
import Mathlib.Data.Finset.Basic

/-!
# `ipnuma_init_one` and `ipnuma_remove_one`

What the driver acquires for a device and releases again, whatever the calls of the kernel answer.
The pointers are static variables, so all devices share them; a probe clears them first.

`Driver` is the driver with the devices it is bound to and the owners of the resources.
-/

namespace IpNuma

open Clocked Ledger

/-- What the kernel hands out: by device, or at an address. -/
inductive Resource (D : Type*)
  | enable (pdev : D)
  | regions (pdev : D)
  /-- A mapping of `ioremap` or `ioremap_wc`. -/
  | map (ptr : ℕ)
  /-- A buffer of `dma_alloc_coherent`. -/
  | dma (dev : D) (virt phys : ℕ)
  | irq (pdev : D)
  /-- The registration of `ipnuma_dev`. -/
  | misc
  deriving DecidableEq

/-- `pci_resource_start`, `pci_resource_end`, `pci_resource_flags`, `pci_resource_len`. -/
structure PciResource where
  start : ℕ
  end_ : ℕ
  flags : ℕ
  len : ℕ
  deriving DecidableEq, Inhabited

/-- What the calls answer in a probe: 0 for success, and no pointer for `NULL`. -/
structure Answers where
  pciEnableDevice : ℤ
  pciRequestRegions : ℤ
  resource0 : PciResource
  ioremap : Option ℕ
  resource2 : PciResource
  ioremapWc : Option ℕ
  dmaAllocCoherent : Option (ℕ × ℕ)
  requestIrq : ℤ
  miscRegister : ℤ
  deriving DecidableEq, Inhabited

/-- The static variables. -/
structure Statics (D : Type*) where
  mmio0Ptr : Option ℕ
  mmio1Ptr : Option ℕ
  dmaVirtPtr : Option ℕ
  dmaPhysPtr : ℕ
  mmio0 : PciResource
  mmio1 : PciResource
  pcidev : Option D
  boardIdx : ℤ
  /-- `ipnuma_dev.name`. -/
  name : String

/-- What a call leaves. -/
structure CallResult (D : Type*) where
  statics : Statics D
  events : List (Event (Resource D))
  ret : ℤ

namespace Statics

variable {D : Type*}

/-- When the module is loaded. -/
def init : Statics D := ⟨none, none, none, 0, default, default, none, -1, "ipnuma"⟩

/-- `err_out`. -/
def errOut (s : Statics D) (pdev : D) (es : List (Event (Resource D))) : CallResult D :=
  ⟨s, es ++ [.release (.regions pdev), .release (.enable pdev)], -1⟩

/-- `ipnuma_init_one`. -/
def initOne (s : Statics D) (pdev : D) (k : Answers) : CallResult D :=
  let s := { s with mmio0Ptr := none, mmio1Ptr := none, dmaVirtPtr := none, dmaPhysPtr := 0 }
  if k.pciEnableDevice ≠ 0 then errOut s pdev []
  else
    let es := [.acquire (.enable pdev)]
    if k.pciRequestRegions ≠ 0 then errOut s pdev es
    else
      let es := es ++ [.acquire (.regions pdev)]
      let s := { s with
        boardIdx := s.boardIdx + 1, mmio0 := k.resource0, mmio0Ptr := k.ioremap }
      match k.ioremap with
      | none => errOut s pdev es
      | some p =>
        let es := es ++ [.acquire (.map p)]
        let s := { s with mmio1 := k.resource2, mmio1Ptr := k.ioremapWc }
        match k.ioremapWc with
        | none => errOut s pdev es
        | some q =>
          let es := es ++ [.acquire (.map q)]
          match k.dmaAllocCoherent with
          | none => errOut s pdev es
          | some (v, phys) =>
            let es := es ++ [.acquire (.dma pdev v phys)]
            -- without an IRQ the probe goes on
            let es := if k.requestIrq = 0 then es ++ [.acquire (.irq pdev)] else es
            let s := { s with
              dmaVirtPtr := some v
              dmaPhysPtr := phys
              pcidev := some pdev
              name := "ipnuma/" ++ toString s.boardIdx }
            -- returns at once
            if k.miscRegister ≠ 0 then ⟨s, es, k.miscRegister⟩
            else ⟨s, es ++ [.acquire .misc], 0⟩

/-- `iounmap` of a pointer that is not `NULL`. -/
def unmap (ptr : Option ℕ) : List (Event (Resource D)) :=
  match ptr with
  | none => []
  | some p => [.release (.map p)]

/-- `dma_free_coherent`, for the device that was probed last. -/
def freeDma (s : Statics D) : List (Event (Resource D)) :=
  match s.dmaVirtPtr, s.pcidev with
  | some v, some dev => [.release (.dma dev v s.dmaPhysPtr)]
  | _, _ => []

/-- `ipnuma_remove_one`.  The pointer to the buffer is not cleared. -/
def removeOne (s : Statics D) (pdev : D) : CallResult D :=
  ⟨{ s with mmio0Ptr := none, mmio1Ptr := none },
    [.release (.irq pdev)] ++ unmap s.mmio0Ptr ++ unmap s.mmio1Ptr ++ s.freeDma ++
      [.release (.regions pdev), .release (.enable pdev), .release .misc], 0⟩

end Statics

/-- A call of the driver core. -/
inductive DriverCall (D : Type*)
  | probe (pdev : D) (k : Answers)
  | remove (pdev : D)

def DriverCall.pdev {D : Type*} : DriverCall D → D
  | probe pdev _ => pdev
  | remove pdev => pdev

/-- The driver, the devices it is bound to, and who has which resource. -/
structure Driver (D : Type*) where
  statics : Statics D
  bound : Finset D
  owner : Resource D → Option D

namespace Driver

variable {D : Type*} [DecidableEq D]

def start : Driver D := ⟨Statics.init, ∅, fun _ => none⟩

/-- The function that is called. -/
def result (s : Driver D) : DriverCall D → CallResult D
  | .probe pdev k => s.statics.initOne pdev k
  | .remove pdev => s.statics.removeOne pdev

/-- What it acquires and releases. -/
def events (s : Driver D) (c : DriverCall D) : List (D × Event (Resource D)) :=
  (s.result c).events.map fun e => (c.pdev, e)

/-- The driver after a call.  The device is bound if its probe returns 0. -/
def step (s : Driver D) (c : DriverCall D) : Driver D where
  statics := (s.result c).statics
  bound :=
    match c with
    | .probe pdev _ => if (s.result c).ret = 0 then insert pdev s.bound else s.bound
    | .remove pdev => s.bound.erase pdev
  owner := run Ledger.apply s.owner (s.events c)

/-- What the kernel keeps to: a device is probed when it is not bound and removed when it is, and
the two mappings of a device are at different addresses. -/
def Promised (s : Driver D) : DriverCall D → Prop
  | .probe pdev k => pdev ∉ s.bound ∧ (k.ioremapWc = none ∨ k.ioremap ≠ k.ioremapWc)
  | .remove pdev => pdev ∈ s.bound

instance (s : Driver D) : DecidablePred s.Promised
  | .probe pdev k =>
      inferInstanceAs (Decidable (pdev ∉ s.bound ∧ (k.ioremapWc = none ∨ k.ioremap ≠ k.ioremapWc)))
  | .remove pdev => inferInstanceAs (Decidable (pdev ∈ s.bound))

/-- **The discipline** in one call. -/
structure Disciplined (s : Driver D) (c : DriverCall D) : Prop where
  /-- What is acquired is nobody's, and what is released is the device's. -/
  legal : Along Ledger.apply Legal s.owner (s.events c)
  /-- A device that is not bound behind the call has nothing. -/
  settled : ∀ r d, (s.step c).owner r = some d → d ∈ (s.step c).bound
  /-- The other devices have what they had. -/
  apart : ∀ r d, d ≠ c.pdev → ((s.step c).owner r = some d ↔ s.owner r = some d)

/-- The calls in which it is kept: a probe that succeeds while no device is bound, but perhaps for
the IRQ; a probe that fails at BAR0; and a removal of a device with an IRQ, if there was no probe
since its own. -/
def Fits (s : Driver D) : DriverCall D → Prop
  | .probe _ k => k.pciEnableDevice = 0 ∧ k.pciRequestRegions = 0 ∧
      (k.ioremap = none ∨ k.ioremapWc ≠ none ∧ k.dmaAllocCoherent ≠ none ∧ k.miscRegister = 0 ∧
        s.bound = ∅)
  | .remove pdev => s.statics.mmio0Ptr ≠ none ∧ s.owner (.irq pdev) = some pdev

instance (s : Driver D) : DecidablePred s.Fits
  | .probe _ k => inferInstanceAs (Decidable (k.pciEnableDevice = 0 ∧ k.pciRequestRegions = 0 ∧
      (k.ioremap = none ∨ k.ioremapWc ≠ none ∧ k.dmaAllocCoherent ≠ none ∧ k.miscRegister = 0 ∧
        s.bound = ∅)))
  | .remove pdev =>
      inferInstanceAs (Decidable (s.statics.mmio0Ptr ≠ none ∧ s.owner (.irq pdev) = some pdev))

end Driver

end IpNuma
