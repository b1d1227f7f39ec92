import Mathlib.Tactic

namespace SynaBoot.BootControl

inductive Slot where
  | a
  | b
  deriving DecidableEq, Repr

def Slot.other : Slot → Slot
  | .a => .b
  | .b => .a

/-- Slot A, slot B, or a value that names no slot. -/
inductive BootSel where
  | slot (s : Slot)
  | invalid
  deriving DecidableEq, Repr

def bootselDefault : Slot := .a

/-- `struct misc_slot_metadata`. -/
structure SlotMetadata where
  priority : UInt8
  triesRemaining : UInt8
  successfulBoot : UInt8
  verityCorrupted : UInt8
  reserved : UInt8
  deriving DecidableEq, Repr

structure BootCtrl where
  magic : UInt32
  version : UInt8
  recoveryTriesRemaining : UInt8
  slotInfo : Slot → SlotMetadata
  reserved : Vector UInt8 16

def bootctrlMagic : UInt32 := 0x42424100
def miscBootControlVersion : UInt8 := 2

def SlotMetadata.zero : SlotMetadata := ⟨0, 0, 0, 0, 0⟩

/-- The default slot at priority 8, the other at 3, each with two tries. -/
def defaultBootctrl (defaultSlot : Slot) : BootCtrl where
  magic := bootctrlMagic
  version := miscBootControlVersion
  recoveryTriesRemaining := 0
  slotInfo := fun s =>
    { SlotMetadata.zero with
      priority := if s = defaultSlot then 8 else 3
      triesRemaining := 2
      successfulBoot := 0 }
  reserved := Vector.replicate 16 0

/-- A difference of promoted integers is tested against zero. -/
def prefer (x y : UInt8) : Slot := if 0 < (x.toNat : Int) - (y.toNat : Int) then .a else .b

theorem prefer_eq_a (x y : UInt8) : prefer x y = .a ↔ y < x := by
  unfold prefer
  rw [UInt8.lt_iff_toNat_lt]
  split <;> simp <;> omega

theorem prefer_eq_b (x y : UInt8) (hne : x ≠ y) : prefer x y = .b ↔ x < y := by
  have hn : x.toNat ≠ y.toNat := fun h => hne (UInt8.toNat_inj.mp h)
  unfold prefer
  rw [UInt8.lt_iff_toNat_lt]
  split <;> simp <;> omega

end SynaBoot.BootControl
