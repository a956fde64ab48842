import Rtes.FirstFree

/-!
How `btvid3.c` finds its devices on the PCI bus.

`FillPCIDev` reads the vendor and device words of every slot and looks each device up in a table,
in which an entry serves once; `findBusDevFunNo` then looks every device it knows up again with
`pciFindDevice`, a function of VxWorks that is a parameter here. The device that a slot holds is
given by its pair of words, with the vendor `0xffff` for none.
-/

namespace Rtes.PciModel

open Rtes.FirstFree

inductive DeviceType
  | northBridge
  | southBridge
  | captureVideoCard1
  | captureVideoCard2
  deriving DecidableEq

/-- `PCI_DEV_BUS_NAME`; `found` is `Found == OK`. -/
structure PciDevBusName where
  venId : ℕ
  devId : ℕ
  index : ℕ
  busNo : ℕ
  deviceNo : ℕ
  funcNo : ℕ
  found : Bool
  deriving DecidableEq

/-- The array `PCI_DEV`. -/
abbrev PciDev := DeviceType → PciDevBusName

/-- An entry of the table of device types, without its flag. -/
structure DevType where
  enDevType : DeviceType
  uiVenId : ℕ
  uiDevId : ℕ
  pDevDescString : Option String
  deriving DecidableEq

def INTEL_VENDOR_ID : ℕ := 0x8086
def PCI_VENDOR_ID_BROOKTREE : ℕ := 0x109e
def PCI_DEVICE_ID_BT878 : ℕ := 0x036e

/-- The entries of `asDefDevtype` before the one that ends the list. -/
def devTypes : List DevType :=
  [⟨.northBridge, INTEL_VENDOR_ID, 0x1237, "Northbridge: Intel 82441FX"⟩,
    ⟨.northBridge, INTEL_VENDOR_ID, 0x7100, "Northbridge: Intel 82439TX"⟩,
    ⟨.northBridge, INTEL_VENDOR_ID, 0x2501, "Northbridge: Intel 820820"⟩,
    ⟨.southBridge, INTEL_VENDOR_ID, 0x7000, "Southbridge: Intel 82371SB"⟩,
    ⟨.southBridge, INTEL_VENDOR_ID, 0x7110, "Southbridge: Intel 82371AB"⟩,
    ⟨.southBridge, INTEL_VENDOR_ID, 0x2410, "Southbridge: Intel 82801AA"⟩,
    ⟨.captureVideoCard1, PCI_VENDOR_ID_BROOKTREE, PCI_DEVICE_ID_BT878, "Capture Card 1: BT878"⟩,
    ⟨.captureVideoCard2, PCI_VENDOR_ID_BROOKTREE, PCI_DEVICE_ID_BT878, "Capture Card 2: BT878"⟩]

/-- The entry that ends the list. -/
def nullDevType : DevType := ⟨.northBridge, 0, 0, none⟩

/-- The table as `FillPCIDev` copies it, each entry with its `bFound`. -/
def asDefDevtype : List (DevType × Bool) := (devTypes ++ [nullDevType]).map (·, false)

/-- The first entry for the device that has not been found yet, which is then marked. -/
def findNextDevTypeInList (uiVendorID uiDeviceID : ℕ) :
    List (DevType × Bool) → Option (DevType × List (DevType × Bool))
  | [] => none
  | (e, bFound) :: asDevtype =>
    if e.enDevType ≠ .northBridge ∨ e.uiVenId ≠ 0 ∨ e.uiDevId ≠ 0 ∨ e.pDevDescString.isSome then
      if e.uiVenId = uiVendorID ∧ e.uiDevId = uiDeviceID ∧ bFound = false then
        some (e, (e, true) :: asDevtype)
      else
        (findNextDevTypeInList uiVendorID uiDeviceID asDevtype).map
          fun r => (r.1, (e, bFound) :: r.2)
    else none

/-- What is in the slots: the vendor and the device word of each bus and device number. -/
abbrev Population := ℕ → ℕ → ℕ × ℕ

/-- The slots in bus and device order. -/
def slots : List (ℕ × ℕ) :=
  (List.range 10).flatMap fun busNo => (List.range 32).map fun deviceNo => (busNo, deviceNo)

/-- A `pciFindDevice`: the bus, device and function number for a vendor, a device and an index, or
`none` where it returns an error and stores nothing. -/
abbrev FindDevice := ℕ → ℕ → ℕ → Option (ℕ × ℕ × ℕ)

/-- The body of the loops of `FillPCIDev`. -/
def fillSlot (pop : Population) (s : List (DevType × Bool) × PciDev) (busNo deviceNo : ℕ) :
    List (DevType × Bool) × PciDev :=
  let (vendorId, deviceId) := pop busNo deviceNo
  if vendorId ≠ 0xffff then
    match findNextDevTypeInList vendorId deviceId s.1 with
    | some (e, asDevtype) =>
      (asDevtype, Function.update s.2 e.enDevType { s.2 e.enDevType with
        venId := vendorId, devId := deviceId, busNo := busNo, deviceNo := deviceNo })
    | none => s
  else s

/-- `FillPCIDev`; `init` is whether the PCI library is or can be initialized. -/
def fillPCIDev (init : Bool) (pop : Population) (dev : PciDev) : PciDev :=
  if init then
    ((List.range 10).foldl (fun s busNo =>
      (List.range 32).foldl (fun s deviceNo => fillSlot pop s busNo deviceNo) s)
      (asDefDevtype, dev)).2
  else dev

/-- `pciFindDevice` for the device `i`, which sets its place if it is found. -/
def findBusDevFunNo (pciFindDevice : FindDevice) (dev : PciDev) : PciDev := fun i =>
  match pciFindDevice (dev i).venId (dev i).devId (dev i).index with
  | some (busNo, deviceNo, funcNo) =>
    { dev i with busNo := busNo, deviceNo := deviceNo, funcNo := funcNo, found := true }
  | none => { dev i with found := false }

/-- Whether the devices that are needed were found, with what is printed. -/
def reportDevFoundStatus (dev : PciDev) : Bool × List String :=
  let stReturn := (dev .northBridge).found && (dev .southBridge).found &&
    (dev .captureVideoCard1).found
  (stReturn,
    (if (dev .northBridge).found then [] else ["Warning: Northbridge not found!!!\n"]) ++
    (if (dev .southBridge).found then [] else ["Warning: Southbridge not found!!!\n"]) ++
    (if (dev .captureVideoCard1).found then [] else ["Error: Capture card not found!!!\n"]) ++
    (if (dev .captureVideoCard2).found = false ∧ stReturn then
      ["Note: Only one capture card found\n"] else []))

/-- The entries after the first loop of `initializePCI_DEV`, which leaves `Found`. -/
def clear (dev : PciDev) : PciDev := fun i =>
  { dev i with venId := 0, devId := 0, index := 0, busNo := 0, deviceNo := 0, funcNo := 0 }

def initializePciDev (pciFindDevice : FindDevice) (init : Bool) (pop : Population) (dev : PciDev) :
    PciDev × Bool × List String :=
  let dev := findBusDevFunNo pciFindDevice (fillPCIDev init pop (clear dev))
  (dev, reportDevFoundStatus dev)

end Rtes.PciModel
