import Rtes.Layout

/-!
The interrupt routing table of the BIOS, as `BTVIDDebug.c` finds and shows it.

The table has 32 bytes and then 16 for each slot: bus, device, four pairs of a link byte and a
bitmap of two bytes, the slot number and a reserved byte. `BTVID.h` declares it as structures of
C, whose layout is computed here from the alignment of the scalars. Memory is given from the
first byte of the table on; the texts around the values shown are left out.
-/

namespace Rtes.PciRouting

open Rtes.Bytes Rtes.Layout

/-! ### The structures of `BTVID.h` -/

/-- The alignment of a scalar, by its size. -/
abbrev Abi := ℕ → ℕ

/-- Scalars of at most four bytes are aligned to their size. -/
def i386 : Abi := id

/-- The layout under a pragma that the header does not have. -/
def packed : Abi := fun _ => 1

def MAX_PCI_SLOTS : ℕ := 10

inductive IntField
  | byLinkValue
  | wIRQBitmap
  deriving DecidableEq

inductive SlotField
  | byBusNo
  | byDevNo
  | atoDSlotInfo
  | bySlotNo
  | byReserved
  deriving DecidableEq

inductive TableField
  | dwSignature
  | wVersion
  | wTableSize
  | byIntRouterBus
  | byIntRouterDevFunc
  | wExclusiveIRQs
  | dwCompatableIntRouterDevID
  | dwIrqMiniport
  | abyReserved
  | abyChecksum
  | sPciSlot
  deriving DecidableEq

section

variable (abi : Abi)

def BYTE : Shape := ⟨1, abi 1⟩
def WORD : Shape := ⟨2, abi 2⟩
def DWORD : Shape := ⟨4, abi 4⟩

def pciSlotIntEntry : List (IntField × Shape) :=
  [(.byLinkValue, BYTE abi), (.wIRQBitmap, WORD abi)]

def pciSlotEntry : List (SlotField × Shape) :=
  [(.byBusNo, BYTE abi), (.byDevNo, BYTE abi),
    (.atoDSlotInfo, .array 4 (.struct (pciSlotIntEntry abi))),
    (.bySlotNo, BYTE abi), (.byReserved, BYTE abi)]

def pciRoutingTable : List (TableField × Shape) :=
  [(.dwSignature, DWORD abi), (.wVersion, WORD abi), (.wTableSize, WORD abi),
    (.byIntRouterBus, BYTE abi), (.byIntRouterDevFunc, BYTE abi), (.wExclusiveIRQs, WORD abi),
    (.dwCompatableIntRouterDevID, DWORD abi), (.dwIrqMiniport, DWORD abi),
    (.abyReserved, .array 11 (BYTE abi)), (.abyChecksum, BYTE abi),
    (.sPciSlot, .array MAX_PCI_SLOTS (.struct (pciSlotEntry abi)))]

/-! ### The functions of `BTVIDDebug.c` -/

/-- What is shown of `AtoDSlotInfo[i]`. -/
structure IntInfo where
  byLinkValue : ℕ
  wIRQBitmap : ℕ

structure SlotData where
  byBusNo : ℕ
  byDevNo : ℕ
  atoDSlotInfo : List IntInfo
  bySlotNo : ℕ

structure TableInfo where
  dwSignature : ℕ
  wVersion : ℕ
  wTableSize : ℕ
  byIntRouterBus : ℕ
  byIntRouterDevFunc : ℕ
  /-- The device and the function decoded from `byIntRouterDevFunc`. -/
  decoded : ℕ × ℕ
  wExclusiveIRQs : ℕ
  dwCompatableIntRouterDevID : ℕ
  dwIrqMiniport : ℕ
  slots : List SlotData

def showPCISlotData (mem : Buf) (psPciSlot : ℕ) : Look SlotData := do
  let byBusNo ← member mem (pciSlotEntry abi) psPciSlot .byBusNo
  let byDevNo ← member mem (pciSlotEntry abi) psPciSlot .byDevNo
  let atoDSlotInfo ← (List.range 4).mapM fun i => do
    let entry := psPciSlot + offset (pciSlotEntry abi) .atoDSlotInfo +
      i * (Shape.struct (pciSlotIntEntry abi)).size
    let byLinkValue ← member mem (pciSlotIntEntry abi) entry .byLinkValue
    let wIRQBitmap ← member mem (pciSlotIntEntry abi) entry .wIRQBitmap
    pure (IntInfo.mk byLinkValue wIRQBitmap)
  let bySlotNo ← member mem (pciSlotEntry abi) psPciSlot .bySlotNo
  pure { byBusNo, byDevNo, atoDSlotInfo, bySlotNo }

def showPCIIntRoutingTable (mem : Buf) : Look TableInfo := do
  let dwSignature ← member mem (pciRoutingTable abi) 0 .dwSignature
  let wVersion ← member mem (pciRoutingTable abi) 0 .wVersion
  let wTableSize ← member mem (pciRoutingTable abi) 0 .wTableSize
  let byIntRouterBus ← member mem (pciRoutingTable abi) 0 .byIntRouterBus
  let byIntRouterDevFunc ← member mem (pciRoutingTable abi) 0 .byIntRouterDevFunc
  let wExclusiveIRQs ← member mem (pciRoutingTable abi) 0 .wExclusiveIRQs
  let dwCompatableIntRouterDevID ←
    member mem (pciRoutingTable abi) 0 .dwCompatableIntRouterDevID
  let dwIrqMiniport ← member mem (pciRoutingTable abi) 0 .dwIrqMiniport
  -- the quotient of C, negative for a table without its header
  let iNumSlots := ((wTableSize : ℤ) - 32).tdiv 16
  let slots ← (List.range iNumSlots.toNat).mapM fun i =>
    showPCISlotData abi mem (offset (pciRoutingTable abi) .sPciSlot +
      i * (Shape.struct (pciSlotEntry abi)).size)
  pure { dwSignature, wVersion, wTableSize, byIntRouterBus, byIntRouterDevFunc,
         decoded := (byIntRouterDevFunc >>> 3, byIntRouterDevFunc &&& 7),
         wExclusiveIRQs, dwCompatableIntRouterDevID, dwIrqMiniport, slots }

/-- The bytes of the table are added up in an `unsigned char`. -/
def verifyPCIIntRoutingTable (mem : Buf) : Bool :=
  let wTableSize := (member mem (pciRoutingTable abi) 0 .wTableSize).value
  (member mem (pciRoutingTable abi) 0 .wVersion).value == 0x100 &&
    (decide (wTableSize > 32) && wTableSize % 16 == 0 &&
      (slice mem 0 wTableSize).foldl (· + ·) 0 == 0)

def PCI_ROUTING_TABLE_SIGNATURE : ℕ := 0x52495024

/-- The loop over the BIOS area, four words at a time, with `bFound` and the tables shown. Here
memory is all of the machine's. -/
def findAndDecodePCIInterruptRoutingTable (mem : Buf) : Bool × List (Look TableInfo) :=
  (List.range' 0xF0000 0x1000 16).foldl
    (fun (bFound, shown) i =>
      if (load mem i 4).value = PCI_ROUTING_TABLE_SIGNATURE ∧
          verifyPCIIntRoutingTable abi (fun k => mem (i + k)) = true then
        (true, shown ++ [showPCIIntRoutingTable abi fun k => mem (i + k)])
      else (bFound, shown))
    (false, [])

end

/-! ### The format -/

/-- A word of the table, wherever it starts. -/
def wordAt (mem : Buf) (o : ℕ) : ℕ := (mem o).toNat + 256 * (mem (o + 1)).toNat

def tableSize (mem : Buf) : ℕ := wordAt mem 6

def numSlots (mem : Buf) : ℕ := (tableSize mem - 32) / 16

/-- The slot at `o` is shown as the format has it. -/
structure SlotFollows (mem : Buf) (o : ℕ) (d : SlotData) : Prop where
  bus : d.byBusNo = (mem o).toNat
  dev : d.byDevNo = (mem (o + 1)).toNat
  pins : ∀ k < 4, ∃ e, d.atoDSlotInfo[k]? = some e ∧
    e.byLinkValue = (mem (o + 2 + 3 * k)).toNat ∧ e.wIRQBitmap = wordAt mem (o + 3 + 3 * k)

/-- The slots shown are those of the format, and only the table is read. -/
structure Follows (mem : Buf) (shown : Look TableInfo) : Prop where
  slots : ∀ i < numSlots mem, ∃ d, shown.value.slots[i]? = some d ∧
    SlotFollows mem (32 + 16 * i) d
  read : ∀ o ∈ shown.read, o < tableSize mem

/-! ### Where the fields are -/

/-- An entry of `AtoDSlotInfo` has `pin` bytes with the bitmap at `bitmap`, an entry of `sPciSlot`
has `slot` bytes with the slot number at `slotNo`; the rest of a layout is the same for all. -/
structure Placed (abi : Abi) (pin bitmap slot slotNo : ℕ) : Prop where
  byLinkValue : offset (pciSlotIntEntry abi) .byLinkValue = 0
  wIRQBitmap : offset (pciSlotIntEntry abi) .wIRQBitmap = bitmap
  intEntry : (Shape.struct (pciSlotIntEntry abi)).size = pin
  byBusNo : offset (pciSlotEntry abi) .byBusNo = 0
  byDevNo : offset (pciSlotEntry abi) .byDevNo = 1
  atoDSlotInfo : offset (pciSlotEntry abi) .atoDSlotInfo = 2
  bySlotNo : offset (pciSlotEntry abi) .bySlotNo = slotNo
  slotEntry : (Shape.struct (pciSlotEntry abi)).size = slot
  wTableSize : offset (pciRoutingTable abi) .wTableSize = 6
  sPciSlot : offset (pciRoutingTable abi) .sPciSlot = 32
  header : ∀ f, f ≠ .sPciSlot →
    offset (pciRoutingTable abi) f + fieldSize (pciRoutingTable abi) f ≤ 32

lemma placed_i386 : Placed i386 4 2 20 18 := by
  constructor <;> try rfl
  rintro (_ | _) <;> decide

/-- The offsets of the format. -/
lemma placed_packed : Placed packed 3 1 16 14 := by
  constructor <;> try rfl
  rintro (_ | _) <;> decide

section

variable {abi : Abi} {pin bitmap slot slotNo : ℕ} (mem : Buf)

lemma member_byte {ι : Type*} [DecidableEq ι] {fs : List (ι × Shape)} {f : ι}
    (hf : fieldSize fs f = 1) (o : ℕ) :
    member mem fs o f = ⟨(mem (o + offset fs f)).toNat, [o + offset fs f]⟩ := by
  simp [member, load, hf, slice, ofBytes]

lemma member_word {ι : Type*} [DecidableEq ι] {fs : List (ι × Shape)} {f : ι}
    (hf : fieldSize fs f = 2) (o : ℕ) :
    member mem fs o f =
      ⟨wordAt mem (o + offset fs f), [o + offset fs f, o + offset fs f + 1]⟩ := by
  simp [member, load, hf, slice, ofBytes, List.range_succ, wordAt, List.range'_succ, add_assoc]

/-- What `ShowPCISlotData` shows and reads. -/
lemma Placed.showPCISlotData (h : Placed abi pin bitmap slot slotNo) (o : ℕ) :
    showPCISlotData abi mem o =
      ⟨⟨(mem o).toNat, (mem (o + 1)).toNat,
        (List.range 4).map fun k =>
          ⟨(mem (o + 2 + k * pin)).toNat, wordAt mem (o + 2 + k * pin + bitmap)⟩,
        (mem (o + slotNo)).toNat⟩,
      [o, o + 1] ++ (List.range 4).flatMap (fun k =>
        [o + 2 + k * pin, o + 2 + k * pin + bitmap, o + 2 + k * pin + bitmap + 1]) ++
        [o + slotNo]⟩ := by
  have hlink : fieldSize (pciSlotIntEntry abi) .byLinkValue = 1 := rfl
  have hbitmap : fieldSize (pciSlotIntEntry abi) .wIRQBitmap = 2 := rfl
  have hbus : fieldSize (pciSlotEntry abi) .byBusNo = 1 := rfl
  have hdev : fieldSize (pciSlotEntry abi) .byDevNo = 1 := rfl
  have hno : fieldSize (pciSlotEntry abi) .bySlotNo = 1 := rfl
  unfold PciRouting.showPCISlotData
  ext1
  · simp only [value_bind, value_mapM, value_pure, member_byte mem hlink,
      member_word mem hbitmap, member_byte mem hbus, member_byte mem hdev, member_byte mem hno,
      h.byLinkValue, h.wIRQBitmap, h.intEntry, h.byBusNo, h.byDevNo, h.atoDSlotInfo, h.bySlotNo,
      Nat.add_zero]
  · simp only [read_bind, read_mapM, read_pure, member_byte mem hlink,
      member_word mem hbitmap, member_byte mem hbus, member_byte mem hdev, member_byte mem hno,
      h.byLinkValue, h.wIRQBitmap, h.intEntry, h.byBusNo, h.byDevNo, h.atoDSlotInfo, h.bySlotNo,
      Nat.add_zero]
    simp

/-- The quotient of C is that of the naturals, also below 32. -/
lemma toNat_tdiv (w : ℕ) : (((w : ℤ) - 32).tdiv 16).toNat = (w - 32) / 16 := by
  rcases Nat.lt_or_ge w 32 with h | h
  · have hneg : ((w : ℤ) - 32).tdiv 16 ≤ 0 := by
      rw [show (w : ℤ) - 32 = -(32 - w : ℤ) by ring, Int.neg_tdiv]
      exact neg_nonpos.mpr (Int.tdiv_nonneg (by omega) (by omega))
    rw [Int.toNat_of_nonpos hneg]
    omega
  · rw [Int.tdiv_eq_ediv_of_nonneg (by omega)]
    omega

lemma Placed.slots (h : Placed abi pin bitmap slot slotNo) :
    (showPCIIntRoutingTable abi mem).value.slots =
      (List.range (numSlots mem)).map fun i =>
        (PciRouting.showPCISlotData abi mem (32 + i * slot)).value := by
  have hsize : fieldSize (pciRoutingTable abi) .wTableSize = 2 := rfl
  simp only [showPCIIntRoutingTable, value_bind, value_mapM, value_pure, member_word mem hsize,
    h.wTableSize, h.sPciSlot, h.slotEntry, toNat_tdiv, numSlots, tableSize, Nat.zero_add]

/-- The fields of the header that are shown, in this order. -/
def shownFields : List TableField :=
  [.dwSignature, .wVersion, .wTableSize, .byIntRouterBus, .byIntRouterDevFunc, .wExclusiveIRQs,
    .dwCompatableIntRouterDevID, .dwIrqMiniport]

lemma Placed.read (h : Placed abi pin bitmap slot slotNo) :
    (showPCIIntRoutingTable abi mem).read =
      shownFields.flatMap (fun f => (member mem (pciRoutingTable abi) 0 f).read) ++
        (List.range (numSlots mem)).flatMap fun i =>
          (PciRouting.showPCISlotData abi mem (32 + i * slot)).read := by
  have hsize : fieldSize (pciRoutingTable abi) .wTableSize = 2 := rfl
  simp only [showPCIIntRoutingTable, read_bind, read_mapM, read_pure, member_word mem hsize,
    h.wTableSize, h.sPciSlot, h.slotEntry, toNat_tdiv, numSlots, tableSize, Nat.zero_add,
    shownFields, List.flatMap_cons, List.flatMap_nil, List.append_nil, List.append_assoc]

/-- The header is read within its 32 bytes. -/
lemma Placed.header_lt (h : Placed abi pin bitmap slot slotNo) {o : ℕ} {f : TableField}
    (hf : f ∈ shownFields) (ho : o ∈ (member mem (pciRoutingTable abi) 0 f).read) : o < 32 := by
  have hne : f ≠ .sPciSlot := by
    rintro rfl
    simp [shownFields] at hf
  have hend := h.header f hne
  simp only [member, load, List.mem_range'_1] at ho
  omega

lemma Placed.getElem?_slots (h : Placed abi pin bitmap slot slotNo) {i : ℕ}
    (hi : i < numSlots mem) :
    (showPCIIntRoutingTable abi mem).value.slots[i]? =
      some (PciRouting.showPCISlotData abi mem (32 + i * slot)).value := by
  rw [h.slots, List.getElem?_map, List.getElem?_range hi, Option.map_some]

lemma numSlots_of_verify (h : Placed abi pin bitmap slot slotNo)
    (hv : verifyPCIIntRoutingTable abi mem = true) :
    0 < numSlots mem ∧ tableSize mem = 32 + 16 * numSlots mem := by
  have hsize : fieldSize (pciRoutingTable abi) .wTableSize = 2 := rfl
  have hv' : tableSize mem > 32 ∧ tableSize mem % 16 = 0 := by
    simp only [verifyPCIIntRoutingTable, member_word mem hsize, h.wTableSize, Nat.zero_add,
      Bool.and_eq_true, beq_iff_eq, decide_eq_true_eq] at hv
    exact hv.2.1
  unfold numSlots
  omega

end

/-! ### The table shown -/

section

variable {mem : Buf}

/-- **The slots run out of the table.** The entries are four bytes longer than the slots of the
table, so that the last slot number is read behind it. -/
lemma exists_read_behind (hv : verifyPCIIntRoutingTable i386 mem = true) :
    ∃ o ∈ (showPCIIntRoutingTable i386 mem).read, tableSize mem ≤ o := by
  obtain ⟨hpos, hsize⟩ := numSlots_of_verify mem placed_i386 hv
  refine ⟨32 + (numSlots mem - 1) * 20 + 18, ?_, by omega⟩
  rw [placed_i386.read]
  refine List.mem_append_right _ (List.mem_flatMap.mpr ⟨numSlots mem - 1, ?_, ?_⟩)
  · exact List.mem_range.mpr (by omega)
  · rw [placed_i386.showPCISlotData]
    simp

lemma not_follows (hv : verifyPCIIntRoutingTable i386 mem = true) :
    ¬ Follows mem (showPCIIntRoutingTable i386 mem) := by
  obtain ⟨o, ho, hbehind⟩ := exists_read_behind hv
  exact fun h => absurd (h.read o ho) (Nat.not_lt.mpr hbehind)

/-- **No routing table is shown as its format has it**, whatever is in it. -/
theorem routing_table_not_followed (hv : verifyPCIIntRoutingTable i386 mem = true)
    (_hn : numSlots mem ≤ MAX_PCI_SLOTS) : ¬ Follows mem (showPCIIntRoutingTable i386 mem) :=
  not_follows hv

/-- A table with one slot, whose INTA can be routed to IRQ 9 through link `0x60`. -/
def oneSlot : Buf := fun k =>
  ([0x24, 0x50, 0x49, 0x52, 0x00, 0x01, 48, 0] ++ List.replicate 23 0 ++
    [0x26, 0x00, 0x38, 0x60, 0x00, 0x02]).getD k 0

theorem routing_table_not_followed_oneSlot :
    verifyPCIIntRoutingTable i386 oneSlot = true ∧ numSlots oneSlot ≤ MAX_PCI_SLOTS ∧
      ¬ Follows oneSlot (showPCIIntRoutingTable i386 oneSlot) := by
  have hv : verifyPCIIntRoutingTable i386 oneSlot = true := by decide +kernel
  have hn : numSlots oneSlot ≤ MAX_PCI_SLOTS := by decide
  exact ⟨hv, hn, routing_table_not_followed hv hn⟩

/-- IRQ 1 is shown for the IRQ 9 of the table, and the slot number is read behind the table. -/
theorem oneSlot_misread :
    verifyPCIIntRoutingTable i386 oneSlot = true ∧ numSlots oneSlot ≤ MAX_PCI_SLOTS ∧
      wordAt oneSlot 35 = 1 <<< 9 ∧
      (showPCIIntRoutingTable i386 oneSlot).value.slots.map
        (fun d => d.atoDSlotInfo.head?.map IntInfo.wIRQBitmap) = [some (1 <<< 1)] ∧
      ¬ Follows oneSlot (showPCIIntRoutingTable i386 oneSlot) := by
  have hv : verifyPCIIntRoutingTable i386 oneSlot = true := by decide +kernel
  exact ⟨hv, by decide, by decide, by decide +kernel, not_follows hv⟩

/-- Every table that is found is read behind its end; `bFound` says whether one was. -/
theorem findAndDecode_reads_behind (mem : Buf) :
    ((findAndDecodePCIInterruptRoutingTable i386 mem).1 = true ↔
        (findAndDecodePCIInterruptRoutingTable i386 mem).2 ≠ []) ∧
      ∀ t ∈ (findAndDecodePCIInterruptRoutingTable i386 mem).2,
        ∃ o ∈ t.read, t.value.wTableSize ≤ o := by
  unfold findAndDecodePCIInterruptRoutingTable
  induction List.range' 0xF0000 0x1000 16 using List.reverseRecOn with
  | nil => simp
  | append_singleton is i ih =>
    rw [List.foldl_append, List.foldl_cons, List.foldl_nil]
    dsimp only
    split_ifs with hi
    · refine ⟨by simp, fun t ht => ?_⟩
      rcases List.mem_append.mp ht with ht | ht
      · exact ih.2 t ht
      · obtain rfl := List.mem_singleton.mp ht
        obtain ⟨o, ho, hbehind⟩ := exists_read_behind hi.2
        exact ⟨o, ho, hbehind⟩
    · exact ih

/-! ### The packed structures -/

lemma slotFollows_packed (o : ℕ) :
    SlotFollows mem o (PciRouting.showPCISlotData packed mem o).value := by
  rw [placed_packed.showPCISlotData]
  refine ⟨rfl, rfl, fun k hk => ?_⟩
  refine ⟨⟨(mem (o + 2 + k * 3)).toNat, wordAt mem (o + 2 + k * 3 + 1)⟩, ?_, ?_, ?_⟩
  · rw [List.getElem?_map, List.getElem?_range hk, Option.map_some]
  · rw [Nat.mul_comm]
  · have hoff : o + 2 + k * 3 + 1 = o + 3 + 3 * k := by omega
    exact congrArg (wordAt mem) hoff

/-- With a pragma that packs the structures every table that is accepted would be shown. -/
theorem follows_packed (hv : verifyPCIIntRoutingTable packed mem = true) :
    Follows mem (showPCIIntRoutingTable packed mem) := by
  obtain ⟨-, hsize⟩ := numSlots_of_verify mem placed_packed hv
  refine ⟨fun i hi => ?_, fun o ho => ?_⟩
  · refine ⟨_, placed_packed.getElem?_slots mem hi, ?_⟩
    rw [Nat.mul_comm i 16]
    exact slotFollows_packed (32 + 16 * i)
  · rw [placed_packed.read, List.mem_append, List.mem_flatMap, List.mem_flatMap] at ho
    rcases ho with ⟨f, hf, hread⟩ | ⟨i, hi, hread⟩
    · have hlt := placed_packed.header_lt mem hf hread
      omega
    · rw [List.mem_range] at hi
      rw [placed_packed.showPCISlotData] at hread
      have hlt : o < 32 + i * 16 + 16 := by
        simp only [List.mem_append, List.mem_cons, List.mem_flatMap, List.mem_range,
          List.not_mem_nil, or_false] at hread
        omega
      omega

end

end Rtes.PciRouting
