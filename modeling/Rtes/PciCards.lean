import Rtes.PciModel

/-!
Where the two capture cards end up.

`FillPCIDev` keeps them apart: the first Bt878 in slot order takes the entry of card 1 and the
second one that of card 2. But it leaves `index` at zero, so the second lookup of
`findBusDevFunNo` is for the first Bt878 in both entries.
-/

namespace Rtes.PciCards

open Rtes.FirstFree Rtes.PciModel

/-- The words an entry of the table is for. -/
def key (e : DevType) : ℕ × ℕ := (e.uiVenId, e.uiDevId)

/-- The words in a slot. -/
def words (pop : Population) (l : ℕ × ℕ) : ℕ × ℕ := pop l.1 l.2

def bt878 : ℕ × ℕ := (PCI_VENDOR_ID_BROOKTREE, PCI_DEVICE_ID_BT878)

/-- The places of the Bt878 devices. -/
def bt878s (pop : Population) : List (ℕ × ℕ) := withKey (words pop) bt878 slots

/-! ### The table -/

/-- The table after the slots `ls`. -/
def table (pop : Population) (ls : List (ℕ × ℕ)) : List (DevType × Bool) :=
  after key devTypes (fun k => (withKey (words pop) k ls).length) ++ [(nullDevType, false)]

/-- Before the entry that ends the table, the lookup takes the first free entry. -/
lemma findNextDevTypeInList_append {ven dev : ℕ} {f : Bool} {tbl : List (DevType × Bool)}
    (h : ∀ e ∈ tbl, e.1.pDevDescString.isSome) :
    findNextDevTypeInList ven dev (tbl ++ [(nullDevType, f)]) =
      (takeFirst key (ven, dev) tbl).map fun r => (r.1, r.2 ++ [(nullDevType, f)]) := by
  induction tbl with
  | nil => rfl
  | cons e tbl ih =>
    obtain ⟨e, g⟩ := e
    rw [List.forall_mem_cons] at h
    rw [List.cons_append, findNextDevTypeInList, takeFirst, ih h.2]
    have hkey : (e.uiVenId = ven ∧ e.uiDevId = dev ∧ g = false) ↔
        (key e = (ven, dev) ∧ g = false) := by
      simp [key, and_assoc]
    simp only [hkey, h.1, or_true, if_true]
    split_ifs
    · rfl
    · simp [Option.map_map, Function.comp_def]

/-- What the entry of the table does for a slot with the words `k`. -/
def place (k l : ℕ × ℕ) (d : PciDevBusName) : PciDevBusName :=
  { d with venId := k.1, devId := k.2, busNo := l.1, deviceNo := l.2 }

/-- The entry that the next slot with the words `k` takes, after the slots `ls`. -/
def next (pop : Population) (ls : List (ℕ × ℕ)) (k : ℕ × ℕ) : Option DevType :=
  (withKey key k devTypes)[(withKey (words pop) k ls).length]?

lemma table_nil (pop : Population) : table pop [] = asDefDevtype := by
  change after key devTypes (fun _ => 0) ++ _ = _
  rw [after_zero]
  rfl

lemma count_append (pop : Population) (ls : List (ℕ × ℕ)) (l : ℕ × ℕ) :
    (fun k => (withKey (words pop) k (ls ++ [l])).length) =
      Function.update (fun k => (withKey (words pop) k ls).length) (words pop l)
        ((withKey (words pop) (words pop l) ls).length + 1) := by
  funext k
  by_cases hk : k = words pop l
  · subst hk
    simp [withKey_append_singleton]
  · simp [withKey_append_singleton, Function.update_of_ne hk, Ne.symm hk]

lemma findNextDevTypeInList_table (pop : Population) (ls : List (ℕ × ℕ)) (l : ℕ × ℕ) :
    findNextDevTypeInList (words pop l).1 (words pop l).2 (table pop ls) =
      (next pop ls (words pop l)).map fun e => (e, table pop (ls ++ [l])) := by
  have hsome : ∀ e ∈ devTypes, e.pDevDescString.isSome := by decide
  rw [table, findNextDevTypeInList_append fun e he => hsome _ (fst_mem_of_mem_after he),
    takeFirst_after, Option.map_map, table, count_append]
  rfl

lemma table_append_of_none {pop : Population} {ls : List (ℕ × ℕ)} {l : ℕ × ℕ}
    (h : next pop ls (words pop l) = none) : table pop (ls ++ [l]) = table pop ls := by
  rw [table, count_append, after_update_of_none h, table]

/-- There is no entry for an empty slot. -/
lemma next_of_empty {pop : Population} {ls : List (ℕ × ℕ)} {k : ℕ × ℕ} (hk : k.1 = 0xffff) :
    next pop ls k = none := by
  have hno : ∀ e ∈ devTypes, key e ≠ k := by
    have hven : ∀ e ∈ devTypes, e.uiVenId ≠ 0xffff := by decide
    rintro e he rfl
    exact hven e he hk
  have hnil : withKey key k devTypes = [] :=
    List.filter_eq_nil_iff.mpr fun e he => by simpa using hno e he
  rw [next, hnil, List.getElem?_nil]

/-- **One slot**: it takes the next entry for its words, and its place goes where this entry
says. -/
lemma fillSlot_table (pop : Population) (ls : List (ℕ × ℕ)) (l : ℕ × ℕ) (dev : PciDev) :
    fillSlot pop (table pop ls, dev) l.1 l.2 =
      (table pop (ls ++ [l]), match next pop ls (words pop l) with
        | some e => Function.update dev e.enDevType (place (words pop l) l (dev e.enDevType))
        | none => dev) := by
  have hfind : findNextDevTypeInList (pop l.1 l.2).1 (pop l.1 l.2).2 (table pop ls) = _ :=
    findNextDevTypeInList_table pop ls l
  unfold fillSlot
  cases hn : next pop ls (words pop l) with
  | none =>
    rw [hn, Option.map_none] at hfind
    rw [table_append_of_none hn]
    simp only [hfind, ite_self]
  | some e =>
    have hne : (words pop l).1 ≠ 0xffff := fun he => by simp [next_of_empty he] at hn
    rw [hn, Option.map_some] at hfind
    simp only [hfind]
    exact if_pos hne

/-! ### The scan -/

/-- The state of the scan after the slots `ls`. -/
def scan (pop : Population) (ls : List (ℕ × ℕ)) (dev : PciDev) : List (DevType × Bool) × PciDev :=
  ls.foldl (fun s l => fillSlot pop s l.1 l.2) (asDefDevtype, dev)

lemma scan_append (pop : Population) (ls : List (ℕ × ℕ)) (l : ℕ × ℕ) (dev : PciDev) :
    scan pop (ls ++ [l]) dev = fillSlot pop (scan pop ls dev) l.1 l.2 := by
  rw [scan, List.foldl_append]
  rfl

lemma fillPCIDev_eq_scan (pop : Population) (dev : PciDev) :
    fillPCIDev true pop dev = (scan pop slots dev).2 := by
  simp only [fillPCIDev, scan, slots, List.foldl_flatMap, List.foldl_map, if_true]

lemma scan_fst (pop : Population) (ls : List (ℕ × ℕ)) (dev : PciDev) :
    (scan pop ls dev).1 = table pop ls := by
  induction ls using List.reverseRecOn with
  | nil => exact (table_nil pop).symm
  | append_singleton ls l ih =>
    rw [scan_append, ← Prod.mk.eta (p := scan pop ls dev), ih, fillSlot_table]

/-- **A device whose type has one entry**, the `r`-th one for the words `k`, is the one in the
`r`-th slot with these words. -/
theorem scan_snd {pop : Population} {dev : PciDev} {d : DeviceType} {k : ℕ × ℕ} {r : ℕ}
    (hd : ∀ k' n, ∀ e ∈ (withKey key k' devTypes)[n]?, e.enDevType = d → k' = k ∧ n = r)
    (hr : ∃ e ∈ (withKey key k devTypes)[r]?, e.enDevType = d) (ls : List (ℕ × ℕ)) :
    (scan pop ls dev).2 d = match (withKey (words pop) k ls)[r]? with
      | some l => place k l (dev d)
      | none => dev d := by
  induction ls using List.reverseRecOn with
  | nil => rfl
  | append_singleton ls l ih =>
    rw [scan_append, ← Prod.mk.eta (p := scan pop ls dev), scan_fst, fillSlot_table]
    by_cases hl : words pop l = k ∧ (withKey (words pop) k ls).length = r
    · -- the slot is the one that the entry is for
      obtain ⟨rfl, rfl⟩ := hl
      obtain ⟨e, he, rfl⟩ := hr
      have hget : (withKey (words pop) (words pop l) (ls ++ [l]))[
          (withKey (words pop) (words pop l) ls).length]? = some l := by
        simp [withKey_append_singleton]
      rw [List.getElem?_eq_none le_rfl] at ih
      rw [hget, next, he]
      simp [ih]
    · -- another slot changes neither the entry of `d` nor the `r`-th slot
      have hget : (withKey (words pop) k (ls ++ [l]))[r]? = (withKey (words pop) k ls)[r]? := by
        rw [withKey_append_singleton]
        split_ifs with hk
        · obtain hlt | hgt := Nat.lt_or_gt_of_ne fun h => hl ⟨hk, h⟩
          · rw [List.getElem?_eq_none (by simpa using hlt), List.getElem?_eq_none hlt.le]
          · rw [List.getElem?_append_left hgt]
        · rw [List.append_nil]
      rw [hget, ← ih]
      cases hn : next pop ls (words pop l) with
      | none => rfl
      | some e =>
        refine Function.update_of_ne (fun he => hl ?_) _ _
        obtain ⟨rfl, hr'⟩ := hd _ _ e hn he.symm
        exact ⟨rfl, hr'⟩

/-! ### The cards -/

lemma withKey_bt878 : withKey key bt878 devTypes =
    [⟨.captureVideoCard1, bt878.1, bt878.2, "Capture Card 1: BT878"⟩,
      ⟨.captureVideoCard2, bt878.1, bt878.2, "Capture Card 2: BT878"⟩] := by
  decide

/-- The entries of the cards are the first and the second one for a Bt878, and no others. -/
lemma card_entry {k : ℕ × ℕ} {n : ℕ} {e : DevType} (he : e ∈ (withKey key k devTypes)[n]?) :
    (e.enDevType = .captureVideoCard1 → k = bt878 ∧ n = 0) ∧
      (e.enDevType = .captureVideoCard2 → k = bt878 ∧ n = 1) := by
  have hcard : ∀ e ∈ devTypes,
      e.enDevType = .captureVideoCard1 ∨ e.enDevType = .captureVideoCard2 → key e = bt878 := by
    decide
  obtain ⟨hmem, hkey⟩ := List.mem_filter.mp (List.mem_of_getElem? he)
  by_cases hk : k = bt878
  · subst hk
    rw [withKey_bt878] at he
    match n, he with
    | 0, rfl => simp
    | 1, rfl => simp
  · have hne : key e ≠ bt878 := fun h => hk (of_decide_eq_true hkey ▸ h)
    exact ⟨fun h => absurd (hcard e hmem (.inl h)) hne, fun h => absurd (hcard e hmem (.inr h)) hne⟩

lemma fillPCIDev_card1 (pop : Population) (dev : PciDev) :
    fillPCIDev true pop dev .captureVideoCard1 = match (bt878s pop)[0]? with
      | some l => place bt878 l (dev .captureVideoCard1)
      | none => dev .captureVideoCard1 := by
  rw [fillPCIDev_eq_scan]
  exact scan_snd (fun _ _ _ he => (card_entry he).1) ⟨_, by rw [withKey_bt878]; rfl, rfl⟩ slots

lemma fillPCIDev_card2 (pop : Population) (dev : PciDev) :
    fillPCIDev true pop dev .captureVideoCard2 = match (bt878s pop)[1]? with
      | some l => place bt878 l (dev .captureVideoCard2)
      | none => dev .captureVideoCard2 := by
  rw [fillPCIDev_eq_scan]
  exact scan_snd (fun _ _ _ he => (card_entry he).2) ⟨_, by rw [withKey_bt878]; rfl, rfl⟩ slots

/-- The place that an entry of `PCI_DEV` holds. -/
def loc (d : PciDevBusName) : ℕ × ℕ := (d.busNo, d.deviceNo)

/-- The entries of the two cards are the places of two Bt878 devices. -/
def Apart (pop : Population) (dev : PciDev) : Prop :=
  loc (dev .captureVideoCard1) ≠ loc (dev .captureVideoCard2) ∧
    loc (dev .captureVideoCard1) ∈ bt878s pop ∧ loc (dev .captureVideoCard2) ∈ bt878s pop

lemma nodup_slots : slots.Nodup := by
  change (List.range 10 ×ˢ List.range 32).Nodup
  exact List.nodup_range.product List.nodup_range

lemma bt878s_eq_cons {pop : Population} (h : 2 ≤ (bt878s pop).length) :
    ∃ l₁ l₂ ls, bt878s pop = l₁ :: l₂ :: ls := by
  match bt878s pop, h with
  | l₁ :: l₂ :: ls, _ => exact ⟨l₁, l₂, ls, rfl⟩

/-- `FillPCIDev` keeps the cards apart. -/
theorem apart_fillPCIDev {pop : Population} (dev : PciDev) (h : 2 ≤ (bt878s pop).length) :
    Apart pop (fillPCIDev true pop dev) := by
  obtain ⟨l₁, l₂, ls, hls⟩ := bt878s_eq_cons h
  have hnodup : (bt878s pop).Nodup := List.Nodup.filter _ nodup_slots
  have h₁ : loc (fillPCIDev true pop dev .captureVideoCard1) = l₁ := by
    rw [fillPCIDev_card1, hls]
    rfl
  have h₂ : loc (fillPCIDev true pop dev .captureVideoCard2) = l₂ := by
    rw [fillPCIDev_card2, hls]
    rfl
  rw [hls] at hnodup
  rw [Apart, h₁, h₂, hls]
  refine ⟨?_, by simp, by simp⟩
  rintro rfl
  simp at hnodup

/-- What is assumed of VxWorks: `pciFindDevice` gives the place of the `index`-th device with these
words, in the order of the slots. -/
def FindsInOrder (pciFindDevice : FindDevice) (pop : Population) : Prop :=
  ∀ venId devId index, (pciFindDevice venId devId index).map (fun r => (r.1, r.2.1)) =
    (withKey (words pop) (venId, devId) slots)[index]?

section

variable {pciFindDevice : FindDevice}

/-- Two entries with the same words and index end up at the same place. -/
lemma loc_findBusDevFunNo {dev : PciDev} {i j : DeviceType}
    (hwords : (dev i).venId = (dev j).venId ∧ (dev i).devId = (dev j).devId)
    (hindex : (dev i).index = (dev j).index)
    (hfind : pciFindDevice (dev j).venId (dev j).devId (dev j).index ≠ none ∨
      loc (dev i) = loc (dev j)) :
    loc (findBusDevFunNo pciFindDevice dev i) = loc (findBusDevFunNo pciFindDevice dev j) := by
  simp only [findBusDevFunNo, hwords, hindex]
  cases hp : pciFindDevice (dev j).venId (dev j).devId (dev j).index with
  | none => exact hfind.resolve_left (not_not_intro hp)
  | some l => rfl

/-- The first Bt878 is found. -/
lemma find_bt878 {pop : Population} (hvx : FindsInOrder pciFindDevice pop)
    (h : bt878s pop ≠ []) : pciFindDevice bt878.1 bt878.2 0 ≠ none := by
  intro hnone
  have hfirst := hvx bt878.1 bt878.2 0
  rw [hnone, Option.map_none, eq_comm, List.getElem?_eq_none_iff] at hfirst
  exact h (List.eq_nil_of_length_eq_zero (Nat.le_zero.mp hfirst))

/-- **The cards end up at one place**: whatever is on the buses, with two or more Bt878 devices
`initializePCI_DEV` does not keep the cards apart. -/
theorem not_apart_initializePciDev (init : Bool) {pop : Population}
    (hvx : FindsInOrder pciFindDevice pop) (dev : PciDev) (h : 2 ≤ (bt878s pop).length) :
    ¬ Apart pop (initializePciDev pciFindDevice init pop dev).1 := by
  suffices hloc : loc ((initializePciDev pciFindDevice init pop dev).1 .captureVideoCard1) =
      loc ((initializePciDev pciFindDevice init pop dev).1 .captureVideoCard2) from
    fun ha => ha.1 hloc
  cases init with
  | false => exact loc_findBusDevFunNo ⟨rfl, rfl⟩ rfl (.inr rfl)
  | true =>
    have h₁ := fillPCIDev_card1 pop (clear dev)
    have h₂ := fillPCIDev_card2 pop (clear dev)
    obtain ⟨l₁, l₂, ls, hls⟩ := bt878s_eq_cons h
    rw [hls] at h₁ h₂
    refine loc_findBusDevFunNo ?_ ?_ (.inl ?_)
    · rw [h₁, h₂]
      exact ⟨rfl, rfl⟩
    · rw [h₁, h₂]
      rfl
    · -- both lookups are for the first Bt878
      rw [h₂]
      exact find_bt878 hvx (by simp [hls])

end

/-- A `pciFindDevice` of that kind, for functions with the number 0. -/
def inOrder (pop : Population) : FindDevice := fun venId devId index =>
  (withKey (words pop) (venId, devId) slots)[index]?.map fun l => (l.1, l.2, 0)

lemma findsInOrder_inOrder (pop : Population) : FindsInOrder (inOrder pop) pop := by
  intro venId devId index
  rw [inOrder, Option.map_map]
  exact congrFun Option.map_id _

/-- Capture cards at devices 9 and 10 of bus 0. -/
def twoCards : Population := fun busNo deviceNo =>
  if busNo = 0 ∧ (deviceNo = 9 ∨ deviceNo = 10) then bt878 else (0xffff, 0xffff)

/-- `initializePCI_DEV` with these cards. -/
def twoCardsDev : PciDev :=
  (initializePciDev (inOrder twoCards) true twoCards fun _ => ⟨0, 0, 0, 0, 0, 0, false⟩).1

theorem not_apart_initializePciDev_twoCards :
    (bt878s twoCards).length = 2 ∧ FindsInOrder (inOrder twoCards) twoCards ∧
      ¬ Apart twoCards twoCardsDev := by
  have hlen : (bt878s twoCards).length = 2 := by decide +kernel
  have hvx := findsInOrder_inOrder twoCards
  exact ⟨hlen, hvx, not_apart_initializePciDev true hvx _ hlen.ge⟩

theorem same_place_twoCards :
    bt878s twoCards = [(0, 9), (0, 10)] ∧ ¬ Apart twoCards twoCardsDev := by
  have hloc : loc (twoCardsDev .captureVideoCard1) = (0, 9) ∧
      loc (twoCardsDev .captureVideoCard2) = (0, 9) := by
    decide +kernel
  exact ⟨by decide +kernel, fun h => h.1 (hloc.1.trans hloc.2.symm)⟩

end Rtes.PciCards
