import Mathlib.Algebra.Group.Nat.Defs
import Mathlib.Data.List.Induction
import Mathlib.Logic.Function.Basic
import McpeLauncher.ShulkerPreview.Nbt

/-!
# The items in a shulker box

`buildRenderDataFromNbt` fills the slots of the preview from the list of the items. What is left
of the source is the drawing.
-/

namespace McpeLauncher.ShulkerPreview

abbrev SHULKER_SLOT_COUNT : Nat := 27

structure ShulkerSlotRenderData where
  itemTag : Option Compound
  count : UInt8
  valid : Bool
  hasGlint : Bool
  damageValue : Int
  bundleWeight : Int

namespace ShulkerSlotRenderData

instance : Inhabited ShulkerSlotRenderData where
  default :=
    { itemTag := none, count := 0, valid := false, hasGlint := false, damageValue := -1,
      bundleWeight := -1 }

end ShulkerSlotRenderData

theorem toNat_lt_of_range {slotValue : Int} {count : Nat}
    (h : ¬(slotValue < 0 ∨ slotValue ≥ count)) : slotValue.toNat < count := by
  omega

abbrev Slots := Fin SHULKER_SLOT_COUNT → ShulkerSlotRenderData

def readCount (tag : Compound) : UInt8 :=
  let countValue := (readIntTag tag "Count" <|> readIntTag tag "count").getD 1
  let countValue := if countValue < 0 then 0 else countValue
  let countValue := if countValue > 255 then 255 else countValue
  UInt8.ofNat countValue.toNat

/-- The body of the loop over the list. -/
def buildSlot (slots : Slots) : Option Compound → Slots
  | none => slots
  | some tag =>
    match readIntTag tag "Slot" <|> readIntTag tag "slot" with
    | none => slots
    | some slotValue =>
      if h : slotValue < 0 ∨ slotValue ≥ SHULKER_SLOT_COUNT then slots
      else
        let index : Fin SHULKER_SLOT_COUNT := ⟨slotValue.toNat, toNat_lt_of_range h⟩
        Function.update slots index
          { itemTag := some tag
            count := readCount tag
            valid := true
            hasGlint := containsEnchantmentTagTree tag
            damageValue := (readItemDamageTagValue tag).getD (slots index).damageValue
            bundleWeight := readBundleWeight tag }

def getItemList (userData : Compound) : Option ItemList :=
  getListTag userData "Items" <|> getListTag userData "items"

def buildRenderDataFromNbt (userData : Option Compound) (slots : Slots) : Bool × Slots :=
  match userData.bind getItemList with
  | none => (false, slots)
  | some list =>
    (true, (List.range (listSize list).toNat).foldl
      (fun slots (i : Nat) => buildSlot slots (listAt list i)) fun _ => default)

/-! ## What a slot should be -/

/-- The slot that an entry names. -/
def slotOf (tag : Compound) : Option (Fin SHULKER_SLOT_COUNT) :=
  (readIntTag tag "Slot" <|> readIntTag tag "slot").bind fun slotValue =>
    if h : slotValue < 0 ∨ slotValue ≥ SHULKER_SLOT_COUNT then none
    else some ⟨slotValue.toNat, toNat_lt_of_range h⟩

/-- The entries that name a slot. -/
def entries (items : ItemList) (k : Fin SHULKER_SLOT_COUNT) : List Compound :=
  items.filterMap (Option.filter (slotOf · = some k))

/-- What an entry says about its slot. -/
def entryData (tag : Compound) : ShulkerSlotRenderData where
  itemTag := some tag
  count := readCount tag
  valid := true
  hasGlint := containsEnchantmentTagTree tag
  damageValue := (readItemDamageTagValue tag).getD (-1)
  bundleWeight := readBundleWeight tag

def slotData (items : ItemList) (k : Fin SHULKER_SLOT_COUNT) : ShulkerSlotRenderData :=
  ((entries items k).getLast?.map entryData).getD default

/-! ## What is written to a slot -/

theorem entries_append (items items' : ItemList) (k : Fin SHULKER_SLOT_COUNT) :
    entries (items ++ items') k = entries items k ++ entries items' k :=
  List.filterMap_append

/-- The damage of the last entry that has one. -/
def lastDamage (tags : List Compound) : Option Int :=
  (tags.filterMap readItemDamageTagValue).getLast?

/-- The slot after these entries for it. -/
def written (tags : List Compound) : ShulkerSlotRenderData :=
  match tags.getLast? with
  | none => default
  | some tag => { entryData tag with damageValue := (lastDamage tags).getD (-1) }

theorem lastDamage_concat (tags : List Compound) (tag : Compound) :
    lastDamage (tags ++ [tag]) = (readItemDamageTagValue tag).or (lastDamage tags) := by
  rw [lastDamage, List.filterMap_append, List.getLast?_append]
  cases h : readItemDamageTagValue tag with
  | none => simp [h, lastDamage]
  | some v => simp [h]

theorem damageValue_written (tags : List Compound) :
    (written tags).damageValue = (lastDamage tags).getD (-1) := by
  cases tags using List.reverseRecOn with
  | nil => rfl
  | append_singleton tags tag => rw [written, List.getLast?_concat]

/-- An entry writes to its slot, and leaves the damage that it finds there if it has none. -/
theorem buildSlot_some (slots : Slots) (tag : Compound) :
    buildSlot slots (some tag) = match slotOf tag with
      | none => slots
      | some index => Function.update slots index { entryData tag with
          damageValue := (readItemDamageTagValue tag).getD (slots index).damageValue } := by
  rw [buildSlot, slotOf]
  cases (readIntTag tag "Slot" <|> readIntTag tag "slot") with
  | none => rfl
  | some slotValue =>
    by_cases h : slotValue < 0 ∨ slotValue ≥ SHULKER_SLOT_COUNT
    · simp only [dif_pos h, Option.bind_some]
    · simp only [dif_neg h, Option.bind_some]
      rfl

theorem buildSlot_written {slots : Slots} {items : ItemList} {k : Fin SHULKER_SLOT_COUNT}
    (h : slots k = written (entries items k)) (item : Option Compound) :
    buildSlot slots item k = written (entries (items ++ [item]) k) := by
  rw [entries_append]
  cases item with
  | none => simp [buildSlot, h, entries]
  | some tag =>
    have htag : entries [some tag] k = if slotOf tag = some k then [tag] else [] := by
      by_cases hslot : slotOf tag = some k <;> simp [entries, Option.filter, hslot]
    rw [buildSlot_some, htag]
    cases hslot : slotOf tag with
    | none => simp [h]
    | some index =>
      by_cases hk : index = k
      · subst hk
        simp only [Function.update_self, if_true]
        rw [written, List.getLast?_concat, h, damageValue_written, lastDamage_concat]
        cases readItemDamageTagValue tag <;> rfl
      · rw [if_neg (fun h => hk (Option.some.inj h)), List.append_nil, ← h]
        exact Function.update_of_ne (Ne.symm hk) _ _

/-- The loop writes to a slot what the entries that name it say. -/
theorem foldl_buildSlot (items : ItemList) (k : Fin SHULKER_SLOT_COUNT) :
    items.foldl buildSlot (fun _ => default) k = written (entries items k) := by
  induction items using List.reverseRecOn with
  | nil => rfl
  | append_singleton items item ih => rw [List.foldl_concat]; exact buildSlot_written ih item

/-! ## The entries that are visited -/

def visited (items : ItemList) : ItemList := items.take (listSize items).toNat

theorem listSize_le (items : ItemList) : listSize items ≤ items.length := by
  rw [listSize, Int32.toInt_ofNat', show Int32.size = 2 ^ 32 from rfl, Int.bmod_def]
  split <;> omega

theorem listSize_of_lt {items : ItemList} (h : items.length < 2 ^ 31) :
    listSize items = items.length := by
  rw [listSize, Int32.toInt_ofNat', show Int32.size = 2 ^ 32 from rfl]
  exact Int.bmod_eq_of_le (by omega) (by omega)

theorem map_listAt (items : ItemList) :
    (List.range (listSize items).toNat).map (fun i : Nat => listAt items i) = visited items := by
  have hle := listSize_le items
  refine List.ext_getElem ?_ fun i hi hi' => ?_
  · rw [List.length_map, List.length_range, visited, List.length_take]
    omega
  · rw [List.length_map, List.length_range] at hi
    have hlength : i < items.length := by omega
    rw [List.getElem_map, List.getElem_range, listAt, if_neg (by omega), Int.toNat_natCast,
      List.getElem?_eq_getElem hlength]
    simp [visited]

/-! ## One entry decides -/

theorem buildRenderDataFromNbt_eq {userData : Compound} {items : ItemList}
    (h : getItemList userData = some items) (slots : Slots) (k : Fin SHULKER_SLOT_COUNT) :
    (buildRenderDataFromNbt (some userData) slots).2 k = written (entries (visited items) k) := by
  have hbind : (some userData).bind getItemList = some items := h
  rw [buildRenderDataFromNbt, hbind, ← foldl_buildSlot, ← map_listAt, List.foldl_map]

/-- The entries behind those that are visited do not change which one is the last for a slot. -/
def AllVisited (items : ItemList) (k : Fin SHULKER_SLOT_COUNT) : Prop :=
  (entries (visited items) k).getLast? = (entries items k).getLast?

theorem allVisited_of_lt {items : ItemList} (h : items.length < 2 ^ 31)
    (k : Fin SHULKER_SLOT_COUNT) : AllVisited items k := by
  rw [AllVisited, visited, listSize_of_lt h, Int.toNat_natCast, List.take_length]

/-- If the last entry has no damage, there is none left from an earlier one. -/
def NoDamageLeft (tags : List Compound) : Prop :=
  ∀ tag v, tags.getLast? = some tag → readItemDamageTagValue tag = none →
    lastDamage tags = some v → v = -1

theorem itemTag_written (tags : List Compound) : (written tags).itemTag = tags.getLast? := by
  cases tags using List.reverseRecOn with
  | nil => rfl
  | append_singleton tags tag => rw [written, List.getLast?_concat]; rfl

theorem itemTag_slotData (items : ItemList) (k : Fin SHULKER_SLOT_COUNT) :
    (slotData items k).itemTag = (entries items k).getLast? := by
  rw [slotData]
  cases (entries items k).getLast? <;> rfl

theorem written_eq_iff (tags : List Compound) :
    written tags = (tags.getLast?.map entryData).getD default ↔ NoDamageLeft tags := by
  cases tags using List.reverseRecOn with
  | nil => exact iff_of_true rfl fun _ _ h => nomatch h
  | append_singleton tags tag =>
    have hfields (a b : Int) : { entryData tag with damageValue := a } =
        { entryData tag with damageValue := b } ↔ a = b :=
      ⟨congrArg ShulkerSlotRenderData.damageValue, fun h => h ▸ rfl⟩
    rw [written, NoDamageLeft, List.getLast?_concat, lastDamage_concat]
    refine (hfields _ ((readItemDamageTagValue tag).getD (-1))).trans ?_
    cases hdamage : readItemDamageTagValue tag with
    | some v =>
      refine iff_of_true rfl fun tag' _ htag hnone => ?_
      rw [← Option.some.inj htag, hdamage] at hnone
      cases hnone
    | none =>
      rw [Option.none_or, Option.getD_none]
      constructor
      · intro h tag' v _ _ hv
        rwa [hv, Option.getD_some] at h
      · intro h
        cases hv : lastDamage tags with
        | none => rfl
        | some v => exact h tag v rfl hdamage hv

/-- A slot depends on the last entry that names it exactly if this entry is visited, and has a
damage or finds none. -/
theorem slot_eq_iff {userData : Compound} {items : ItemList}
    (h : getItemList userData = some items) (slots : Slots) (k : Fin SHULKER_SLOT_COUNT) :
    (buildRenderDataFromNbt (some userData) slots).2 k = slotData items k ↔
      AllVisited items k ∧ NoDamageLeft (entries (visited items) k) := by
  rw [buildRenderDataFromNbt_eq h, ← written_eq_iff]
  constructor
  · intro heq
    have hlast : AllVisited items k := by
      rw [AllVisited, ← itemTag_written, heq, itemTag_slotData]
    exact ⟨hlast, by rw [heq, slotData, hlast]⟩
  · rintro ⟨hlast, heq⟩
    rw [heq, slotData, hlast]

/-- Two tools in one slot, the first of which is damaged. -/
def twoTools (second : Compound) : ItemList :=
  [some [("Slot", .byte 3), ("Damage", .int 5)], some (("Slot", .byte 3) :: second)]

theorem entries_twoTools (second : Compound) : entries (visited (twoTools second)) 3 =
    [[("Slot", .byte 3), ("Damage", .int 5)], ("Slot", .byte 3) :: second] := rfl

theorem readItemDamageTagValue_damage {tag : Compound} {v : Int}
    (h : readIntTag tag "Damage" = some v) : readItemDamageTagValue tag = some v := by
  rw [readItemDamageTagValue, h]
  rfl

theorem slot_twoDamaged :
    (buildRenderDataFromNbt (some [("items", .list (twoTools [("Damage", .short 9)]))])
      fun _ => default).2 3 = slotData (twoTools [("Damage", .short 9)]) 3 := by
  refine (slot_eq_iff rfl _ _).mpr ⟨allVisited_of_lt (by decide) 3, ?_⟩
  rw [entries_twoTools]
  intro tag v htag hnone
  cases htag
  rw [readItemDamageTagValue_damage rfl] at hnone
  cases hnone

/-- A tool without damage is drawn with that of the tool before it. -/
theorem slot_firstDamaged :
    ((buildRenderDataFromNbt (some [("Items", .list (twoTools []))])
      fun _ => default).2 3).damageValue = 5 ∧
    ¬ ∀ (userData : Compound) (items : ItemList) (slots : Slots) (k : Fin SHULKER_SLOT_COUNT),
      getItemList userData = some items →
        (buildRenderDataFromNbt (some userData) slots).2 k = slotData items k := by
  have hfirst : readItemDamageTagValue [("Slot", .byte 3), ("Damage", .int 5)] = some 5 :=
    readItemDamageTagValue_damage rfl
  have hsecond : readItemDamageTagValue [("Slot", .byte 3)] = none := by
    rw [readItemDamageTagValue]
    rfl
  have hdamage : ((buildRenderDataFromNbt (some [("Items", .list (twoTools []))])
      fun _ => default).2 3).damageValue = 5 := by
    rw [buildRenderDataFromNbt_eq rfl, entries_twoTools, damageValue_written, lastDamage,
      List.filterMap_cons, hfirst, List.filterMap_cons, hsecond]
    rfl
  refine ⟨hdamage, fun h => ?_⟩
  have hslot := congrArg ShulkerSlotRenderData.damageValue
    (h [("Items", .list (twoTools []))] (twoTools []) (fun _ => default) 3 rfl)
  have hlast : (slotData (twoTools []) 3).damageValue =
      (readItemDamageTagValue [("Slot", .byte 3)]).getD (-1) := rfl
  rw [hdamage, hlast, hsecond] at hslot
  cases hslot

end McpeLauncher.ShulkerPreview
