import Mathlib.Data.List.Basic

/-!
# Tags of the game

What the mod reads of the tags of an item. `Nbt_treeFind` is the lookup of a `std::map` of the game,
which is a list of keys here. A reader that writes to its output only when it succeeds returns what
it writes.
-/

namespace McpeLauncher.ShulkerPreview

/-- A tag by its type, with the entries of a compound and the pointers of a list of compounds. Types
that nothing is read of are `other`. -/
inductive Tag where
  | byte (value : UInt8)
  | short (value : UInt16)
  | int (value : Int32)
  | list (items : List (Option (List (String × Tag))))
  | compound (entries : List (String × Tag))
  | other

abbrev Compound := List (String × Tag)
abbrev ItemList := List (Option Compound)

def treeFindNode (compound : Compound) (key : String) : Option Tag := compound.lookup key

def containsTag (compound : Compound) (key : String) : Bool := (treeFindNode compound key).isSome

def getListTag (compound : Compound) (key : String) : Option ItemList :=
  match treeFindNode compound key with
  | some (.list items) => some items
  | _ => none

def getCompoundTag (compound : Compound) (key : String) : Option Compound :=
  match treeFindNode compound key with
  | some (.compound entries) => some entries
  | _ => none

/-- The number of pointers as an `int`. -/
def listSize (list : ItemList) : Int := (Int32.ofNat list.length).toInt

def listAt (list : ItemList) (index : Int) : Option Compound :=
  if index < 0 ∨ index ≥ listSize list then none else list[index.toNat]?.join

def readIntTag (compound : Compound) (key : String) : Option Int :=
  match treeFindNode compound key with
  | some (.byte value) => some value.toNat
  | some (.short value) => some value.toNat
  | some (.int value) => some value.toInt
  | _ => none

def containsEnchantmentTag (compound : Compound) : Bool :=
  containsTag compound "ench" ||
  containsTag compound "Enchantments" ||
  containsTag compound "StoredEnchantments" ||
  containsTag compound "minecraft:enchantments" ||
  containsTag compound "minecraft:stored_enchantments"

theorem sizeOf_treeFindNode {compound : Compound} {key : String} {tag : Tag}
    (h : treeFindNode compound key = some tag) : sizeOf tag < sizeOf compound := by
  obtain ⟨before, after, hsplit, -⟩ := List.lookup_eq_some_iff.mp h
  have hmem : (key, tag) ∈ compound := hsplit ▸ List.mem_append_right before (.head after)
  refine Nat.lt_trans ?_ (List.sizeOf_lt_of_mem hmem)
  rw [Prod.mk.sizeOf_spec]
  omega

/-- A compound in a compound is a smaller one. -/
theorem sizeOf_getCompoundTag {compound nested : Compound} {key : String}
    (h : getCompoundTag compound key = some nested) : sizeOf nested < sizeOf compound := by
  rw [getCompoundTag] at h
  split at h
  next hnode =>
    cases h
    exact Nat.lt_trans (by simp) (sizeOf_treeFindNode hnode)
  next => cases h

def containsEnchantmentTagTree (compound : Compound) : Bool :=
  containsEnchantmentTag compound ||
  (match _h : getCompoundTag compound "tag" with
    | some nestedTag => containsEnchantmentTagTree nestedTag
    | none => false) ||
  match _h : getCompoundTag compound "components" with
    | some componentsTag => containsEnchantmentTagTree componentsTag
    | none => false
termination_by compound
decreasing_by all_goals exact sizeOf_getCompoundTag _h

def readBundleWeight (itemTag : Compound) : Int :=
  match getCompoundTag itemTag "tag" with
  | none => -1
  | some tagCompound => (readIntTag tagCompound "bundle_weight").getD (-1)

def readItemDamageTagValue (compound : Compound) : Option Int :=
  readIntTag compound "Damage" <|>
  readIntTag compound "damage" <|>
  readIntTag compound "minecraft:damage" <|>
  (match _h : getCompoundTag compound "tag" with
    | some nestedTag => readItemDamageTagValue nestedTag
    | none => none) <|>
  match _h : getCompoundTag compound "components" with
    | some componentsTag => readItemDamageTagValue componentsTag
    | none => none
termination_by compound
decreasing_by all_goals exact sizeOf_getCompoundTag _h

end McpeLauncher.ShulkerPreview
