import Retarget.Proofs.ClassFile.PoolRegistry
import Retarget.Proofs.ClassFile.SlotWalk

/-!
Locations as cells. Putting an index at a location is read back there, and
nowhere else: every location apart from it keeps its index. Two locations in
one attribute are apart if their bytes are.
-/

set_option autoImplicit false

namespace Retarget

theorem size_blit (target : Array UInt8) (i : Nat) (bytes : Bytes) :
    (blit target i bytes).size = target.size := by
  induction bytes generalizing target i with
  | nil => rfl
  | cons b bytes ih => rw [blit, ih, Array.size_setIfInBounds]

theorem getElem?_blit (target : Array UInt8) (i : Nat) (bytes : Bytes) (k : Nat) :
    (blit target i bytes)[k]? =
      if i ≤ k ∧ k < i + bytes.length ∧ k < target.size then bytes[k - i]? else target[k]? := by
  induction bytes generalizing target i with
  | nil =>
    rw [blit, if_neg]
    simp only [List.length_nil]
    omega
  | cons b bytes ih =>
    rw [blit, ih, Array.size_setIfInBounds, List.length_cons]
    by_cases hlater : i + 1 ≤ k ∧ k < i + 1 + bytes.length ∧ k < target.size
    · have hk : k - i = k - (i + 1) + 1 := by omega
      rw [if_pos hlater, if_pos (by omega), hk, List.getElem?_cons_succ]
    · rw [if_neg hlater, Array.getElem?_setIfInBounds]
      by_cases hi : i = k
      · subst hi
        by_cases hsize : i < target.size
        · rw [if_pos rfl, if_pos hsize, if_pos (by omega), Nat.sub_self, List.getElem?_cons_zero]
        · rw [if_pos rfl, if_neg hsize, if_neg (by omega), Array.getElem?_eq_none (by omega)]
      · rw [if_neg hi, if_neg (by omega)]

theorem slice_eq (data : Array UInt8) (offset n : Nat) :
    slice data offset n = if offset + n ≤ data.size then .ok ((data.toList.drop offset).take n)
      else .error .outOfBounds := by
  simp [slice, List.extract_eq_take_drop]

namespace Attribute

variable {a a' : Attribute} {slots : List Slot} {offset offset' : Nat} {index : UInt16}

theorem wordAt_ok_iff : (∃ word, a.wordAt offset = .ok word) ↔ offset + 2 ≤ a.content.size := by
  rw [wordAt, slice_eq]
  by_cases h : offset + 2 ≤ a.content.size <;> simp [h]

private theorem wordAt_congr (hsize : a'.content.size = a.content.size)
    (h : ∀ k, k = offset ∨ k = offset + 1 → a'.content[k]? = a.content[k]?) :
    a'.wordAt offset = a.wordAt offset := by
  have hbytes : (a'.content.toList.drop offset).take 2 = (a.content.toList.drop offset).take 2 := by
    apply List.ext_getElem?
    intro k
    rw [List.getElem?_take, List.getElem?_take]
    by_cases hk : k < 2
    · rw [if_pos hk, if_pos hk, List.getElem?_drop, List.getElem?_drop, Array.getElem?_toList,
        Array.getElem?_toList]
      exact h _ (by omega)
    · rw [if_neg hk, if_neg hk]
  rw [wordAt, wordAt, slice_eq, slice_eq, hsize, hbytes]

theorem content_place (offset : Nat) (index : UInt16) (a : Attribute) {k : Nat}
    (h : k < offset ∨ offset + 2 ≤ k) : (a.place offset index).content[k]? = a.content[k]? := by
  rw [place, getElem?_blit, if_neg]
  rw [Bytes.length_ofUInt16]
  omega

private theorem wordAt_place_of_apart (h : offset + 2 ≤ offset' ∨ offset' + 2 ≤ offset) :
    (a.place offset index).wordAt offset' = a.wordAt offset' := by
  refine wordAt_congr (size_blit _ _ _) fun k hk => ?_
  exact content_place offset index a (by omega)

theorem wordAt_place_self (h : offset + 2 ≤ a.content.size) :
    (a.place offset index).wordAt offset = .ok index := by
  have hlen := Bytes.length_ofUInt16 index
  have hbytes : ((blit a.content offset (Bytes.ofUInt16 index)).toList.drop offset).take 2 =
      Bytes.ofUInt16 index := by
    apply List.ext_getElem?
    intro k
    rw [List.getElem?_take]
    by_cases hk : k < 2
    · rw [if_pos hk, List.getElem?_drop, Array.getElem?_toList, getElem?_blit,
        if_pos (by omega), Nat.add_sub_cancel_left]
    · rw [if_neg hk, List.getElem?_eq_none (by omega)]
  rw [wordAt, slice_eq, place, size_blit, if_pos h, hbytes]
  have hlt : index.toNat < Bytes.span 2 := index.toNat_lt
  simp only [Bytes.ofUInt16, Bytes.value_ofNat]
  rw [Nat.mod_eq_of_lt hlt, UInt16.ofNat_toNat]

theorem SameBut.refl (slots : List Slot) (a : Attribute) : SameBut slots a a :=
  ⟨rfl, rfl, fun _ _ => rfl⟩

theorem SameBut.place (h : SameBut slots a a') {s : Slot} (hs : s ∈ slots) (index : UInt16) :
    SameBut slots a (a'.place s.offset index) where
  name := h.name
  size := (size_blit _ _ _).trans h.size
  content k hk := by
    have hout : k < s.offset ∨ s.offset + 2 ≤ k := by
      have := hk s hs
      simp only [Slot.Covers] at this
      omega
    rw [content_place _ _ _ hout, h.content k hk]

end Attribute

def Location.Apart : Location → Location → Prop
  | .slot owner position offset, .slot owner' position' offset' =>
    (owner, position) ≠ (owner', position') ∨ offset + 2 ≤ offset' ∨ offset' + 2 ≤ offset
  | location, location' => location ≠ location'

theorem Location.Apart.symm {location location' : Location} (h : location.Apart location') :
    location'.Apart location := by
  cases location <;> cases location'
  case slot.slot =>
    rcases h with hplace | hafter | hbefore
    · exact .inl hplace.symm
    · exact .inr (.inr hafter)
    · exact .inr (.inl hbefore)
  all_goals exact Ne.symm h

namespace ClassFile

variable {c : ClassFile} {location location' : Location} {index text : UInt16}

theorem memberAt_eq_ok_iff {members : Array Member} {position : Nat} {m : Member} :
    memberAt members position = .ok m ↔ members[position]? = some m := by
  unfold memberAt
  split <;> simp_all

theorem attributeIn_eq_ok_iff {attributes : Array Attribute} {position : Nat} {a : Attribute} :
    attributeIn attributes position = .ok a ↔ attributes[position]? = some a := by
  unfold attributeIn
  split <;> simp_all

private theorem memberAt_modify (members : Array Member) (i j : Nat) (f : Member → Member) :
    memberAt (members.modify i f) j =
      if i = j then (memberAt members j).map f else memberAt members j := by
  simp only [memberAt, Array.getElem?_modify]
  by_cases hij : i = j
  · rw [if_pos hij, if_pos hij]
    cases members[j]? <;> rfl
  · rw [if_neg hij, if_neg hij]

private theorem attributeIn_modify (attributes : Array Attribute) (i j : Nat)
    (f : Attribute → Attribute) :
    attributeIn (attributes.modify i f) j =
      if i = j then (attributeIn attributes j).map f else attributeIn attributes j := by
  simp only [attributeIn, Array.getElem?_modify]
  by_cases hij : i = j
  · rw [if_pos hij, if_pos hij]
    cases attributes[j]? <;> rfl
  · rw [if_neg hij, if_neg hij]

private theorem attributesOf_modifyAttribute (owner owner' : Owner) (position : Nat)
    (f : Attribute → Attribute) (c : ClassFile) :
    (c.modifyAttribute owner position f).attributesOf owner' =
      if owner = owner' then (c.attributesOf owner').map (·.modify position f)
      else c.attributesOf owner' := by
  cases owner <;> cases owner' <;> simp only [modifyAttribute, attributesOf, reduceCtorEq, if_false,
    if_true, Except.map, Owner.field.injEq, Owner.method.injEq]
  all_goals
    rw [memberAt_modify]
    split_ifs
    · cases memberAt _ _ <;> rfl
    · rfl

private theorem attributeAt_modifyAttribute (owner owner' : Owner) (position position' : Nat)
    (f : Attribute → Attribute) (c : ClassFile) :
    (c.modifyAttribute owner position f).attributeAt owner' position' =
      if (owner, position) = (owner', position') then (c.attributeAt owner' position').map f
      else c.attributeAt owner' position' := by
  rw [attributeAt, attributesOf_modifyAttribute, attributeAt]
  by_cases howner : owner = owner'
  · subst howner
    rw [if_pos rfl]
    cases c.attributesOf owner with
    | error fault => split_ifs <;> rfl
    | ok attributes =>
      show attributeIn (attributes.modify position f) position' = _
      rw [attributeIn_modify]
      simp only [Prod.mk.injEq, true_and]
      rfl
  · rw [if_neg howner, if_neg (fun h => howner (congrArg Prod.fst h))]

theorem indexAt_slot (c : ClassFile) (owner : Owner) (position offset : Nat) :
    c.indexAt (.slot owner position offset) =
      (c.attributeAt owner position).bind (Attribute.wordAt offset) := rfl

theorem indexAt_constant_eq_ok_iff {i : UInt16} : c.indexAt (.constant i) = .ok index ↔
    ∃ e kind, c.pool.entries[i.toNat]? = some e ∧ e.symbol? = some (index, kind) := by
  show Except.bind (c.pool.get i) _ = _ ↔ _
  simp only [Pool.get]
  cases c.pool.entries[i.toNat]? with
  | none => simp [Except.bind]
  | some e => cases e <;> simp [Except.bind, Constant.symbol?, pure, Except.pure, throw, throwThe,
      MonadExceptOf.throw]

private theorem indexAt_constant_relink (c : ClassFile) (i j text : UInt16) :
    (c.place (.constant i) text).indexAt (.constant j) =
      if i = j then (c.indexAt (.constant j)).map fun _ => text else c.indexAt (.constant j) := by
  have hget : (c.pool.relink i text).get j =
      if i = j then (c.pool.get j).map (Constant.withSymbol text) else c.pool.get j := by
    simp only [Pool.get, Pool.getElem?_relink, UInt16.toNat_inj]
    by_cases hij : i = j
    · rw [if_pos hij, if_pos hij]
      cases c.pool.entries[j.toNat]? with
      | none => rfl
      | some e => cases e <;> rfl
    · rw [if_neg hij, if_neg hij]
  show Except.bind ((c.pool.relink i text).get j) _ = _
  rw [hget]
  by_cases hij : i = j
  · rw [if_pos hij, if_pos hij]
    show _ = Except.map _ (Except.bind (c.pool.get j) _)
    cases c.pool.get j with
    | error fault => rfl
    | ok e => cases e <;> rfl
  · rw [if_neg hij, if_neg hij]
    rfl

theorem indexAt_place_self (h : c.indexAt location = .ok index) :
    (c.place location text).indexAt location = .ok text := by
  cases location with
  | constant i => rw [indexAt_constant_relink, if_pos rfl, h]; rfl
  | fieldDescriptor position =>
    obtain ⟨m, hm, -⟩ := bind_eq_ok_iff.mp h
    show Except.bind (memberAt (c.fields.modify _ _) _) _ = _
    rw [memberAt_modify, if_pos rfl, hm]
    rfl
  | methodDescriptor position =>
    obtain ⟨m, hm, -⟩ := bind_eq_ok_iff.mp h
    show Except.bind (memberAt (c.methods.modify _ _) _) _ = _
    rw [memberAt_modify, if_pos rfl, hm]
    rfl
  | slot owner position offset =>
    obtain ⟨a, ha, hword⟩ := bind_eq_ok_iff.mp h
    rw [indexAt_slot, place, attributeAt_modifyAttribute, if_pos rfl, ha]
    exact Attribute.wordAt_place_self (Attribute.wordAt_ok_iff.mp ⟨index, hword⟩)

private theorem map_memberAt_modify {α : Type} (members : Array Member) (i j : Nat)
    {f : Member → Member}
    {part : Member → α} (hf : ∀ m, part (f m) = part m) :
    (memberAt (members.modify i f) j).map part = (memberAt members j).map part := by
  rw [memberAt_modify]
  split_ifs
  · cases memberAt members j with
    | error fault => rfl
    | ok m => exact congrArg Except.ok (hf m)
  · rfl

private theorem indexAt_fieldDescriptor (c : ClassFile) (position : Nat) :
    c.indexAt (.fieldDescriptor position) = (memberAt c.fields position).map (·.descriptor) := rfl

private theorem indexAt_methodDescriptor (c : ClassFile) (position : Nat) :
    c.indexAt (.methodDescriptor position) = (memberAt c.methods position).map (·.descriptor) := rfl

private theorem attributesOf_place (owner : Owner) (hslot : location.isSlot = false) :
    (c.place location text).attributesOf owner = c.attributesOf owner := by
  cases location with
  | slot => cases hslot
  | constant i => rfl
  | fieldDescriptor position =>
    cases owner with
    | field => exact map_memberAt_modify _ _ _ fun _ => rfl
    | _ => rfl
  | methodDescriptor position =>
    cases owner with
    | method => exact map_memberAt_modify _ _ _ fun _ => rfl
    | _ => rfl

private theorem indexAt_modifyAttribute (owner : Owner) (position : Nat) (f : Attribute → Attribute)
    (hslot : location'.isSlot = false) :
    (c.modifyAttribute owner position f).indexAt location' = c.indexAt location' := by
  cases location' with
  | slot => cases hslot
  | constant i => cases owner <;> rfl
  | fieldDescriptor =>
    cases owner with
    | field => exact map_memberAt_modify _ _ _ fun _ => rfl
    | _ => rfl
  | methodDescriptor =>
    cases owner with
    | method => exact map_memberAt_modify _ _ _ fun _ => rfl
    | _ => rfl

theorem indexAt_place_of_apart (h : location.Apart location') :
    (c.place location text).indexAt location' = c.indexAt location' := by
  cases location with
  | slot owner position offset =>
    cases location' with
    | slot owner' position' offset' =>
      rw [indexAt_slot, place, attributeAt_modifyAttribute, indexAt_slot]
      by_cases hplace : (owner, position) = (owner', position')
      · have hoffset := h.resolve_left (not_not_intro hplace)
        rw [if_pos hplace]
        cases c.attributeAt owner' position' with
        | error fault => rfl
        | ok a => exact Attribute.wordAt_place_of_apart hoffset
      · rw [if_neg hplace]
    | _ => exact indexAt_modifyAttribute _ _ _ rfl
  | constant i =>
    cases location' with
    | constant j =>
      have hij : i ≠ j := fun hij => h (congrArg Location.constant hij)
      rw [indexAt_constant_relink, if_neg hij]
    | _ => rfl
  | fieldDescriptor i =>
    cases location' with
    | fieldDescriptor j =>
      have hij : i ≠ j := fun hij => h (congrArg Location.fieldDescriptor hij)
      rw [indexAt_fieldDescriptor, place, memberAt_modify, if_neg hij]
      rfl
    | slot owner position offset =>
      rw [indexAt_slot, attributeAt, attributesOf_place owner rfl]
      rfl
    | _ => rfl
  | methodDescriptor i =>
    cases location' with
    | methodDescriptor j =>
      have hij : i ≠ j := fun hij => h (congrArg Location.methodDescriptor hij)
      rw [indexAt_methodDescriptor, place, memberAt_modify, if_neg hij]
      rfl
    | slot owner position offset =>
      rw [indexAt_slot, attributeAt, attributesOf_place owner rfl]
      rfl
    | _ => rfl

end ClassFile

end Retarget
