import Mathlib.Data.List.Pairwise
import Retarget.Proofs.ClassFile.Alone
import Retarget.Proofs.ClassFile.Reread
import Retarget.Proofs.ClassFile.Written

/-!
What replacing the index at a location does, in full. Locations are cells:
placing twice is placing once, and placing what is there changes nothing. In the
bytes that a class file is written as, the index is one word, at a position of
its own; replacing it replaces this word and no other byte, and the class file
is then the one that the new bytes hold.
-/

set_option autoImplicit false

namespace Retarget

section Modify

variable {α : Type} {as : Array α} {f g : α → α} {i : Nat}

private theorem modify_modify_of (h : ∀ a, g (f a) = g a) :
    (as.modify i f).modify i g = as.modify i g := by
  apply Array.ext_getElem?
  intro k
  simp only [Array.getElem?_modify]
  split_ifs
  · rw [Option.map_map]
    exact Option.map_congr fun a _ => h a
  · rfl

private theorem modify_of_fixed (h : ∀ a, as[i]? = some a → f a = a) : as.modify i f = as := by
  apply Array.ext_getElem?
  intro k
  rw [Array.getElem?_modify]
  split_ifs with hk
  · subst hk
    cases ha : as[i]? with
    | none => rfl
    | some a => exact congrArg some (h a ha)
  · rfl

end Modify

private theorem blit_blit (target : Array UInt8) (i : Nat) {bytes more : Bytes}
    (h : bytes.length = more.length) : blit (blit target i bytes) i more = blit target i more := by
  apply Array.ext_getElem?
  intro k
  simp only [getElem?_blit, size_blit, h]
  split_ifs <;> rfl

namespace Attribute

variable {a : Attribute} {offset : Nat} {old index : UInt16}

private theorem place_place (offset : Nat) (old index : UInt16) (a : Attribute) :
    (a.place offset old).place offset index = a.place offset index := by
  have hlength : (Bytes.ofUInt16 old).length = (Bytes.ofUInt16 index).length := by
    rw [Bytes.length_ofUInt16, Bytes.length_ofUInt16]
  rw [place, place, blit_blit _ _ hlength]
  rfl

private theorem content_of_wordAt (h : a.wordAt offset = .ok old) :
    a.content.toList = a.content.toList.take offset ++ Bytes.ofUInt16 old ++
      a.content.toList.drop (offset + 2) := by
  have hroom : offset + 2 ≤ a.content.size := wordAt_ok_iff.mp ⟨old, h⟩
  rw [wordAt, slice_eq, if_pos hroom] at h
  have hlength : ((a.content.toList.drop offset).take 2).length = 2 := by
    rw [List.length_take, List.length_drop, Array.length_toList]
    omega
  have hword : Bytes.ofUInt16 old = (a.content.toList.drop offset).take 2 := by
    have hvalue := Bytes.value_lt ((a.content.toList.drop offset).take 2)
    rw [hlength] at hvalue
    cases h
    rw [Bytes.ofUInt16, UInt16.toNat_ofNat_of_lt' hvalue]
    have hback := Bytes.ofNat_value ((a.content.toList.drop offset).take 2)
    rwa [hlength] at hback
  rw [hword, List.append_assoc, ← List.drop_drop, List.take_append_drop, List.take_append_drop]

private theorem content_of_place (hroom : offset + 2 ≤ a.content.size) (index : UInt16) :
    (a.place offset index).content.toList = a.content.toList.take offset ++ Bytes.ofUInt16 index ++
      a.content.toList.drop (offset + 2) := by
  have hstored : (a.place offset index).wordAt offset = .ok index := wordAt_place_self hroom
  have hplaced := content_of_wordAt hstored
  have hfront : (a.place offset index).content.toList.take offset =
      a.content.toList.take offset := by
    apply List.ext_getElem?
    intro k
    rw [List.getElem?_take, List.getElem?_take]
    split_ifs with hk
    · rw [Array.getElem?_toList, Array.getElem?_toList]
      exact content_place offset index a (.inl hk)
    · rfl
  have hback : (a.place offset index).content.toList.drop (offset + 2) =
      a.content.toList.drop (offset + 2) := by
    apply List.ext_getElem?
    intro k
    rw [List.getElem?_drop, List.getElem?_drop, Array.getElem?_toList, Array.getElem?_toList]
    exact content_place offset index a (.inr (Nat.le_add_right _ _))
  rw [hplaced, hfront, hback]

private theorem place_self (h : a.wordAt offset = .ok old) : a.place offset old = a := by
  have hroom : offset + 2 ≤ a.content.size := wordAt_ok_iff.mp ⟨old, h⟩
  have hcontent : (a.place offset old).content = a.content :=
    Array.ext' ((content_of_place hroom old).trans (content_of_wordAt h).symm)
  cases a
  exact congrArg (Attribute.mk _) hcontent

end Attribute

namespace Pool

private theorem relink_relink (index old text : UInt16) (p : Pool) :
    (p.relink index old).relink index text = p.relink index text := by
  rw [relink, relink, modify_modify_of (Constant.withSymbol_withSymbol old text)]
  rfl

end Pool

namespace ClassFile

variable {c c' : ClassFile} {location : Location} {old index : UInt16} {fault : Fault}

private theorem modifyAttribute_modifyAttribute_of {f g : Attribute → Attribute} (owner : Owner)
    (position : Nat) (h : ∀ a, g (f a) = g a) (c : ClassFile) :
    (c.modifyAttribute owner position f).modifyAttribute owner position g =
      c.modifyAttribute owner position g := by
  cases owner with
  | ofClass => simp only [modifyAttribute, modify_modify_of h]
  | field member | method member =>
    simp only [modifyAttribute]
    rw [modify_modify_of fun m => by simp only [modify_modify_of h]]

private theorem place_place (location : Location) (old index : UInt16) (c : ClassFile) :
    (c.place location old).place location index = c.place location index := by
  cases location with
  | constant i =>
    simp only [place]
    rw [Pool.relink_relink]
  | fieldDescriptor position | methodDescriptor position =>
    simp only [place]
    congr 1
    exact modify_modify_of fun m => rfl
  | slot owner position offset =>
    exact modifyAttribute_modifyAttribute_of owner position (Attribute.place_place offset old index) c

private theorem modifyAttribute_of_fixed {f : Attribute → Attribute} {owner : Owner}
    {position : Nat}
    {a : Attribute} (ha : c.attributeAt owner position = .ok a) (hf : f a = a) :
    c.modifyAttribute owner position f = c := by
  have htable : ∀ {as : Array Attribute}, attributeIn as position = .ok a →
      as.modify position f = as := by
    intro as has
    refine modify_of_fixed fun b hb => ?_
    cases (attributeIn_eq_ok_iff.mp has).symm.trans hb
    exact hf
  have hmember : ∀ (ms : Array Member) {member : Nat} {as : Array Attribute},
      (memberAt ms member).map (·.attributes) = .ok as → attributeIn as position = .ok a →
      ms.modify member (fun m => { m with attributes := m.attributes.modify position f }) = ms := by
    intro ms member as hms has
    refine modify_of_fixed fun m hm => ?_
    rw [memberAt_eq_ok_iff.mpr hm] at hms
    cases hms
    cases m
    exact congrArg (Member.mk _ _ _) (htable has)
  obtain ⟨as, has, hin⟩ := bind_eq_ok_iff.mp ha
  cases owner with
  | ofClass =>
    cases has
    simp only [modifyAttribute, htable hin]
  | field member => simp only [modifyAttribute, hmember c.fields has hin]
  | method member => simp only [modifyAttribute, hmember c.methods has hin]

private theorem place_self (h : c.indexAt location = .ok old) : c.place location old = c := by
  have hmember : ∀ {ms : Array Member} {position : Nat},
      (memberAt ms position).map (·.descriptor) = .ok old →
      ms.modify position ({ · with descriptor := old }) = ms := by
    intro ms position hms
    refine modify_of_fixed fun m hm => ?_
    rw [memberAt_eq_ok_iff.mpr hm] at hms
    cases hms
    rfl
  cases location with
  | constant i =>
    obtain ⟨e, kind, he, hsymbol⟩ := indexAt_constant_eq_ok_iff.mp h
    have hentries : c.pool.entries.modify i.toNat (Constant.withSymbol old) = c.pool.entries := by
      refine modify_of_fixed fun e' he' => ?_
      cases he.symm.trans he'
      cases e <;> cases hsymbol <;> rfl
    simp only [place, Pool.relink, hentries]
  | fieldDescriptor position => simp only [place, hmember h]
  | methodDescriptor position => simp only [place, hmember h]
  | slot owner position offset =>
    rw [indexAt_slot] at h
    obtain ⟨a, ha, hword⟩ := bind_eq_ok_iff.mp h
    exact modifyAttribute_of_fixed ha (Attribute.place_self hword)

private theorem setIndexAt_ok_iff : c.setIndexAt location index = .ok () c' ↔
    (∃ text, c.pool.text index = .ok text) ∧ (∃ old, c.indexAt location = .ok old) ∧
      c' = c.place location index := by
  rw [setIndexAt]
  cases c.pool.text index with
  | error fault => simp
  | ok text =>
    cases c.indexAt location with
    | error fault => simp
    | ok old => simp [eq_comm]

private theorem eq_of_setIndexAt_error (h : c.setIndexAt location index = .error fault c') :
    c' = c := by
  rw [setIndexAt] at h
  split at h
  · cases h
    rfl
  · split at h
    · cases h
      rfl
    · cases h

end ClassFile

namespace Layout

variable {layout more : Layout} {replaced : UInt16 → Layout} {old : UInt16} {bytes : Bytes}

/-- The layout holds a word that can be replaced: at one position in what it serializes to stands
the word, and with another index the same bytes stand around that index. -/
def HoldsWord (old : UInt16) (layout : Layout) (replaced : UInt16 → Layout) : Prop :=
  ∀ bytes, layout.serialize = .ok bytes → ∃ front back,
    bytes = front ++ Bytes.ofUInt16 old ++ back ∧
    ∀ index, (replaced index).serialize = .ok (front ++ Bytes.ofUInt16 index ++ back)

namespace HoldsWord

private theorem item (front back : Bytes) (old : UInt16) :
    HoldsWord old [.ok (front ++ Bytes.ofUInt16 old ++ back)] fun index =>
      [.ok (front ++ Bytes.ofUInt16 index ++ back)] := by
  intro bytes h
  cases (serialize_ok _).symm.trans h
  exact ⟨front, back, rfl, fun index => serialize_ok _⟩

private theorem word (old : UInt16) :
    HoldsWord old [.ok (Bytes.ofUInt16 old)] fun index => [.ok (Bytes.ofUInt16 index)] := by
  simpa using item [] [] old

private theorem append_left (h : HoldsWord old layout replaced) (more : Layout) :
    HoldsWord old (more ++ layout) fun index => more ++ replaced index := by
  intro bytes hbytes
  obtain ⟨first, rest, hmore, hlayout, rfl⟩ := serialize_append_eq_ok_iff.mp hbytes
  obtain ⟨front, back, rfl, hreplaced⟩ := h rest hlayout
  refine ⟨first ++ front, back, by simp only [List.append_assoc], fun index => ?_⟩
  simpa only [List.append_assoc] using serialize_append hmore (hreplaced index)

private theorem append_right (h : HoldsWord old layout replaced) (more : Layout) :
    HoldsWord old (layout ++ more) fun index => replaced index ++ more := by
  intro bytes hbytes
  obtain ⟨first, rest, hlayout, hmore, rfl⟩ := serialize_append_eq_ok_iff.mp hbytes
  obtain ⟨front, back, rfl, hreplaced⟩ := h first hlayout
  refine ⟨front, back ++ rest, by simp only [List.append_assoc], fun index => ?_⟩
  simpa only [List.append_assoc] using serialize_append (hreplaced index) hmore

private theorem cons (h : HoldsWord old layout replaced) (item : Except Defect Bytes) :
    HoldsWord old (item :: layout) fun index => item :: replaced index := h.append_left [item]

private theorem table {α : Type} {f : α → Layout} {as : Array α} {g : UInt16 → α → α} {i : Nat}
    {a : α}
    (ha : as[i]? = some a) (h : HoldsWord old (f a) fun index => f (g index a)) :
    HoldsWord old (as.toList.flatMap f) fun index => (as.modify i (g index)).toList.flatMap f := by
  obtain ⟨hlt, hitem⟩ := Array.getElem?_eq_some_iff.mp ha
  have hwhole : as.toList = as.toList.take i ++ a :: as.toList.drop (i + 1) := by
    rw [← hitem, ← Array.getElem_toList hlt, ← List.drop_eq_getElem_cons, List.take_append_drop]
  have hmodified : ∀ index, (as.modify i (g index)).toList.flatMap f =
      (as.toList.take i).flatMap f ++ (f (g index a) ++ (as.toList.drop (i + 1)).flatMap f) := by
    intro index
    rw [Array.toList_modify, List.modify_eq_take_cons_drop (by simpa using hlt),
      List.flatMap_append, List.flatMap_cons, Array.getElem_toList, hitem]
  have hplain : as.toList.flatMap f =
      (as.toList.take i).flatMap f ++ (f a ++ (as.toList.drop (i + 1)).flatMap f) := by
    conv_lhs => rw [hwhole]
    rw [List.flatMap_append, List.flatMap_cons]
  rw [hplain, funext hmodified]
  exact (h.append_right _).append_left _

end HoldsWord

end Layout

section Written

open Layout

variable {c : ClassFile} {location : Location} {old : UInt16} {kind : SymbolForm} {bytes : Bytes}
  {sites : List Site} {warnings : Nat}

private theorem Constant.holdsWord {e : Constant} (h : e.symbol? = some (old, kind)) :
    HoldsWord old e.layout fun index => (e.withSymbol index).layout := by
  cases e <;> cases h
  · exact (HoldsWord.word old).cons _
  · exact ((HoldsWord.word old).cons _).cons _
  · exact (HoldsWord.word old).cons _

private theorem Attribute.holdsWord {a : Attribute} {offset : Nat} (h : a.wordAt offset = .ok old) :
    HoldsWord old a.layout fun index => (a.place offset index).layout := by
  have hroom : offset + 2 ≤ a.content.size := Attribute.wordAt_ok_iff.mp ⟨old, h⟩
  have hsize : ∀ index, (a.place offset index).content.size = a.content.size :=
    fun index => size_blit _ _ _
  simp only [Attribute.layout, hsize]
  cases Attribute.lengthItem a.content.size with
  | error defect =>
    intro bytes hbytes
    cases hbytes
  | ok length =>
    have hitem := HoldsWord.item (a.content.toList.take offset) (a.content.toList.drop (offset + 2)) old
    rw [← Attribute.content_of_wordAt h] at hitem
    simp only [← Attribute.content_of_place hroom] at hitem
    exact (hitem.cons _).cons _

private theorem Attribute.holdsWord_table {as : Array Attribute} {a : Attribute}
    {position offset : Nat}
    (ha : ClassFile.attributeIn as position = .ok a) (h : a.wordAt offset = .ok old) :
    HoldsWord old (Attribute.tableLayout as) fun index =>
      Attribute.tableLayout (as.modify position (Attribute.place offset index)) := by
  simp only [Attribute.tableLayout, Array.size_modify]
  exact (HoldsWord.table (ClassFile.attributeIn_eq_ok_iff.mp ha) (Attribute.holdsWord h)).cons _

private theorem Member.holdsWord_table {ms : Array Member} {m : Member}
    {g : UInt16 → Member → Member}
    {position : Nat} (hm : ClassFile.memberAt ms position = .ok m)
    (h : HoldsWord old m.layout fun index => (g index m).layout) :
    HoldsWord old (Member.tableLayout ms) fun index =>
      Member.tableLayout (ms.modify position (g index)) := by
  simp only [Member.tableLayout, Array.size_modify]
  exact (HoldsWord.table (ClassFile.memberAt_eq_ok_iff.mp hm) h).cons _

private theorem Member.holdsWord_descriptor (m : Member) :
    HoldsWord m.descriptor m.layout fun index =>
    ({ m with descriptor := index } : Member).layout :=
  (((HoldsWord.word _).append_right _).cons _).cons _

private theorem Member.holdsWord_slot {m : Member} {a : Attribute} {position offset : Nat}
    (ha : ClassFile.attributeIn m.attributes position = .ok a) (h : a.wordAt offset = .ok old) :
    HoldsWord old m.layout fun index => (Member.mk m.access m.name m.descriptor
      (m.attributes.modify position (Attribute.place offset index))).layout :=
  (((Attribute.holdsWord_table ha h).cons _).cons _).cons _

private theorem Pool.holdsWord {p : Pool} {e : Constant} {i : UInt16}
    (he : p.entries[i.toNat]? = some e) (h : e.symbol? = some (old, kind)) :
    HoldsWord old p.layout fun index => (p.relink i index).layout := by
  simp only [Pool.layout, Pool.relink, Pool.count, Array.size_modify]
  exact (HoldsWord.table he (Constant.holdsWord h)).cons _

namespace ClassFile

private theorem holdsWord (h : c.indexAt location = .ok old) :
    HoldsWord old c.layout fun index => (c.place location index).layout := by
  cases location with
  | constant i =>
    obtain ⟨e, kind, he, hsymbol⟩ := indexAt_constant_eq_ok_iff.mp h
    simp only [layout, place, List.append_assoc]
    exact ((Pool.holdsWord he hsymbol).append_right _).append_left _
  | fieldDescriptor position =>
    obtain ⟨m, hm, hword⟩ := bind_eq_ok_iff.mp h
    cases hword
    simp only [layout, place, List.append_assoc]
    refine HoldsWord.append_left (.append_left (.append_left (.append_left (.append_right ?_ _) _) _)
      _) _
    exact Member.holdsWord_table hm m.holdsWord_descriptor
  | methodDescriptor position =>
    obtain ⟨m, hm, hword⟩ := bind_eq_ok_iff.mp h
    cases hword
    simp only [layout, place, List.append_assoc]
    refine HoldsWord.append_left (.append_left (.append_left (.append_left (.append_left
      (.append_right ?_ _) _) _) _) _) _
    exact Member.holdsWord_table hm m.holdsWord_descriptor
  | slot owner position offset =>
    rw [indexAt_slot] at h
    obtain ⟨a, ha, hword⟩ := bind_eq_ok_iff.mp h
    obtain ⟨as, has, ha⟩ := bind_eq_ok_iff.mp ha
    cases owner with
    | ofClass =>
      cases has
      simp only [layout, place, modifyAttribute, List.append_assoc]
      refine HoldsWord.append_left (.append_left (.append_left (.append_left (.append_left
        (.append_left ?_ _) _) _) _) _) _
      exact Attribute.holdsWord_table ha hword
    | field member =>
      obtain ⟨m, hm, has⟩ := bind_eq_ok_iff.mp has
      cases has
      simp only [layout, place, modifyAttribute, List.append_assoc]
      refine HoldsWord.append_left (.append_left (.append_left (.append_left (.append_right ?_ _) _)
        _) _) _
      exact Member.holdsWord_table hm (Member.holdsWord_slot ha hword)
    | method member =>
      obtain ⟨m, hm, has⟩ := bind_eq_ok_iff.mp has
      cases has
      simp only [layout, place, modifyAttribute, List.append_assoc]
      refine HoldsWord.append_left (.append_left (.append_left (.append_left (.append_left
        (.append_right ?_ _) _) _) _) _) _
      exact Member.holdsWord_table hm (Member.holdsWord_slot ha hword)

private theorem built_place (hc : c.pool.Built) (location : Location) (index : UInt16) :
    (c.place location index).pool.Built := by
  cases location with
  | constant i => exact hc.relink i index
  | slot owner => cases owner <;> exact hc
  | _ => exact hc

private theorem exists_word_of_indexAt (hc : ofBytes bytes = .ok c)
    (h : c.indexAt location = .ok old) :
    ∃ front back, bytes = front ++ Bytes.ofUInt16 old ++ back ∧
      ∀ index, ofBytes (front ++ Bytes.ofUInt16 index ++ back) = .ok (c.place location index) := by
  obtain ⟨front, back, hbytes, hreplaced⟩ :=
    holdsWord h bytes (toBytes_eq_ok_iff.mp (toBytes_of_ofBytes hc).1)
  refine ⟨front, back, hbytes, fun index => ?_⟩
  have hregistered := registered_place (registered_of_ofBytes hc) location index
  exact ofBytes_of_toBytes (built_place (built_of_ofBytes hc) location index)
    (Nat.lt_of_le_of_lt hregistered.count_le (by decide))
    (toBytes_eq_ok_iff.mpr (hreplaced index))

/-- The sites of a class file that was read are independent cells. Each of them can be led to any
text; then the sites are the same, this one holds the new index and every other one the index it
had, and the class file is the one that the bytes hold with a single word replaced. Led back, it is
the class file it was. What any class file refuses, at any location, changes nothing. -/
theorem sites_are_cells (c : ClassFile) :
    (∀ bytes sites warnings, ofBytes bytes = .ok c → c.sites = .ok (sites, warnings) →
      ∀ site ∈ sites, ∃ old front back, c.indexAt site.location = .ok old ∧
        bytes = front ++ Bytes.ofUInt16 old ++ back ∧
        ∀ index text, c.pool.text index = .ok text → ∃ c',
          c.setIndexAt site.location index = .ok () c' ∧
          ofBytes (front ++ Bytes.ofUInt16 index ++ back) = .ok c' ∧
          c'.sites = .ok (sites, warnings) ∧ c'.indexAt site.location = .ok index ∧
          (∀ other ∈ sites, other ≠ site →
            c'.indexAt other.location = c.indexAt other.location) ∧
          ((∃ oldText, c.pool.text old = .ok oldText) →
            c'.setIndexAt site.location old = .ok () c)) ∧
    ∀ location index fault c', c.setIndexAt location index = .error fault c' → c' = c := by
  refine ⟨fun bytes sites warnings hc hsites site hsite => ?_,
    fun location index fault c' => eq_of_setIndexAt_error⟩
  have hcount : c.pool.count ≤ UInt16.size :=
    Nat.le_trans (registered_of_ofBytes hc).count_le (by decide)
  obtain ⟨old, hold⟩ := indexAt_of_mem_sites hcount hsites hsite
  obtain ⟨front, back, hbytes, hreplaced⟩ := exists_word_of_indexAt hc hold
  refine ⟨old, front, back, hold, hbytes, fun index text htext => ?_⟩
  have hplaced : (c.place site.location index).indexAt site.location = .ok index :=
    indexAt_place_self hold
  refine ⟨c.place site.location index, setIndexAt_ok_iff.mpr ⟨⟨text, htext⟩, ⟨old, hold⟩, rfl⟩,
    hreplaced index, ((Framed.refl c).place hsites hsite index).sites_eq hsites, hplaced, ?_, ?_⟩
  · intro other hother hne
    have hsymm : Std.Symm Site.Apart := ⟨fun _ _ hst => Location.Apart.symm hst⟩
    exact indexAt_place_of_apart ((apart_sites hcount hsites).forall hsite hother hne.symm)
  · rintro ⟨oldText, holdText⟩
    have hkept := (extends_place site.location index c).text holdText
    refine setIndexAt_ok_iff.mpr ⟨⟨oldText, hkept⟩, ⟨index, hplaced⟩, ?_⟩
    rw [place_place, place_self hold]

def nestedSample : Bytes :=
  magic ++ [0, 0, 0, 52] ++ [0, 6, 1, 0, 1, 65, 7, 0, 1] ++ [1, 0, 6] ++ Bytes.ascii "Record" ++
    [1, 0, 9] ++ Bytes.ascii "Signature" ++ [1, 0, 3] ++ Bytes.ascii "LB;" ++
    [0, 0x21, 0, 2, 0, 0] ++ [0, 0] ++ [0, 0] ++ [0, 0] ++
    [0, 1, 0, 3, 0, 0, 0, 16, 0, 1, 0, 1, 0, 5, 0, 1, 0, 4, 0, 0, 0, 2, 0, 5]

/-- The signature is led elsewhere and back, while the descriptor in front of it stays. -/
theorem sites_are_cells_nestedSample : ∃ c c' front back, ofBytes nestedSample = .ok c ∧
    nestedSample = front ++ Bytes.ofUInt16 5 ++ back ∧
    c.setIndexAt (.slot .ofClass 0 14) 1 = .ok () c' ∧
    ofBytes (front ++ Bytes.ofUInt16 1 ++ back) = .ok c' ∧
    c'.indexAt (.slot .ofClass 0 14) = .ok 1 ∧ c'.indexAt (.slot .ofClass 0 4) = .ok 5 ∧
    c'.setIndexAt (.slot .ofClass 0 14) 5 = .ok () c := by
  have hrun : (ofBytes nestedSample).toOption.bind (fun c => c.sites.toOption.map fun found =>
      (found.1, [1, 5].map fun i => (c.pool.text i).toOption,
        [14, 4].map fun offset => (c.indexAt (.slot .ofClass 0 offset)).toOption)) =
      some ([⟨.constant 2, .className⟩, ⟨.slot .ofClass 0 4, .descriptor⟩,
        ⟨.slot .ofClass 0 14, .signature⟩], [some (Bytes.ascii "A"), some (Bytes.ascii "LB;")],
        [some 5, some 5]) := by
    decide +kernel
  obtain ⟨c, hc, hrun⟩ := Option.bind_eq_some_iff.mp hrun
  obtain ⟨⟨sites, warnings⟩, hsites, hrun⟩ := Option.map_eq_some_iff.mp hrun
  simp only [List.map_cons, List.map_nil, Prod.mk.injEq, List.cons.injEq, toOption_eq_some_iff,
    and_true] at hc hsites hrun
  obtain ⟨rfl, ⟨hone, hfive⟩, hslot, hdescriptor⟩ := hrun
  obtain ⟨hcells, -⟩ := sites_are_cells c
  obtain ⟨old, front, back, hold, hbytes, hreplace⟩ :=
    hcells nestedSample _ warnings hc hsites ⟨.slot .ofClass 0 14, .signature⟩ (by decide)
  cases hslot.symm.trans hold
  obtain ⟨c', hset, hread, -, hnew, hothers, hback⟩ := hreplace 1 _ hone
  refine ⟨c, c', front, back, hc, hbytes, hset, hread, hnew, ?_, hback ⟨_, hfive⟩⟩
  exact (hothers ⟨.slot .ofClass 0 4, .descriptor⟩ (by decide) (by decide)).trans hdescriptor

end ClassFile

end Written

end Retarget
