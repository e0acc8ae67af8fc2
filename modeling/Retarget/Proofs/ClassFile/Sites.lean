import Retarget.Proofs.ClassFile.Cells
import Retarget.Proofs.Listing

/-!
The sites of a class file, table by table. No two of them have a byte in
common.
-/

set_option autoImplicit false

namespace Retarget

def Site.Apart (s t : Site) : Prop := s.location.Apart t.location

namespace Attribute

variable {p : Pool} {a : Attribute} {slots : List Slot} {warnings : Nat}

def reported (p : Pool) (a : Attribute) : List Slot :=
  match a.slots p with
  | .ok (slots, _) => slots
  | .error _ => []

theorem reported_of_slots (h : a.slots p = .ok (slots, warnings)) : a.reported p = slots := by
  rw [reported, h]

private theorem reported_spaced (p : Pool) (a : Attribute) :
    (a.reported p).Pairwise fun s t => s.offset + 2 ≤ t.offset := by
  cases h : a.slots p with
  | error fault => rw [reported, h]; exact .nil
  | ok walked =>
    rw [reported_of_slots h]
    exact (slots_spaced h).2

end Attribute

namespace ClassFile

variable {p : Pool} {c : ClassFile} {owner : Owner} {attributes : Array Attribute} {site : Site}
  {sites : List Site} {warnings : Nat}

def slotSite (owner : Owner) (position : Nat) (slot : Slot) : Site :=
  ⟨.slot owner position slot.offset, slot.kind⟩

def tableSites (p : Pool) (owner : Owner) (attributes : Array Attribute) : List Site :=
  attributes.toList.zipIdx.flatMap fun (a, position) =>
    (a.reported p).map (slotSite owner position)

def memberSites (c : ClassFile) : List Site :=
  (List.range c.fields.size).map (fun position => ⟨.fieldDescriptor position, .descriptor⟩) ++
    (List.range c.methods.size).map fun position => ⟨.methodDescriptor position, .descriptor⟩

theorem poolSites_eq (p : Pool) : poolSites p = p.entries.toList.zipIdx.filterMap fun (e, i) =>
    e.symbol?.map fun (_, kind) => ⟨.constant (UInt16.ofNat i), kind⟩ := by
  rw [poolSites, Pool.toList, List.filterMap_filterMap]
  congr 1
  funext ⟨e, i⟩
  cases e <;> rfl

private theorem constant_of_mem_poolSites (h : site ∈ poolSites p) :
    ∃ index, site.location = .constant index := by
  rw [poolSites_eq, List.mem_filterMap] at h
  obtain ⟨x, -, hx⟩ := h
  obtain ⟨_, -, rfl⟩ := Option.map_eq_some_iff.mp hx
  exact ⟨_, rfl⟩

private theorem descriptor_of_mem_memberSites (h : site ∈ c.memberSites) :
    ∃ position, site.location = .fieldDescriptor position ∨
      site.location = .methodDescriptor position := by
  rcases List.mem_append.mp h with h | h
  · obtain ⟨position, -, rfl⟩ := List.mem_map.mp h
    exact ⟨position, .inl rfl⟩
  · obtain ⟨position, -, rfl⟩ := List.mem_map.mp h
    exact ⟨position, .inr rfl⟩

private theorem tableSites_of_attributeSites
    (h : attributeSites p owner attributes = .ok (sites, warnings)) :
    sites = tableSites p owner attributes := by
  obtain ⟨walked, hwalked, h⟩ := bind_eq_ok_iff.mp h
  cases h
  have hmap : walked.map Prod.fst = attributes.toList.map (Attribute.reported p) :=
    map_of_mapM hwalked fun a r hr => (Attribute.reported_of_slots hr).symm
  have hleft : walked.zipIdx.flatMap (fun x => x.1.1.map (slotSite owner x.2)) =
      (walked.map Prod.fst).zipIdx.flatMap fun x => x.1.map (slotSite owner x.2) := by
    rw [List.zipIdx_map, List.flatMap_map]
    rfl
  refine hleft.trans ?_
  rw [hmap, List.zipIdx_map, List.flatMap_map]
  rfl

theorem sites_eq (h : c.sites = .ok (sites, warnings)) :
    sites = poolSites c.pool ++ c.memberSites ++
      c.attributeTables.flatMap fun (owner, attributes) => tableSites c.pool owner attributes := by
  obtain ⟨walked, hwalked, h⟩ := bind_eq_ok_iff.mp h
  cases h
  have hmap : walked.map Prod.fst = c.attributeTables.map fun (owner, attributes) =>
      tableSites c.pool owner attributes :=
    map_of_mapM hwalked fun _ _ hr => tableSites_of_attributeSites hr
  rw [List.flatMap_def, hmap, ← List.flatMap_def]
  rfl

private theorem mem_tableSites : site ∈ tableSites p owner attributes ↔
    ∃ (position : Nat) (a : Attribute), attributes[position]? = some a ∧
      ∃ slot ∈ a.reported p, slotSite owner position slot = site := by
  simp only [tableSites, List.mem_flatMap, List.mem_map]
  constructor
  · rintro ⟨⟨a, position⟩, ha, slot, hslot, rfl⟩
    rw [List.mem_zipIdx_iff_getElem?, Array.getElem?_toList] at ha
    exact ⟨position, a, ha, slot, hslot, rfl⟩
  · rintro ⟨position, a, ha, slot, hslot, rfl⟩
    refine ⟨(a, position), ?_, slot, hslot, rfl⟩
    rw [List.mem_zipIdx_iff_getElem?, Array.getElem?_toList]
    exact ha

theorem mem_attributeTables : (owner, attributes) ∈ c.attributeTables ↔
    c.attributesOf owner = .ok attributes := by
  have hmember : ∀ {members : Array Member} {position : Nat},
      (memberAt members position).map (·.attributes) = .ok attributes ↔
        ∃ m, members.toList[position]? = some m ∧ m.attributes = attributes := by
    intro members position
    rw [Array.getElem?_toList, memberAt]
    cases members[position]? <;> simp [Except.map]
  cases owner with
  | ofClass =>
    simp [attributeTables, attributesOf, eq_comm]
  | field position =>
    show _ ↔ (memberAt c.fields position).map (·.attributes) = .ok attributes
    rw [hmember]
    simp [attributeTables, List.mem_zipIdx_iff_getElem?]
  | method position =>
    show _ ↔ (memberAt c.methods position).map (·.attributes) = .ok attributes
    rw [hmember]
    simp [attributeTables, List.mem_zipIdx_iff_getElem?]

private theorem pairwise_attributeTables (c : ClassFile) :
    c.attributeTables.Pairwise fun table table' => table.1 ≠ table'.1 := by
  have hmembers : ∀ (wrap : Nat → Owner) (members : List Member),
      (∀ i j, wrap i = wrap j → i = j) →
      (members.zipIdx.map fun m => (wrap m.2, m.1.attributes)).Pairwise
        fun table table' => table.1 ≠ table'.1 := by
    intro wrap members hinj
    refine List.pairwise_map.mpr ((pairwise_zipIdx members).imp fun hlt heq => ?_)
    have := hinj _ _ heq
    omega
  refine List.pairwise_append.mpr ⟨List.pairwise_cons.mpr ⟨?_, ?_⟩, ?_, ?_⟩
  · rintro table htable
    obtain ⟨x, -, rfl⟩ := List.mem_map.mp htable
    exact Owner.noConfusion
  · exact hmembers .field _ fun i j h => by cases h; rfl
  · exact hmembers .method _ fun i j h => by cases h; rfl
  · intro table htable table' htable'
    obtain ⟨y, -, rfl⟩ := List.mem_map.mp htable'
    rcases List.mem_cons.mp htable with rfl | htable
    · exact Owner.noConfusion
    · obtain ⟨x, -, rfl⟩ := List.mem_map.mp htable
      exact Owner.noConfusion

theorem slot_of_mem_sites {position offset : Nat} (h : c.sites = .ok (sites, warnings))
    (hsite : site ∈ sites) (hlocation : site.location = .slot owner position offset) :
    ∃ a, c.attributeAt owner position = .ok a ∧ ∃ slot ∈ a.reported c.pool, slot.offset = offset := by
  rw [sites_eq h, List.mem_append, List.mem_append] at hsite
  rcases hsite with (hpool | hmember) | htable
  · obtain ⟨index, hindex⟩ := constant_of_mem_poolSites hpool
    cases hlocation.symm.trans hindex
  · obtain ⟨index, hindex | hindex⟩ := descriptor_of_mem_memberSites hmember
    · cases hlocation.symm.trans hindex
    · cases hlocation.symm.trans hindex
  · obtain ⟨⟨owner', attributes⟩, hattributes, hsite⟩ := List.mem_flatMap.mp htable
    obtain ⟨position', a, ha, slot, hslot, rfl⟩ := mem_tableSites.mp hsite
    cases hlocation
    refine ⟨a, ?_, slot, hslot, rfl⟩
    rw [attributeAt, mem_attributeTables.mp hattributes]
    exact attributeIn_eq_ok_iff.mpr ha

theorem indexAt_of_mem_sites (hcount : c.pool.count ≤ UInt16.size)
    (h : c.sites = .ok (sites, warnings)) (hsite : site ∈ sites) :
    ∃ index, c.indexAt site.location = .ok index := by
  have hmember : ∀ {members : Array Member} {position : Nat}, position < members.size →
      ∃ index, (memberAt members position).map (·.descriptor) = .ok index := by
    intro members position hlt
    rw [memberAt_eq_ok_iff.mpr (Array.getElem?_eq_getElem hlt)]
    exact ⟨_, rfl⟩
  have hmem := hsite
  rw [sites_eq h, List.mem_append, List.mem_append] at hsite
  rcases hsite with (hpool | hdescriptor) | htable
  · rw [poolSites_eq, List.mem_filterMap] at hpool
    obtain ⟨⟨e, i⟩, hentry, hsymbol⟩ := hpool
    obtain ⟨⟨index, kind⟩, hindex, rfl⟩ := Option.map_eq_some_iff.mp hsymbol
    rw [List.mem_zipIdx_iff_getElem?, Array.getElem?_toList] at hentry
    have hlt : i < c.pool.count := (Array.getElem?_eq_some_iff.mp hentry).1
    refine ⟨index, indexAt_constant_eq_ok_iff.mpr ⟨e, kind, ?_, hindex⟩⟩
    rw [UInt16.toNat_ofNat_of_lt' (Nat.lt_of_lt_of_le hlt hcount)]
    exact hentry
  · rcases List.mem_append.mp hdescriptor with hfield | hmethod
    · obtain ⟨position, hposition, rfl⟩ := List.mem_map.mp hfield
      exact hmember (List.mem_range.mp hposition)
    · obtain ⟨position, hposition, rfl⟩ := List.mem_map.mp hmethod
      exact hmember (List.mem_range.mp hposition)
  · obtain ⟨⟨owner, attributes⟩, -, hsite⟩ := List.mem_flatMap.mp htable
    obtain ⟨position, -, -, slot', -, rfl⟩ := mem_tableSites.mp hsite
    obtain ⟨a, ha, slot, hslot, hoffset⟩ := slot_of_mem_sites h hmem rfl
    rw [slotSite, indexAt_slot, ha, ← hoffset]
    cases hwalk : a.slots c.pool with
    | error fault =>
      rw [Attribute.reported, hwalk] at hslot
      cases hslot
    | ok walked =>
      rw [Attribute.reported_of_slots hwalk] at hslot
      exact Attribute.wordAt_ok_iff.mpr ((Attribute.slots_spaced hwalk).1 slot hslot)

theorem scanSite_eq_ok_iff {scan : Scan} : c.scanSite site = .ok scan ↔ ∃ index text,
    c.indexAt site.location = .ok index ∧ c.pool.text index = .ok text ∧
      Symbol.scan site.kind text = scan := by
  constructor
  · intro h
    obtain ⟨index, hindex, h⟩ := bind_eq_ok_iff.mp h
    obtain ⟨text, htext, h⟩ := bind_eq_ok_iff.mp h
    cases h
    exact ⟨index, text, hindex, htext, rfl⟩
  · rintro ⟨index, text, hindex, htext, rfl⟩
    exact bind_eq_ok_iff.mpr ⟨index, hindex, bind_eq_ok_iff.mpr ⟨text, htext, rfl⟩⟩

private theorem apart_poolSites (hcount : p.count ≤ UInt16.size) :
    (poolSites p).Pairwise Site.Apart := by
  rw [poolSites_eq, List.pairwise_filterMap]
  refine (List.Pairwise.and_mem.mp (pairwise_zipIdx _)).imp ?_
  rintro ⟨e, i⟩ ⟨e', j⟩ ⟨hi, hj, hlt⟩ site hsite site' hsite'
  obtain ⟨_, -, rfl⟩ := Option.map_eq_some_iff.mp hsite
  obtain ⟨_, -, rfl⟩ := Option.map_eq_some_iff.mp hsite'
  have hjcount : j < p.count := by
    have := (List.mem_zipIdx hj).2.1
    rwa [Nat.zero_add] at this
  simp only [Site.Apart, Location.Apart, ne_eq, Location.constant.injEq]
  intro heq
  have hij := congrArg UInt16.toNat heq
  simp only at hlt
  rw [UInt16.toNat_ofNat_of_lt' (by omega), UInt16.toNat_ofNat_of_lt' (by omega)] at hij
  omega

private theorem apart_memberSites (c : ClassFile) : c.memberSites.Pairwise Site.Apart := by
  refine List.pairwise_append.mpr ⟨?_, ?_, ?_⟩
  · refine List.pairwise_map.mpr (List.pairwise_lt_range.imp fun hlt heq => ?_)
    cases heq
    omega
  · refine List.pairwise_map.mpr (List.pairwise_lt_range.imp fun hlt heq => ?_)
    cases heq
    omega
  · intro site hsite site' hsite'
    obtain ⟨_, -, rfl⟩ := List.mem_map.mp hsite
    obtain ⟨_, -, rfl⟩ := List.mem_map.mp hsite'
    exact Location.noConfusion

private theorem apart_tableSites (p : Pool) (owner : Owner) (attributes : Array Attribute) :
    (tableSites p owner attributes).Pairwise Site.Apart := by
  refine List.pairwise_flatMap.mpr ⟨?_, (pairwise_zipIdx _).imp ?_⟩
  · rintro ⟨a, position⟩ -
    refine List.pairwise_map.mpr ((Attribute.reported_spaced p a).imp fun hspaced => ?_)
    exact .inr (.inl hspaced)
  · rintro ⟨a, position⟩ ⟨a', position'⟩ hlt site hsite site' hsite'
    obtain ⟨slot, -, rfl⟩ := List.mem_map.mp hsite
    obtain ⟨slot', -, rfl⟩ := List.mem_map.mp hsite'
    refine .inl fun heq => ?_
    cases heq
    exact Nat.lt_irrefl _ hlt

/-- No two sites of a class file have a common byte. -/
theorem apart_sites (hcount : c.pool.count ≤ UInt16.size) (h : c.sites = .ok (sites, warnings)) :
    sites.Pairwise Site.Apart := by
  have htables : (c.attributeTables.flatMap fun (owner, attributes) =>
      tableSites c.pool owner attributes).Pairwise Site.Apart := by
    refine List.pairwise_flatMap.mpr ⟨fun _ _ => apart_tableSites _ _ _, ?_⟩
    refine (pairwise_attributeTables c).imp ?_
    rintro ⟨owner, attributes⟩ ⟨owner', attributes'⟩ hne site hsite site' hsite'
    obtain ⟨position, a, -, slot, -, rfl⟩ := mem_tableSites.mp hsite
    obtain ⟨position', a', -, slot', -, rfl⟩ := mem_tableSites.mp hsite'
    exact .inl fun heq => hne (Prod.mk.inj heq).1
  rw [sites_eq h]
  refine List.pairwise_append.mpr ⟨List.pairwise_append.mpr
    ⟨apart_poolSites hcount, apart_memberSites c, ?_⟩, htables, ?_⟩
  · intro site hsite site' hsite'
    obtain ⟨index, hindex⟩ := constant_of_mem_poolSites hsite
    obtain ⟨index', hindex'⟩ := descriptor_of_mem_memberSites hsite'
    rcases hindex' with hindex' | hindex'
    all_goals
      rw [Site.Apart, hindex, hindex']
      exact Location.noConfusion
  · intro site hsite site' hsite'
    obtain ⟨⟨owner, attributes⟩, -, hsite'⟩ := List.mem_flatMap.mp hsite'
    obtain ⟨position, a, -, slot, -, rfl⟩ := mem_tableSites.mp hsite'
    rcases List.mem_append.mp hsite with hsite | hsite
    · obtain ⟨index, hindex⟩ := constant_of_mem_poolSites hsite
      rw [Site.Apart, hindex]
      exact Location.noConfusion
    · obtain ⟨index, hindex⟩ := descriptor_of_mem_memberSites hsite
      rcases hindex with hindex | hindex
      all_goals
        rw [Site.Apart, hindex]
        exact Location.noConfusion

end ClassFile

end Retarget
