import Retarget.ClassFile.Build
import Retarget.Proofs.ClassFile.PoolRegistry
import Retarget.Proofs.ClassFile.Sites

/-!
What stays when names are exchanged. The pool keeps its entries up to the
indices that lead to names of classes, and gets new texts behind them; a member
keeps its flags and its name, an attribute its name and all bytes outside its
slots. Adding a text and placing an index at a site keep this frame, and inside
it a class file has the same sites.
-/

set_option autoImplicit false

namespace Retarget

namespace Constant

theorem withSymbol_withSymbol (i j : UInt16) (e : Constant) :
    (e.withSymbol i).withSymbol j = e.withSymbol j := by
  cases e <;> rfl

private theorem exists_withSymbol_eq (e : Constant) : ∃ index, e.withSymbol index = e := by
  cases e with
  | classRef name => exact ⟨name, rfl⟩
  | nameAndType name descriptor => exact ⟨descriptor, rfl⟩
  | methodType descriptor => exact ⟨descriptor, rfl⟩
  | _ => exact ⟨0, rfl⟩

/-- The kind of text a constant leads to, if it names classes. -/
def kind? (e : Constant) : Option SymbolForm := e.symbol?.map Prod.snd

/-- The index of a text that names no class, if the constant has one: of a string, or of the name
of a member. -/
def plain? : Constant → Option UInt16
  | string text => some text
  | nameAndType name _ => some name
  | _ => none

private theorem plain?_withSymbol (index : UInt16) (e : Constant) :
    (e.withSymbol index).plain? = e.plain? := by
  cases e <;> rfl

private theorem kind?_withSymbol (index : UInt16) (e : Constant) :
    (e.withSymbol index).kind? = e.kind? := by
  cases e <;> rfl

end Constant

namespace Pool

variable {p p' p₁ : Pool} {index : UInt16} {new : Bytes}

/-- The second pool has the entries of the first one, where places for names of classes may lead to
other texts, and behind them texts that the first one has not. -/
structure Grown (p p' : Pool) : Prop where
  kept : ∀ {i : Nat} {e : Constant}, p.entries[i]? = some e →
    ∃ index, p'.entries[i]? = some (e.withSymbol index)
  added : ∃ texts : List Bytes, p'.entries.toList.drop p.count = texts.map .utf8 ∧ texts.Nodup ∧
    ∀ text ∈ texts, Constant.utf8 text ∉ p.entries

namespace Grown

theorem refl (p : Pool) : p.Grown p where
  kept {i e} he := by
    obtain ⟨index, hindex⟩ := e.exists_withSymbol_eq
    exact ⟨index, by rw [hindex, he]⟩
  added := ⟨[], by simp [count], .nil, by simp⟩

theorem text_kept (h : p.Grown p') {i : Nat} {text : Bytes} (ht : p.entries[i]? = some (.utf8 text)) :
    p'.entries[i]? = some (.utf8 text) := by
  obtain ⟨_, hkept⟩ := h.kept ht
  exact hkept

theorem text_back (h : p.Grown p') {i : Nat} {text : Bytes} (hlt : i < p.count)
    (ht : p'.entries[i]? = some (.utf8 text)) : p.entries[i]? = some (.utf8 text) := by
  have hold : p.entries[i]? = some p.entries[i] := Array.getElem?_eq_getElem hlt
  obtain ⟨j, hkept⟩ := h.kept hold
  have hutf : p.entries[i].withSymbol j = .utf8 text := Option.some.inj (hkept.symm.trans ht)
  have hsame : p.entries[i] = .utf8 text := by
    cases hentry : p.entries[i] <;> rw [hentry] at hutf <;> cases hutf
    rfl
  rw [hold, hsame]

theorem text (h : p.Grown p') {text : Bytes} (ht : p.text index = .ok text) :
    p'.text index = .ok text :=
  text_eq_ok_iff.mpr (h.text_kept (text_eq_ok_iff.mp ht))

theorem count_le (h : p.Grown p') : p.count ≤ p'.count := by
  by_contra hlt
  have hi : p'.count < p.entries.size := Nat.lt_of_not_le hlt
  obtain ⟨_, hkept⟩ := h.kept (Array.getElem?_eq_getElem hi)
  have hnone : p'.entries[p'.count]? = none := Array.getElem?_eq_none (Nat.le_refl _)
  cases hnone.symm.trans hkept

theorem relink (h : p.Grown p₁) (index text : UInt16) : p.Grown (p₁.relink index text) where
  kept {i e} he := by
    obtain ⟨old, hold⟩ := h.kept he
    rw [getElem?_relink, hold]
    by_cases hi : index.toNat = i
    · rw [if_pos hi, Option.map_some, Constant.withSymbol_withSymbol]
      exact ⟨text, rfl⟩
    · rw [if_neg hi]
      exact ⟨old, rfl⟩
  added := by
    obtain ⟨texts, hadded, hnodup, hnew⟩ := h.added
    refine ⟨texts, ?_, hnodup, hnew⟩
    apply List.ext_getElem?
    intro k
    have hk : p₁.entries[p.count + k]? = (texts.map Constant.utf8)[k]? := by
      rw [← hadded, List.getElem?_drop, Array.getElem?_toList]
    rw [List.getElem?_drop, Array.getElem?_toList, getElem?_relink, hk, List.getElem?_map]
    split_ifs
    · cases texts[k]? <;> rfl
    · rfl

theorem append (h : p.Grown p₁) (hnew : Constant.utf8 new ∉ p₁.entries) :
    p.Grown (p₁.append (.utf8 new)) where
  kept {i e} he := by
    obtain ⟨index, hkept⟩ := h.kept he
    exact ⟨index, getElem?_append_of_some hkept⟩
  added := by
    obtain ⟨texts, hadded, hnodup, hfresh⟩ := h.added
    have hle : p.count ≤ p₁.entries.toList.length := h.count_le
    refine ⟨texts ++ [new], ?_, ?_, ?_⟩
    · rw [entries_append, List.drop_append_of_le_length hle, hadded, List.map_append]
      rfl
    · refine List.nodup_append.mpr ⟨hnodup, List.pairwise_singleton _ _, ?_⟩
      intro t ht t' ht' heq
      rw [List.mem_singleton] at ht'
      subst heq ht'
      refine hnew (Array.mem_toList_iff.mp (List.mem_of_mem_drop (i := p.count) ?_))
      rw [hadded]
      exact List.mem_map_of_mem ht
    · intro t ht
      rcases List.mem_append.mp ht with ht | ht
      · exact hfresh t ht
      · rw [List.mem_singleton] at ht
        subst ht
        intro hold
        obtain ⟨i, hi⟩ := Array.getElem?_of_mem hold
        exact hnew (Array.mem_of_getElem? (h.text_kept hi))

private theorem map_entries {α : Type} {part : Constant → Option α} (h : p.Grown p')
    (hsymbol : ∀ index e, part (e.withSymbol index) = part e)
    (htext : ∀ text, part (.utf8 text) = none) :
    ∃ n, p'.entries.toList.map part = p.entries.toList.map part ++ List.replicate n none := by
  have hfront : (p'.entries.toList.take p.count).map part = p.entries.toList.map part := by
    apply List.ext_getElem?
    intro i
    rw [List.getElem?_map, List.getElem?_map]
    cases hi : p.entries[i]? with
    | none =>
      have hle : p.count ≤ i := Array.getElem?_eq_none_iff.mp hi
      rw [List.getElem?_take, if_neg (by omega), Array.getElem?_toList, hi]
    | some e =>
      have hlt : i < p.count := (Array.getElem?_eq_some_iff.mp hi).1
      obtain ⟨index, hkept⟩ := h.kept hi
      rw [List.getElem?_take_of_lt hlt, Array.getElem?_toList, Array.getElem?_toList, hkept, hi]
      exact congrArg some (hsymbol index e)
  obtain ⟨texts, hadded, -, -⟩ := h.added
  refine ⟨texts.length, ?_⟩
  rw [← List.take_append_drop p.count p'.entries.toList, List.map_append, hfront, hadded,
    List.map_map, ← List.map_const']
  congr 2
  funext text
  exact htext text

private theorem poolSites_eq (h : p.Grown p') : ClassFile.poolSites p' = ClassFile.poolSites p := by
  have hkinds : ∀ q : Pool, ClassFile.poolSites q =
      (q.entries.toList.map Constant.kind?).zipIdx.filterMap fun (kind, i) =>
        kind.map fun kind => ⟨.constant (UInt16.ofNat i), kind⟩ := by
    intro q
    rw [ClassFile.poolSites_eq, List.zipIdx_map, List.filterMap_map]
    congr 1
    funext ⟨e, i⟩
    cases e <;> rfl
  obtain ⟨n, hmap⟩ := h.map_entries Constant.kind?_withSymbol fun _ => rfl
  rw [hkinds p', hkinds p, hmap, List.zipIdx_append, List.filterMap_append]
  refine List.append_right_eq_self.mpr (List.filterMap_eq_nil_iff.mpr ?_)
  rintro ⟨kind, i⟩ hmem
  have hkind : kind ∈ List.replicate n none := List.fst_mem_of_mem_zipIdx hmem
  rw [List.eq_of_mem_replicate hkind]
  rfl

end Grown

end Pool

def Attribute.Framed (p : Pool) (a a' : Attribute) : Prop := SameBut (a.reported p) a a'

theorem Attribute.Framed.refl (p : Pool) (a : Attribute) : a.Framed p a := SameBut.refl _ a

structure Member.Framed (p : Pool) (m m' : Member) : Prop where
  access : m'.access = m.access
  name : m'.name = m.name
  attributes : List.Forall₂ (Attribute.Framed p) m.attributes.toList m'.attributes.toList

theorem Member.Framed.refl (p : Pool) (m : Member) : m.Framed p m :=
  ⟨rfl, rfl, List.forall₂_same.mpr fun a _ => .refl p a⟩

namespace ClassFile

/-- The indices of texts that name no class: of strings, and of the names of members and of
attributes. -/
def plainIndices (c : ClassFile) : List UInt16 :=
  c.pool.entries.toList.filterMap Constant.plain? ++
    (c.fields.toList ++ c.methods.toList).map Member.name ++
    c.attributeTables.flatMap fun (_, attributes) => attributes.toList.map Attribute.name

/-- What the second class file has in common with the first one if only names of classes were
exchanged. -/
structure Framed (c c' : ClassFile) : Prop where
  minor : c'.minor = c.minor
  major : c'.major = c.major
  pool : c.pool.Grown c'.pool
  access : c'.access = c.access
  thisClass : c'.thisClass = c.thisClass
  superClass : c'.superClass = c.superClass
  interfaces : c'.interfaces = c.interfaces
  fields : List.Forall₂ (Member.Framed c.pool) c.fields.toList c'.fields.toList
  methods : List.Forall₂ (Member.Framed c.pool) c.methods.toList c'.methods.toList
  attributes : List.Forall₂ (Attribute.Framed c.pool) c.attributes.toList c'.attributes.toList

namespace Framed

variable {c c' c₁ : ClassFile} {site : Site} {sites : List Site} {warnings : Nat}

theorem refl (c : ClassFile) : c.Framed c where
  minor := rfl
  major := rfl
  pool := .refl _
  access := rfl
  thisClass := rfl
  superClass := rfl
  interfaces := rfl
  fields := List.forall₂_same.mpr fun m _ => .refl _ m
  methods := List.forall₂_same.mpr fun m _ => .refl _ m
  attributes := List.forall₂_same.mpr fun a _ => .refl _ a

theorem withPool (h : c.Framed c₁) {p : Pool} (hp : c.pool.Grown p) :
    c.Framed { c₁ with pool := p } :=
  { h with pool := hp }

private theorem place_slot {p : Pool} {a : Attribute} {as as' : Array Attribute} {position : Nat}
    {slot : Slot} (h : List.Forall₂ (Attribute.Framed p) as.toList as'.toList)
    (ha : as[position]? = some a) (hslot : slot ∈ a.reported p) (index : UInt16) :
    List.Forall₂ (Attribute.Framed p) as.toList
      (as'.modify position (Attribute.place slot.offset index)).toList := by
  rw [Array.toList_modify]
  refine forall₂_modify h fun old new hold hnew => ?_
  rw [Array.getElem?_toList, ha] at hold
  cases hold
  exact hnew.place hslot index

private theorem place_memberSlot {p : Pool} {m : Member} {a : Attribute} {ms ms' : Array Member}
    {member position : Nat} {slot : Slot}
    (h : List.Forall₂ (Member.Framed p) ms.toList ms'.toList) (hm : ms[member]? = some m)
    (ha : m.attributes[position]? = some a) (hslot : slot ∈ a.reported p) (index : UInt16) :
    List.Forall₂ (Member.Framed p) ms.toList (ms'.modify member fun m' =>
      { m' with attributes :=
          m'.attributes.modify position (Attribute.place slot.offset index) }).toList := by
  rw [Array.toList_modify]
  refine forall₂_modify h fun old new hold hnew => ?_
  rw [Array.getElem?_toList, hm] at hold
  cases hold
  exact { hnew with attributes := place_slot hnew.attributes ha hslot index }

private theorem place_descriptor {p : Pool} {ms ms' : Array Member}
    (h : List.Forall₂ (Member.Framed p) ms.toList ms'.toList) (position : Nat) (index : UInt16) :
    List.Forall₂ (Member.Framed p) ms.toList
      (ms'.modify position fun m => { m with descriptor := index }).toList := by
  rw [Array.toList_modify]
  exact forall₂_modify h fun _ _ _ hnew => { hnew with }

theorem place (h : c.Framed c₁) (hsites : c.sites = .ok (sites, warnings)) (hsite : site ∈ sites)
    (index : UInt16) : c.Framed (c₁.place site.location index) := by
  cases hlocation : site.location with
  | constant i => exact { h with pool := h.pool.relink i index }
  | fieldDescriptor position =>
    exact { h with fields := place_descriptor h.fields position index }
  | methodDescriptor position =>
    exact { h with methods := place_descriptor h.methods position index }
  | slot owner position offset =>
    obtain ⟨a, ha, slot, hslot, rfl⟩ := slot_of_mem_sites hsites hsite hlocation
    obtain ⟨attributes, hattributes, ha⟩ := bind_eq_ok_iff.mp ha
    have ha := attributeIn_eq_ok_iff.mp ha
    cases owner with
    | ofClass =>
      cases hattributes
      exact { h with attributes := place_slot h.attributes ha hslot index }
    | field member =>
      obtain ⟨m, hm, hattributes⟩ := bind_eq_ok_iff.mp hattributes
      cases hattributes
      exact { h with fields :=
        place_memberSlot h.fields (memberAt_eq_ok_iff.mp hm) ha hslot index }
    | method member =>
      obtain ⟨m, hm, hattributes⟩ := bind_eq_ok_iff.mp hattributes
      cases hattributes
      exact { h with methods :=
        place_memberSlot h.methods (memberAt_eq_ok_iff.mp hm) ha hslot index }

private theorem attributeSites_of_forall₂ {p p' : Pool} {owner : Owner} {as as' : Array Attribute}
    {found : List Site × Nat} (hpool : p.Grown p')
    (has : List.Forall₂ (Attribute.Framed p) as.toList as'.toList)
    (h : attributeSites p owner as = .ok found) : attributeSites p' owner as' = .ok found := by
  obtain ⟨walked, hwalked, h⟩ := bind_eq_ok_iff.mp h
  refine bind_eq_ok_iff.mpr ⟨walked, mapM_of_forall₂ (has.imp ?_) hwalked, h⟩
  rintro a a' hframed ⟨slots, warnings⟩ hslots
  have hsame : Attribute.SameBut slots a a' := Attribute.reported_of_slots hslots ▸ hframed
  exact Attribute.slots_of_sameBut hpool.text hslots hsame

private theorem attributeTables_forall₂ (h : c.Framed c') :
    List.Forall₂ (fun table table' => table.1 = table'.1 ∧
      List.Forall₂ (Attribute.Framed c.pool) table.2.toList table'.2.toList)
      c.attributeTables c'.attributeTables := by
  have hmembers : ∀ (wrap : Nat → Owner) {ms ms' : List Member},
      List.Forall₂ (Member.Framed c.pool) ms ms' →
      List.Forall₂ (fun table table' => table.1 = table'.1 ∧
        List.Forall₂ (Attribute.Framed c.pool) table.2.toList table'.2.toList)
        (ms.zipIdx.map fun m => (wrap m.2, m.1.attributes))
        (ms'.zipIdx.map fun m => (wrap m.2, m.1.attributes)) := by
    intro wrap ms ms' hms
    rw [List.forall₂_map_left_iff, List.forall₂_map_right_iff]
    refine (forall₂_zipIdx hms 0).imp ?_
    rintro ⟨m, i⟩ ⟨m', j⟩ ⟨hij, hm⟩
    exact ⟨congrArg wrap hij, hm.attributes⟩
  refine List.rel_append (.cons ⟨rfl, h.attributes⟩ ?_) ?_
  · exact hmembers .field h.fields
  · exact hmembers .method h.methods

/-- Inside the frame a class file has the same sites, in the same order. -/
theorem sites_eq (h : c.Framed c') (hsites : c.sites = .ok (sites, warnings)) :
    c'.sites = .ok (sites, warnings) := by
  obtain ⟨walked, hwalked, hsites⟩ := bind_eq_ok_iff.mp hsites
  have hfields : c'.fields.size = c.fields.size := h.fields.length_eq.symm
  have hmethods : c'.methods.size = c.methods.size := h.methods.length_eq.symm
  have hwalked' : c'.attributeTables.mapM (fun (owner, attributes) =>
      attributeSites c'.pool owner attributes) = .ok walked := by
    refine mapM_of_forall₂ (h.attributeTables_forall₂.imp ?_) hwalked
    rintro ⟨owner, attributes⟩ ⟨owner', attributes'⟩ ⟨howner, hattributes⟩ found hfound
    cases howner
    exact attributeSites_of_forall₂ h.pool hattributes hfound
  refine bind_eq_ok_iff.mpr ⟨walked, hwalked', ?_⟩
  rw [hfields, hmethods, h.pool.poolSites_eq]
  exact hsites

theorem plainIndices_eq (h : c.Framed c') : c'.plainIndices = c.plainIndices := by
  have hsplit : ∀ p : Pool, p.entries.toList.filterMap Constant.plain? =
      (p.entries.toList.map Constant.plain?).filterMap id := by
    intro p
    rw [List.filterMap_map]
    rfl
  have hpool : c'.pool.entries.toList.filterMap Constant.plain? =
      c.pool.entries.toList.filterMap Constant.plain? := by
    obtain ⟨n, hmap⟩ := h.pool.map_entries Constant.plain?_withSymbol fun _ => rfl
    have hnone : (List.replicate n (none : Option UInt16)).filterMap id = [] := by simp
    rw [hsplit, hsplit, hmap, List.filterMap_append, hnone, List.append_nil]
  have hmembers : (c'.fields.toList ++ c'.methods.toList).map Member.name =
      (c.fields.toList ++ c.methods.toList).map Member.name := by
    have hall := List.rel_append h.fields h.methods
    exact (map_eq_of_forall₂ (hall.imp fun _ _ hm => hm.name.symm)).symm
  have hattributes : c'.attributeTables.map (fun table => table.2.toList.map Attribute.name) =
      c.attributeTables.map fun table => table.2.toList.map Attribute.name := by
    refine (map_eq_of_forall₂ (h.attributeTables_forall₂.imp ?_)).symm
    intro table table' htable
    exact map_eq_of_forall₂ (htable.2.imp fun _ _ ha => ha.name.symm)
  rw [plainIndices, plainIndices, hpool, hmembers, List.flatMap_def, List.flatMap_def, hattributes]

end Framed

end ClassFile

end Retarget
