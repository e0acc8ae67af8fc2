import Retarget.Proofs.Bytes.Reread
import Retarget.Proofs.ClassFile.PoolBuilt

/-!
What a class file is written as is read as the same class file, as long as its
pool was built by appending. Then the unusable slots, which are not written, are
where the reader puts them, and so are the registered texts.
-/

set_option autoImplicit false

namespace Retarget

open Layout Reader

namespace Constant

variable {c : Constant}

private theorem rereads_readOne (make : UInt16 → Constant) (index : UInt16) :
    Rereads (readOne make) [.ok (Bytes.ofUInt16 index)] (make index) :=
  (rereads_word16 index).cons (rereads_pure (make index))

private theorem rereads_readTwo (make : UInt16 → UInt16 → Constant) (first second : UInt16) :
    Rereads (readTwo make) [.ok (Bytes.ofUInt16 first), .ok (Bytes.ofUInt16 second)]
      (make first second) :=
  (rereads_word16 first).cons ((rereads_word16 second).cons (rereads_pure (make first second)))

private theorem rereads_readText (text : Bytes) :
    Rereads (readFields .utf8) (utf8 text).fields (utf8 text) := by
  intro r bytes rest h hr
  obtain ⟨front, back, hcount, htext, rfl⟩ := serialize_cons_eq_ok_iff.mp h
  obtain ⟨hlt, rfl⟩ := count_eq_ok_iff.mp hcount
  have hlength : (UInt16.ofNat text.length).toNat = text.length := UInt16.toNat_ofNat_of_lt' hlt
  have hitem : Bytes.ofUInt16 (UInt16.ofNat text.length) = Bytes.ofNat 2 text.length := by
    rw [Bytes.ofUInt16, hlength]
  have hread : Rereads (readFields .utf8)
      [.ok (Bytes.ofUInt16 (UInt16.ofNat text.length)), .ok text] (utf8 text) :=
    (rereads_word16 _).cons ((rereads_take hlength.symm).cons (rereads_pure (utf8 text)))
  rw [hitem] at hread
  exact hread (serialize_cons_eq_ok_iff.mpr ⟨_, _, rfl, htext, rfl⟩) hr

private theorem rereads_readFields {tag : Tag} (h : c.tag? = some tag) :
    Rereads (readFields tag) c.fields c := by
  cases c with
  | unusable => cases h
  | utf8 text =>
    cases h
    exact rereads_readText text
  | integer bits | float bits =>
    cases h
    exact (rereads_word32 bits).cons (rereads_pure _)
  | long bits | double bits =>
    cases h
    exact (rereads_word64 bits).cons (rereads_pure _)
  | methodHandle kind reference =>
    cases h
    exact (rereads_byte kind).cons ((rereads_word16 reference).cons (rereads_pure _))
  | classRef index | string index | methodType index | module index | package index =>
    cases h
    exact rereads_readOne _ index
  | fieldRef first second | methodRef first second | interfaceMethodRef first second
  | nameAndType first second | dynamic first second | invokeDynamic first second =>
    cases h
    exact rereads_readTwo _ first second

private theorem rereads_read (hc : c ≠ .unusable) : Rereads read c.layout c := by
  obtain ⟨tag, htag⟩ : ∃ tag, c.tag? = some tag := by
    cases c <;> first | exact ⟨_, rfl⟩ | exact absurd rfl hc
  intro r bytes rest h hr
  simp only [layout, htag] at h
  obtain ⟨front, back, hcode, hfields, rfl⟩ := serialize_cons_eq_ok_iff.mp h
  rw [List.append_assoc] at hr
  obtain ⟨r₁, hbyte, hr₁⟩ := rereads_byte tag.code (by rw [serialize_ok, hcode]) hr
  obtain ⟨r₂, hread, hr₂⟩ := rereads_readFields htag hfields hr₁
  refine ⟨r₂, bind_eq_ok_iff.mpr ⟨_, hbyte, ?_⟩, hr₂⟩
  simp only [Tag.ofCode?_code]
  exact hread

end Constant

namespace Pool

variable {p p' : Pool} {c : Constant}

private theorem rereads_readEntries {constants : List Constant} (count : Nat)
    (hconstants : ∀ c ∈ constants, c ≠ .unusable) (p : Pool) :
    Rereads (readEntries count (total Constant.slots constants) p)
      (constants.flatMap Constant.layout) (p.appendAll constants) := by
  induction constants generalizing p with
  | nil =>
    intro r bytes rest h hr
    cases h
    exact ⟨r, rfl, hr⟩
  | cons c constants ih =>
    intro r bytes rest h hr
    obtain ⟨hfirst, hconstants⟩ := List.forall_mem_cons.mp hconstants
    obtain ⟨front, back, hfront, hback, rfl⟩ := serialize_append_eq_ok_iff.mp h
    rw [List.append_assoc] at hr
    obtain ⟨r₁, hread₁, hr₁⟩ := Constant.rereads_read hfirst hfront hr
    obtain ⟨r₂, hread₂, hr₂⟩ := ih hconstants (p.append c) hback hr₁
    refine ⟨r₂, ?_, hr₂⟩
    cases hwide : c.isWide with
    | true =>
      have hslots : c.slots = 2 := by simp [Constant.slots, hwide]
      have hroom : total Constant.slots (c :: constants) =
          total Constant.slots constants + 1 + 1 := by
        rw [total_cons, hslots]
        omega
      rw [hroom, readEntries, hread₁]
      simp only [hwide, if_true]
      exact hread₂
    | false =>
      have hslots : c.slots = 1 := by simp [Constant.slots, hwide]
      have hroom : total Constant.slots (c :: constants) =
          total Constant.slots constants + 1 := by
        rw [total_cons, hslots]
        omega
      rw [hroom, readEntries, hread₁]
      simp only [hwide, Bool.false_eq_true, if_false]
      exact hread₂

theorem rereads_read (hp : p.Built) (hcount : p.count < 0x10000) : Rereads read p.layout p := by
  obtain ⟨constants, hconstants, rfl⟩ := hp.exists_appendAll
  have hslots : (Pool.empty.appendAll constants).count = total Constant.slots constants + 1 := by
    rw [count_appendAll, Nat.add_comm]
    rfl
  have hlayout : (Pool.empty.appendAll constants).layout =
      .ok (Bytes.ofNat 2 (total Constant.slots constants + 1)) ::
        constants.flatMap Constant.layout := by
    rw [layout, hslots, layout_appendAll]
    rfl
  have hword : (UInt16.ofNat (total Constant.slots constants + 1)).toNat =
      total Constant.slots constants + 1 := UInt16.toNat_ofNat_of_lt' (hslots ▸ hcount)
  have hread : Rereads read (.ok (Bytes.ofUInt16 (UInt16.ofNat
      (total Constant.slots constants + 1))) :: constants.flatMap Constant.layout)
      (Pool.empty.appendAll constants) := by
    refine (rereads_word16 _).cons ?_
    simp only [hword]
    exact rereads_readEntries _ hconstants Pool.empty
  rw [hlayout]
  rwa [Bytes.ofUInt16, hword] at hread

end Pool

namespace Attribute

private theorem rereads_read (a : Attribute) : Rereads read a.layout a := by
  by_cases hsize : a.content.size < 0x100000000
  · have hlength : (UInt32.ofNat a.content.size).toNat = a.content.size :=
      UInt32.toNat_ofNat_of_lt' hsize
    have hitem : lengthItem a.content.size =
        .ok (Bytes.ofUInt32 (UInt32.ofNat a.content.size)) := by
      rw [lengthItem, if_pos hsize, Bytes.ofUInt32, hlength]
    have hcontent : a.content.toList.length = (UInt32.ofNat a.content.size).toNat := by
      rw [hlength, Array.length_toList]
    rw [layout, hitem]
    exact (rereads_word16 a.name).cons
      ((rereads_word32 _).cons ((rereads_take hcontent).cons (rereads_pure a)))
  · intro r bytes rest h hr
    rw [layout, lengthItem, if_neg hsize] at h
    cases h

private theorem rereads_readTable (attributes : Array Attribute) :
    Rereads readTable (tableLayout attributes) attributes :=
  rereads_table (fun a _ => rereads_read a) .attributeCount

end Attribute

namespace Member

private theorem rereads_read (m : Member) : Rereads read m.layout m :=
  (rereads_word16 m.access).cons ((rereads_word16 m.name).cons
    ((rereads_word16 m.descriptor).cons
      ((Attribute.rereads_readTable m.attributes).last (rereads_pure m))))

private theorem rereads_readTable (members : Array Member) :
    Rereads readTable (tableLayout members) members :=
  rereads_table (fun m _ => rereads_read m) .memberCount

end Member

namespace ClassFile

variable {bytes : Bytes} {c : ClassFile}

def tables (c : ClassFile) : Layout :=
  .ok (Bytes.ofUInt16 c.minor) :: .ok (Bytes.ofUInt16 c.major) :: (c.pool.layout ++
    (.ok (Bytes.ofUInt16 c.access) :: .ok (Bytes.ofUInt16 c.thisClass) ::
      .ok (Bytes.ofUInt16 c.superClass) :: ((Layout.count c.interfaces.size .interfaceCount ::
        c.interfaces.toList.flatMap fun index => [.ok (Bytes.ofUInt16 index)]) ++
          (Member.tableLayout c.fields ++ (Member.tableLayout c.methods ++
            Attribute.tableLayout c.attributes)))))

theorem layout_eq (c : ClassFile) : c.layout = .ok magic :: c.tables := by
  have hsingle : c.interfaces.toList.flatMap
      (fun index => ([.ok (Bytes.ofUInt16 index)] : Layout)) =
      c.interfaces.toList.map fun index => .ok (Bytes.ofUInt16 index) :=
    List.flatMap_pure_eq_map _ _
  simp [layout, tables, hsingle]

private theorem rereads_readTables (hpool : c.pool.Built) (hcount : c.pool.count < 0x10000) :
    Rereads readTables c.tables c := by
  have hinterfaces : Rereads (table word16) (Layout.count c.interfaces.size .interfaceCount ::
      c.interfaces.toList.flatMap fun index => [.ok (Bytes.ofUInt16 index)]) c.interfaces :=
    rereads_table (fun index _ => rereads_word16 index) .interfaceCount
  exact (rereads_word16 c.minor).cons ((rereads_word16 c.major).cons
    ((Pool.rereads_read hpool hcount).bind ((rereads_word16 c.access).cons
      ((rereads_word16 c.thisClass).cons ((rereads_word16 c.superClass).cons
        (hinterfaces.bind ((Member.rereads_readTable c.fields).bind
          ((Member.rereads_readTable c.methods).bind
            ((Attribute.rereads_readTable c.attributes).last (rereads_pure c))))))))))

/-- What a class file is written as is read as the same class file. -/
theorem ofBytes_of_toBytes (hpool : c.pool.Built) (hcount : c.pool.count < 0x10000)
    (h : c.toBytes = .ok bytes) : ofBytes bytes = .ok c := by
  have hserialize : c.layout.serialize = .ok bytes := by
    rw [toBytes] at h
    split at h
    · next hserialize =>
      cases h
      exact hserialize
    · cases h
  rw [layout_eq] at hserialize
  obtain ⟨front, back, hmagic, htables, rfl⟩ := serialize_cons_eq_ok_iff.mp hserialize
  cases hmagic
  have htake : Reader.take 4 (Reader.ofBytes (magic ++ back)) = .ok (magic, ⟨0 + 4, back⟩) :=
    Reader.take_append 4 0 magic back rfl
  obtain ⟨after, hread, hrest⟩ := rereads_readTables hpool hcount htables
    (show (⟨0 + 4, back⟩ : Reader).rest = back ++ [] by rw [List.append_nil])
  have hne : (magic ++ back).isEmpty = false := rfl
  simp only [ofBytes, hne, htake, hread, hrest, List.isEmpty_nil, Bool.false_eq_true, if_false,
    if_true]

end ClassFile

end Retarget
