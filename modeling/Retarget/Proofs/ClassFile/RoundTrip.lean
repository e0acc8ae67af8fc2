import Mathlib.Data.List.Basic
import Retarget.Proofs.ClassFile.PoolRegistry

/-!
A class file that was read is written back byte for byte. Each table is taken
in turn: what its reader passed over is what its layout serializes to, and as
long as its size says.
-/

set_option autoImplicit false

namespace Retarget

open Layout Reader

namespace Constant

variable {r r' : Reader} {c : Constant}

private theorem readOne_fills {make : UInt16 → Constant} (h : readOne make r = .ok (c, r')) :
    ∃ index, c = make index ∧ Fills [.ok (Bytes.ofUInt16 index)] 2 r r' := by
  obtain ⟨⟨index, r₁⟩, hi, h⟩ := bind_eq_ok_iff.mp h
  cases h
  exact ⟨index, rfl, word16_fills hi⟩

private theorem readTwo_fills {make : UInt16 → UInt16 → Constant}
    (h : readTwo make r = .ok (c, r')) :
    ∃ first second, c = make first second ∧
      Fills [.ok (Bytes.ofUInt16 first), .ok (Bytes.ofUInt16 second)] 4 r r' := by
  obtain ⟨⟨first, r₁⟩, hf, h⟩ := bind_eq_ok_iff.mp h
  obtain ⟨⟨second, r₂⟩, hs, h⟩ := bind_eq_ok_iff.mp h
  cases h
  exact ⟨first, second, rfl, (word16_fills hf).cons (word16_fills hs)⟩

theorem readFields_fills {tag : Tag} (h : readFields tag r = .ok (c, r')) :
    c.tag? = some tag ∧ c.size = c.size - 1 + 1 ∧ Fills c.fields (c.size - 1) r r' := by
  cases tag with
  | utf8 =>
    obtain ⟨⟨length, r₁⟩, hl, h⟩ := bind_eq_ok_iff.mp h
    obtain ⟨⟨text, r₂⟩, ht, h⟩ := bind_eq_ok_iff.mp h
    cases h
    obtain ⟨hlen, hfill⟩ := take_fills ht
    have hcount : Layout.count text.length .utf8Size = .ok (Bytes.ofUInt16 length) := by
      rw [hlen, Layout.count_of_lt length.toNat_lt, Bytes.ofUInt16]
    refine ⟨rfl, by simp only [size]; omega, ?_⟩
    have hsize : (utf8 text).size - 1 = 2 + length.toNat := by simp only [size]; omega
    rw [hsize, fields, hcount]
    exact (word16_fills hl).cons hfill
  | integer | float =>
    obtain ⟨⟨bits, r₁⟩, hb, h⟩ := bind_eq_ok_iff.mp h
    cases h
    exact ⟨rfl, rfl, word32_fills hb⟩
  | long | double =>
    obtain ⟨⟨bits, r₁⟩, hb, h⟩ := bind_eq_ok_iff.mp h
    cases h
    exact ⟨rfl, rfl, word64_fills hb⟩
  | methodHandle =>
    obtain ⟨⟨kind, r₁⟩, hk, h⟩ := bind_eq_ok_iff.mp h
    obtain ⟨⟨reference, r₂⟩, hr, h⟩ := bind_eq_ok_iff.mp h
    cases h
    exact ⟨rfl, rfl, (byte_fills hk).cons (word16_fills hr)⟩
  | classRef | string | methodType | module | package =>
    obtain ⟨index, rfl, hfill⟩ := readOne_fills h
    exact ⟨rfl, rfl, hfill⟩
  | fieldRef | methodRef | interfaceMethodRef | nameAndType | dynamic | invokeDynamic =>
    obtain ⟨first, second, rfl, hfill⟩ := readTwo_fills h
    exact ⟨rfl, rfl, hfill⟩

private theorem read_fills (h : read r = .ok (c, r')) : Fills c.layout c.size r r' := by
  obtain ⟨⟨code, r₁⟩, hcode, h⟩ := bind_eq_ok_iff.mp h
  simp only at h
  split at h
  · next tag htag =>
    obtain ⟨hc, hsize, hfill⟩ := readFields_fills h
    have hlayout : c.layout = .ok [code] :: c.fields := by
      simp only [layout, hc, Tag.code_of_ofCode? htag]
    rw [hsize, Nat.add_comm, hlayout]
    exact (byte_fills hcode).cons hfill
  · cases h

end Constant

namespace Pool

theorem layout_filling (c : Constant) : (filling c).flatMap Constant.layout = c.layout := by
  cases hw : c.isWide <;> simp [filling, hw, Constant.layout, Constant.tag?]

private theorem size_filling (c : Constant) : total Constant.size (filling c) = c.size := by
  cases hw : c.isWide <;> simp [filling, hw, Constant.size]

/-- `p'` holds the slots of `p` and `n` more, which fill the stretch between two readers. -/
def Grows (p p' : Pool) (n : Nat) (r r' : Reader) : Prop :=
  ∃ new : List Constant, p'.entries.toList = p.entries.toList ++ new ∧ new.length = n ∧
    Fills (new.flatMap Constant.layout) (total Constant.size new) r r'

private theorem Grows.entry {c : Constant} {p p' : Pool} {n : Nat} {r r₁ r' : Reader}
    (hc : Constant.read r = .ok (c, r₁)) (h : Grows (p.append c) p' n r₁ r') :
    Grows p p' (c.slots + n) r r' := by
  obtain ⟨new, hnew, hlen, hfill⟩ := h
  refine ⟨filling c ++ new, ?_, ?_, ?_⟩
  · rw [hnew, entries_append, List.append_assoc]
  · rw [List.length_append, length_filling, hlen]
  · rw [List.flatMap_append, layout_filling, total_append, size_filling]
    exact (Constant.read_fills hc).append hfill

private theorem readEntries_grows {count room : Nat} {p p' : Pool} {r r' : Reader}
    (h : readEntries count room p r = .ok (p', r')) : Grows p p' room r r' := by
  fun_induction readEntries count room p r with
  | case1 p r =>
    simp only [Except.ok.injEq, Prod.mk.injEq] at h
    obtain ⟨rfl, rfl⟩ := h
    exact ⟨[], by simp, rfl, Fills.nil _⟩
  | case2 => cases h
  | case3 p r c r₁ hc hwide room ih =>
    have hslots : room.succ.succ = c.slots + room := by simp [Constant.slots, hwide]; omega
    rw [hslots]
    exact Grows.entry hc (ih h)
  | case4 => cases h
  | case5 room p r c r₁ hc hnarrow ih =>
    have hslots : room.succ = c.slots + room := by simp [Constant.slots, hnarrow]; omega
    rw [hslots]
    exact Grows.entry hc (ih h)

private theorem read_fills {p : Pool} {r r' : Reader} (h : read r = .ok (p, r')) :
    Fills p.layout p.size r r' := by
  obtain ⟨⟨count, r₁⟩, hcount, h⟩ := bind_eq_ok_iff.mp h
  simp only at h
  split at h
  · cases h
  · next room hroom =>
    obtain ⟨new, hnew, hlen, hfill⟩ := readEntries_grows h
    have hentries : p.entries.toList = .unusable :: new := by simpa [empty] using hnew
    have hsize : p.count = count.toNat := by
      rw [Pool.count, ← Array.length_toList, hentries, List.length_cons, hlen, hroom]
    have hslots : p.entries.toList.flatMap Constant.layout = new.flatMap Constant.layout := by
      simp [hentries, Constant.layout, Constant.tag?]
    have htotal : total Constant.size p.entries.toList = total Constant.size new := by
      simp [hentries, Constant.size]
    rw [layout, size, hsize, hslots, htotal]
    exact (word16_fills hcount).cons hfill

end Pool

namespace Attribute

private theorem read_fills {a : Attribute} {r r' : Reader} (h : read r = .ok (a, r')) :
    Fills a.layout a.size r r' := by
  obtain ⟨⟨name, r₁⟩, hname, h⟩ := bind_eq_ok_iff.mp h
  obtain ⟨⟨length, r₂⟩, hlength, h⟩ := bind_eq_ok_iff.mp h
  obtain ⟨⟨content, r₃⟩, hcontent, h⟩ := bind_eq_ok_iff.mp h
  cases h
  obtain ⟨hlen, hfill⟩ := take_fills hcontent
  have hsize : content.toArray.size = length.toNat := by simpa using hlen
  have hitem : lengthItem length.toNat = .ok (Bytes.ofUInt32 length) := if_pos length.toNat_lt
  have hall := (word16_fills hname).cons ((word32_fills hlength).cons hfill)
  rw [← Nat.add_assoc] at hall
  rw [layout, size, hsize, hitem]
  exact hall

private theorem readTable_fills {attributes : Array Attribute} {r r' : Reader}
    (h : readTable r = .ok (attributes, r')) :
    Fills (tableLayout attributes) (tableSize attributes) r r' :=
  table_fills read_fills .attributeCount h

end Attribute

namespace Member

private theorem read_fills {m : Member} {r r' : Reader} (h : read r = .ok (m, r')) :
    Fills m.layout m.size r r' := by
  obtain ⟨⟨access, r₁⟩, haccess, h⟩ := bind_eq_ok_iff.mp h
  obtain ⟨⟨name, r₂⟩, hname, h⟩ := bind_eq_ok_iff.mp h
  obtain ⟨⟨descriptor, r₃⟩, hdescriptor, h⟩ := bind_eq_ok_iff.mp h
  obtain ⟨⟨attributes, r₄⟩, hattributes, h⟩ := bind_eq_ok_iff.mp h
  cases h
  have hall := (word16_fills haccess).cons ((word16_fills hname).cons
    ((word16_fills hdescriptor).cons (Attribute.readTable_fills hattributes)))
  rw [← Nat.add_assoc, ← Nat.add_assoc] at hall
  exact hall

private theorem readTable_fills {members : Array Member} {r r' : Reader}
    (h : readTable r = .ok (members, r')) :
    Fills (tableLayout members) (tableSize members) r r' :=
  table_fills read_fills .memberCount h

end Member

namespace ClassFile

variable {c : ClassFile}

theorem readTables_fills {r₀ r r' : Reader} (hmagic : Fills [.ok magic] 4 r₀ r)
    (h : readTables r = .ok (c, r')) : Fills c.layout c.size r₀ r' := by
  obtain ⟨⟨minor, r₁⟩, hminor, h⟩ := bind_eq_ok_iff.mp h
  obtain ⟨⟨major, r₂⟩, hmajor, h⟩ := bind_eq_ok_iff.mp h
  obtain ⟨⟨pool, r₃⟩, hpool, h⟩ := bind_eq_ok_iff.mp h
  obtain ⟨⟨access, r₄⟩, haccess, h⟩ := bind_eq_ok_iff.mp h
  obtain ⟨⟨this, r₅⟩, hthis, h⟩ := bind_eq_ok_iff.mp h
  obtain ⟨⟨super, r₆⟩, hsuper, h⟩ := bind_eq_ok_iff.mp h
  obtain ⟨⟨interfaces, r₇⟩, hinterfaces, h⟩ := bind_eq_ok_iff.mp h
  obtain ⟨⟨fields, r₈⟩, hfields, h⟩ := bind_eq_ok_iff.mp h
  obtain ⟨⟨methods, r₉⟩, hmethods, h⟩ := bind_eq_ok_iff.mp h
  obtain ⟨⟨attributes, r₁₀⟩, hattributes, h⟩ := bind_eq_ok_iff.mp h
  cases h
  have hversions := hmagic.cons ((word16_fills hminor).cons (word16_fills hmajor))
  have hnames := (word16_fills haccess).cons ((word16_fills hthis).cons (word16_fills hsuper))
  have hinterfaces := table_fills word16_fills .interfaceCount hinterfaces
  have hall := (((((hversions.append (Pool.read_fills hpool)).append hnames).append
    hinterfaces).append (Member.readTable_fills hfields)).append
    (Member.readTable_fills hmethods)).append (Attribute.readTable_fills hattributes)
  have hsingle : interfaces.toList.flatMap (fun index => ([.ok (Bytes.ofUInt16 index)] : Layout)) =
      interfaces.toList.map fun index => .ok (Bytes.ofUInt16 index) :=
    List.flatMap_pure_eq_map _ _
  rw [hsingle, total_const] at hall
  have hsize : size ⟨minor, major, pool, access, this, super, interfaces, fields, methods,
      attributes⟩ = 4 + (2 + 2) + pool.size + (2 + (2 + 2)) +
      (2 + interfaces.toList.length * 2) + Member.tableSize fields + Member.tableSize methods +
      Attribute.tableSize attributes := by
    simp only [size, Array.length_toList]
    omega
  rw [hsize]
  simpa [layout, List.append_assoc] using hall

/-- A class file is written back as the bytes it was read from, and its size is their number. -/
theorem toBytes_of_ofBytes {bytes : Bytes} (h : ofBytes bytes = .ok c) :
    c.toBytes = .ok bytes ∧ c.size = bytes.length := by
  obtain ⟨r, after, htake, htables, hrest⟩ := readTables_of_ofBytes h
  obtain ⟨bytes', hbytes, hser, hlen⟩ := readTables_fills (take_fills htake).2 htables
  rw [hrest, List.append_nil] at hbytes
  subst hbytes
  exact ⟨by rw [toBytes, hser, Reader.ofBytes], hlen.symm⟩

/-- A class with a long, a text that no string is written as, flags without a meaning, and an
attribute with a content of its own. -/
def sample : Bytes :=
  magic ++ [0, 3, 0, 52] ++
    [0, 7, 5, 1, 2, 3, 4, 5, 6, 7, 8, 1, 0, 2, 0xFF, 0, 7, 0, 3, 1, 0, 0, 8, 0, 5] ++
    [0xFF, 0xFF, 0, 4, 0, 0] ++ [0, 1, 0, 4] ++ [0, 0] ++ [0, 0] ++
    [0, 1, 0, 5, 0, 0, 0, 3, 1, 2, 3]

theorem toBytes_sample : ∃ c, ofBytes sample = .ok c ∧ c.pool.count = 7 ∧
    c.toBytes = .ok sample ∧ c.size = sample.length := by
  have hrun : (ofBytes sample).toOption.map (fun c => c.pool.count) = some 7 := by
    rfl
  cases hc : ofBytes sample with
  | error fault =>
    rw [hc] at hrun
    cases hrun
  | ok c =>
    simp only [hc, Except.toOption, Option.map_some, Option.some.injEq] at hrun
    obtain ⟨hbytes, hsize⟩ := toBytes_of_ofBytes hc
    exact ⟨c, rfl, hrun, hbytes, hsize⟩

end ClassFile

end Retarget
