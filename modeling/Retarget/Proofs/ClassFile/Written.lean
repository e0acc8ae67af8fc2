import Retarget.Proofs.Bytes.Buffered
import Retarget.Proofs.ClassFile.PoolEdits
import Retarget.Proofs.ClassFile.Reread

/-!
When a class file can be written. The size is computed, the tables are checked
and the bytes are written in three traversals; they agree on every class file.
Written it is if every table and text fits its count, and then it is as long as
its size, goes into a buffer of that size and is read as the same tables. If one
does not fit, it is refused for that reason and never for want of room.
-/

set_option autoImplicit false

namespace Retarget

open Layout

namespace Constant

private theorem measures_fields (c : Constant) : c.fields.Measures (c.size - 1) := by
  cases c with
  | unusable => exact .nil
  | utf8 text =>
    have hsize : (utf8 text).size - 1 = 2 + text.length := by simp only [size]; omega
    rw [hsize]
    exact (Measures.count text.length .utf8Size).cons (.ok rfl)
  | integer bits | float bits => exact .ok (Bytes.length_ofNat 4 _)
  | long bits | double bits => exact .ok (Bytes.length_ofNat 8 _)
  | classRef index | string index | methodType index | module index | package index =>
    exact .ok (Bytes.length_ofUInt16 index)
  | fieldRef first second | methodRef first second | interfaceMethodRef first second
  | nameAndType first second | dynamic first second | invokeDynamic first second =>
    exact (Measures.ok (Bytes.length_ofUInt16 first)).cons (.ok (Bytes.length_ofUInt16 second))
  | methodHandle kind reference =>
    have hkind : Measures [.ok [kind]] 1 := .ok rfl
    exact hkind.cons (.ok (Bytes.length_ofUInt16 reference))

private theorem measures (c : Constant) : c.layout.Measures c.size := by
  cases htag : c.tag? with
  | none =>
    have hc : c = .unusable := by cases c <;> first | rfl | cases htag
    subst hc
    exact .nil
  | some tag =>
    have hsize : c.size = 1 + (c.size - 1) := by
      cases c with
      | unusable => cases htag
      | utf8 text => simp only [size]; omega
      | _ => rfl
    rw [layout, htag, hsize]
    have hcode : Measures [.ok [tag.code]] 1 := .ok rfl
    exact hcode.cons c.measures_fields

private theorem clean_iff (c : Constant) :
    c.layout.Clean ↔ ∀ text, c = .utf8 text → text.length < 0x10000 := by
  cases c with
  | utf8 text =>
    have htext : (utf8 text).layout.Clean ↔ text.length < 0x10000 := by
      change Clean ([.ok [Tag.utf8.code]] ++ ([Layout.count text.length .utf8Size] ++
        [.ok text])) ↔ _
      rw [clean_append, clean_append, clean_count]
      exact ⟨fun h => h.2.1, fun h => ⟨clean_ok _, h, clean_ok _⟩⟩
    rw [htext]
    constructor
    · rintro h _ ⟨⟩
      exact h
    · intro h
      exact h text rfl
  | _ =>
    refine iff_of_true ?_ (fun text h => Constant.noConfusion h)
    simp [layout, tag?, fields, Clean]

end Constant

namespace Pool

theorem measures (p : Pool) : p.layout.Measures p.size :=
  (Measures.ok (Bytes.length_ofNat 2 p.count)).cons
    (Measures.flatMap fun c _ => c.measures)

def TextsFit (p : Pool) : Prop :=
  ∀ text, Constant.utf8 text ∈ p.entries → text.length < 0x10000

theorem clean_iff (p : Pool) : p.layout.Clean ↔ p.TextsFit := by
  rw [layout, clean_cons, clean_flatMap]
  constructor
  · rintro ⟨-, h⟩ text htext
    exact (Constant.clean_iff _).mp (h _ (Array.mem_toList_iff.mpr htext)) text rfl
  · intro h
    refine ⟨⟨_, rfl⟩, fun c hc => (Constant.clean_iff c).mpr ?_⟩
    rintro text rfl
    exact h text (Array.mem_toList_iff.mp hc)

end Pool

namespace Attribute

variable {attributes : Array Attribute}

structure TableFits (attributes : Array Attribute) : Prop where
  count : attributes.size < 0x10000
  contents : ∀ a ∈ attributes, a.content.size < 0x100000000

private theorem measures (a : Attribute) : a.layout.Measures a.size := by
  rw [layout, lengthItem]
  split
  · next length hlength =>
    split_ifs at hlength
    cases hlength
    have hsize : a.size = 2 + (4 + a.content.size) := by rw [size]; omega
    rw [hsize]
    exact (Measures.ok (Bytes.length_ofUInt16 a.name)).cons
      ((Measures.ok (Bytes.length_ofNat 4 _)).cons (.ok Array.length_toList))
  · exact .error _ _

private theorem clean_iff (a : Attribute) : a.layout.Clean ↔ a.content.size < 0x100000000 := by
  rw [layout, lengthItem]
  split_ifs with h
  · simp [Clean, h]
  · simp [Clean, h]

theorem measures_table (attributes : Array Attribute) :
    (tableLayout attributes).Measures (tableSize attributes) :=
  .table attributes .attributeCount fun a _ => a.measures

theorem clean_table_iff : (tableLayout attributes).Clean ↔ TableFits attributes := by
  rw [tableLayout, ← List.singleton_append, clean_append, clean_count, clean_flatMap]
  simp only [clean_iff, Array.mem_toList_iff]
  exact ⟨fun ⟨hcount, hcontents⟩ => ⟨hcount, hcontents⟩, fun h => ⟨h.count, h.contents⟩⟩

end Attribute

namespace Member

variable {members : Array Member}

structure TableFits (members : Array Member) : Prop where
  count : members.size < 0x10000
  attributes : ∀ m ∈ members, Attribute.TableFits m.attributes

private theorem measures (m : Member) : m.layout.Measures m.size := by
  have hsize : m.size = 2 + (2 + (2 + Attribute.tableSize m.attributes)) := by rw [size]; omega
  rw [hsize]
  exact (Measures.ok (Bytes.length_ofUInt16 m.access)).cons
    ((Measures.ok (Bytes.length_ofUInt16 m.name)).cons
      ((Measures.ok (Bytes.length_ofUInt16 m.descriptor)).cons
        (Attribute.measures_table m.attributes)))

private theorem clean_iff (m : Member) : m.layout.Clean ↔ Attribute.TableFits m.attributes := by
  rw [layout, clean_cons, clean_cons, clean_cons, Attribute.clean_table_iff]
  exact ⟨fun h => h.2.2.2, fun h => ⟨⟨_, rfl⟩, ⟨_, rfl⟩, ⟨_, rfl⟩, h⟩⟩

theorem measures_table (members : Array Member) :
    (tableLayout members).Measures (tableSize members) :=
  .table members .memberCount fun m _ => m.measures

theorem clean_table_iff : (tableLayout members).Clean ↔ TableFits members := by
  rw [tableLayout, ← List.singleton_append, clean_append, clean_count, clean_flatMap]
  simp only [clean_iff, Array.mem_toList_iff]
  exact ⟨fun ⟨hcount, hattributes⟩ => ⟨hcount, hattributes⟩, fun h => ⟨h.count, h.attributes⟩⟩

end Member

namespace ClassFile

variable {c : ClassFile} {bytes : Bytes}

/-- Every table and every text of the class has a count that can be written. -/
structure Fits (c : ClassFile) : Prop where
  texts : c.pool.TextsFit
  interfaces : c.interfaces.size < 0x10000
  fields : Member.TableFits c.fields
  methods : Member.TableFits c.methods
  attributes : Attribute.TableFits c.attributes

private theorem measures (c : ClassFile) : c.layout.Measures c.size := by
  have hmagic : Measures [.ok magic] 4 := .ok rfl
  have hversions := (Measures.ok (Bytes.length_ofUInt16 c.minor)).cons
    (.ok (Bytes.length_ofUInt16 c.major))
  have hnames := (Measures.ok (Bytes.length_ofUInt16 c.access)).cons
    ((Measures.ok (Bytes.length_ofUInt16 c.thisClass)).cons
      (.ok (Bytes.length_ofUInt16 c.superClass)))
  have hinterfaces : Measures (Layout.count c.interfaces.size .interfaceCount ::
      c.interfaces.toList.flatMap fun index => [.ok (Bytes.ofUInt16 index)])
      (2 + total (fun _ => 2) c.interfaces.toList) :=
    .table c.interfaces .interfaceCount fun index _ => .ok (Bytes.length_ofUInt16 index)
  have htables := hversions.append (c.pool.measures.append (hnames.append
    (hinterfaces.append ((Member.measures_table c.fields).append
      ((Member.measures_table c.methods).append (Attribute.measures_table c.attributes))))))
  have hsize : c.size = 4 + ((2 + 2) + (c.pool.size + ((2 + (2 + 2)) +
      ((2 + total (fun _ => 2) c.interfaces.toList) + (Member.tableSize c.fields +
        (Member.tableSize c.methods + Attribute.tableSize c.attributes)))))) := by
    rw [size, total_const, Array.length_toList]
    omega
  rw [layout_eq, hsize]
  exact hmagic.cons htables

theorem clean_iff : c.layout.Clean ↔ c.Fits := by
  have hindices : Clean (c.interfaces.toList.flatMap fun index =>
      [.ok (Bytes.ofUInt16 index)]) := clean_flatMap.mpr fun index _ => clean_ok _
  have hcount : (∃ bytes, Layout.count c.interfaces.size .interfaceCount = .ok bytes) ↔
      c.interfaces.size < 0x10000 := by
    have hclean : Clean [Layout.count c.interfaces.size .interfaceCount] ↔
        c.interfaces.size < 0x10000 := clean_count
    rw [← hclean, clean_cons, and_iff_left clean_nil]
  rw [layout_eq, tables]
  simp only [clean_cons, clean_append, Pool.clean_iff, Member.clean_table_iff,
    Attribute.clean_table_iff, Except.ok.injEq, exists_eq', true_and, hcount]
  constructor
  · rintro ⟨htexts, ⟨hinterfaces, -⟩, hfields, hmethods, hattributes⟩
    exact ⟨htexts, hinterfaces, hfields, hmethods, hattributes⟩
  · intro h
    exact ⟨h.texts, ⟨h.interfaces, hindices⟩, h.fields, h.methods, h.attributes⟩

theorem toBytes_eq_ok_iff : c.toBytes = .ok bytes ↔ c.layout.serialize = .ok bytes := by
  rw [toBytes]
  cases c.layout.serialize <;> simp

private theorem writeTo_zeros_of_toBytes (h : c.toBytes = .ok bytes) : bytes.length = c.size ∧
    c.layout.writeTo (.zeros c.size 0) = (⟨bytes.toArray, c.size⟩, .ok ()) :=
  writeTo_zeros c.measures (toBytes_eq_ok_iff.mp h)

private theorem writeTo_zeros_of_not_fits (h : ¬ c.Fits) : ∃ defect,
    c.toBytes = .error (.malformed defect) ∧
      (c.layout.writeTo (.zeros c.size 0)).2 = .error (.malformed defect) := by
  cases hserialize : c.layout.serialize with
  | ok bytes => exact absurd (clean_iff.mp (Layout.clean_iff.mpr ⟨bytes, hserialize⟩)) h
  | error defect =>
    have hroom : (Buffer.zeros c.size 0).offset + c.layout.width ≤
        (Buffer.zeros c.size 0).bytes.size := by
      have hsize : (Buffer.zeros c.size 0).bytes.size = c.size := Array.size_replicate
      rw [hsize]
      exact (Nat.zero_add c.layout.width).symm ▸ c.measures.le
    exact ⟨defect, by rw [toBytes, hserialize], writeTo_of_defect hserialize hroom⟩

private theorem toBytes_withPool {q : Pool} (h : q.entries = c.pool.entries) :
    ({ c with pool := q } : ClassFile).toBytes = c.toBytes := by
  have hlayout : q.layout = c.pool.layout := by
    rw [Pool.layout, Pool.layout, Pool.count, Pool.count, h]
  rw [toBytes, toBytes, layout, layout, hlayout]

private theorem exists_ofBytes_of_toBytes (hp : c.pool.Orderly) (h : c.toBytes = .ok bytes) :
    ∃ c', ofBytes bytes = .ok c' ∧ c'.pool.entries = c.pool.entries ∧
      c' = { c with pool := c'.pool } := by
  obtain ⟨q, hbuilt, hslots⟩ := hp.filled.exists_built
  have hentries : q.entries = c.pool.entries := Array.ext' hslots
  have hcount : q.count < 0x10000 := by
    rw [Pool.count, hentries]
    exact Nat.lt_of_le_of_lt hp.count_le (by decide)
  have hwritten : ({ c with pool := q } : ClassFile).toBytes = .ok bytes := by
    rw [toBytes_withPool hentries, h]
  exact ⟨{ c with pool := q }, ofBytes_of_toBytes hbuilt hcount hwritten, hentries, rfl⟩

/-- A class whose pool was reached by edits is written exactly if all its counts fit, and is
then as long as its size and read as the same tables; otherwise the defect is reported. -/
theorem written_or_refused (hp : c.pool.Reached) :
    (c.Fits ∧ ∃ bytes c', c.toBytes = .ok bytes ∧ bytes.length = c.size ∧
      c.layout.writeTo (.zeros c.size 0) = (⟨bytes.toArray, c.size⟩, .ok ()) ∧
      ofBytes bytes = .ok c' ∧ c'.pool.entries = c.pool.entries ∧
      c' = { c with pool := c'.pool }) ∨
    (¬ c.Fits ∧ ∃ defect, c.toBytes = .error (.malformed defect) ∧
      (c.layout.writeTo (.zeros c.size 0)).2 = .error (.malformed defect)) := by
  by_cases hfits : c.Fits
  · left
    obtain ⟨bytes, hserialize⟩ := Layout.clean_iff.mp (clean_iff.mpr hfits)
    have hwritten := toBytes_eq_ok_iff.mpr hserialize
    obtain ⟨hlength, hbuffer⟩ := writeTo_zeros_of_toBytes hwritten
    obtain ⟨c', hread, hentries, htables⟩ := exists_ofBytes_of_toBytes hp.orderly hwritten
    exact ⟨hfits, bytes, c', hwritten, hlength, hbuffer, hread, hentries, htables⟩
  · right
    exact ⟨hfits, writeTo_zeros_of_not_fits hfits⟩

/-- A class named `A` whose pool was put together by edits: the long it began with has given
way to a double, and asking for the text a second time added nothing. -/
def edited : ClassFile where
  minor := 0
  major := 52
  pool := Pool.empty.applyAll [.push (.long 7), .intern [65], .intern [65], .push (.classRef 3),
    .set 1 (.double 9)]
  access := 0x21
  thisClass := 4
  superClass := 0
  interfaces := #[4]
  fields := #[]
  methods := #[⟨0, 3, 3, #[⟨3, #[1, 2]⟩]⟩]
  attributes := #[]

theorem edited_written : edited.pool.Reached ∧ edited.Fits ∧ ∃ bytes c',
    edited.toBytes = .ok bytes ∧ bytes.length = edited.size ∧ edited.size = 58 ∧
      ofBytes bytes = .ok c' ∧ c'.pool.entries = edited.pool.entries ∧
      c'.pool.entries = #[.unusable, .double 9, .unusable, .utf8 [65], .classRef 3] := by
  have hpool : edited.pool.Reached := Pool.Reached.empty.applyAll (by decide)
  have hentries : edited.pool.entries =
      #[.unusable, .double 9, .unusable, .utf8 [65], .classRef 3] := by rfl
  have hsize : edited.size = 58 := by rfl
  have hok : edited.toBytes.toOption.isSome = true := by rfl
  rcases written_or_refused hpool with
    ⟨hfits, bytes, c', hwritten, hlength, -, hread, hsame, -⟩ | ⟨-, defect, hrefused, -⟩
  · exact ⟨hpool, hfits, bytes, c', hwritten, hlength, hsize, hread, hsame, hsame.trans hentries⟩
  · rw [hrefused] at hok
    cases hok

end ClassFile

end Retarget
