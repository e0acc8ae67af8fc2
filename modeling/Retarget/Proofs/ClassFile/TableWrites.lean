import Retarget.Proofs.ClassFile.Written

/-!
Tables written into buffers of any size, at any offset. Item after item goes
behind the offset until one does not fit; then the table is refused, and what
stands in the buffer up to the offset left behind is a front of the table.
Nothing else in the buffer changes. Offsets may be words of 64 bits: their sums
are checked, and checked sums find the same items too long.
-/

set_option autoImplicit false

namespace Retarget

namespace Buffer

/-- The second buffer is the first one with some bytes at its offset, which has moved behind them.
There was room for them, and all other bytes are as they were. -/
structure Advanced (written : Bytes) (b b' : Buffer) : Prop where
  room : written = [] ∨ b.offset + written.length ≤ b.bytes.size
  size : b'.bytes.size = b.bytes.size
  offset : b'.offset = b.offset + written.length
  inside : ∀ k, k < written.length → b'.bytes[b.offset + k]? = written[k]?
  outside : ∀ i, i < b.offset ∨ b.offset + written.length ≤ i → b'.bytes[i]? = b.bytes[i]?

private theorem advanced_put {written : Bytes} {b : Buffer}
    (hroom : written = [] ∨ b.offset + written.length ≤ b.bytes.size) :
    Advanced written b (b.put written) where
  room := hroom
  size := size_blit _ _ _
  offset := rfl
  inside k hk := by
    have hfit : b.offset + written.length ≤ b.bytes.size := by
      rcases hroom with rfl | hfit
      · exact absurd hk (Nat.not_lt_zero k)
      · exact hfit
    rw [put, getElem?_blit, if_pos (by omega), Nat.add_sub_cancel_left]
  outside i hi := by
    rw [put, getElem?_blit, if_neg (by omega)]

end Buffer

namespace Layout

variable {layout : Layout} {bytes : Bytes} {b : Buffer}

private theorem writeTo_of_narrow (h : layout.serialize = .ok bytes)
    (hnarrow : b.bytes.size < b.offset + bytes.length)
    (hstart : layout ≠ [] ∨ b.offset ≤ b.bytes.size) :
    ∃ (front : Layout) (item : Bytes) (back : Layout) (written : Bytes),
      layout = front ++ .ok item :: back ∧ front.serialize = .ok written ∧
      (written = [] ∨ b.offset + written.length ≤ b.bytes.size) ∧
      b.bytes.size < b.offset + written.length + item.length ∧
      layout.writeTo b = (b.put written, .error .outOfBounds) := by
  induction layout generalizing bytes b with
  | nil =>
    cases h
    have hle := hstart.resolve_left (fun hne => hne rfl)
    exact absurd hnarrow (Nat.not_lt.mpr hle)
  | cons item layout ih =>
    obtain ⟨first, rest, rfl, hrest, rfl⟩ := serialize_cons_eq_ok_iff.mp h
    by_cases hfits : b.fits first.length = true
    · have hroom : b.offset + first.length ≤ b.bytes.size := of_decide_eq_true hfits
      have hsize : (b.put first).bytes.size = b.bytes.size := size_blit _ _ _
      have hoffset : (b.put first).offset = b.offset + first.length := rfl
      rw [List.length_append, ← Nat.add_assoc, ← hoffset, ← hsize] at hnarrow
      obtain ⟨front, item, back, written, rfl, hwritten, hleft, hstop, hwrite⟩ :=
        ih hrest hnarrow (.inr (by rw [hsize, hoffset]; exact hroom))
      refine ⟨.ok first :: front, item, back, first ++ written, rfl, ?_, .inr ?_, ?_, ?_⟩
      · exact serialize_cons_eq_ok_iff.mpr ⟨first, written, rfl, hwritten, rfl⟩
      · rw [List.length_append, ← Nat.add_assoc]
        rcases hleft with rfl | hleft
        · exact hroom
        · rwa [hsize, hoffset] at hleft
      · rwa [List.length_append, ← Nat.add_assoc, ← hoffset, ← hsize]
      · rw [writeTo, if_pos hfits, hwrite]
        simp only [Buffer.put, blit_append, List.length_append, Nat.add_assoc]
    · refine ⟨[], first, layout, [], rfl, rfl, .inl rfl, ?_, ?_⟩
      · exact Nat.lt_of_not_le fun hroom => hfits (decide_eq_true hroom)
      · rw [writeTo, if_neg hfits]
        rfl

section Words

def wordSpan : Nat := 0x10000000000000000

def checkedAdd (offset : UInt64) (n : Nat) : Option UInt64 :=
  if offset.toNat + n < wordSpan then some (offset + UInt64.ofNat n) else none

def writeAt : Layout → Array UInt8 → UInt64 → (Array UInt8 × UInt64) × Except Fault Unit
  | [], target, offset => ((target, offset), .ok ())
  | .error defect :: _, target, offset => ((target, offset), .error (.malformed defect))
  | .ok bytes :: rest, target, offset =>
    match checkedAdd offset bytes.length with
    | none => ((target, offset), .error .outOfBounds)
    | some stop =>
      if stop.toNat ≤ target.size then writeAt rest (blit target offset.toNat bytes) stop
      else ((target, offset), .error .outOfBounds)

theorem checkedAdd_eq_some {offset : UInt64} {n : Nat} (h : offset.toNat + n < wordSpan) :
    ∃ stop : UInt64, checkedAdd offset n = some stop ∧ stop.toNat = offset.toNat + n := by
  refine ⟨offset + UInt64.ofNat n, if_pos h, ?_⟩
  have hspan : wordSpan = 2 ^ 64 := by decide
  have hn : n < 2 ^ 64 := by omega
  rw [UInt64.toNat_add, UInt64.toNat_ofNat_of_lt' hn, ← hspan, Nat.mod_eq_of_lt h]

private theorem writeAt_eq (layout : Layout) {target : Array UInt8} (hsize : target.size < wordSpan)
    (offset : UInt64) : ∃ stop : UInt64,
      layout.writeAt target offset = (((layout.writeTo ⟨target, offset.toNat⟩).1.bytes, stop),
        (layout.writeTo ⟨target, offset.toNat⟩).2) ∧
      stop.toNat = (layout.writeTo ⟨target, offset.toNat⟩).1.offset := by
  induction layout generalizing target offset with
  | nil => exact ⟨offset, rfl, rfl⟩
  | cons item layout ih =>
    cases item with
    | error defect => exact ⟨offset, rfl, rfl⟩
    | ok bytes =>
      by_cases hfits : offset.toNat + bytes.length ≤ target.size
      · obtain ⟨stop, hstop, hvalue⟩ := checkedAdd_eq_some (Nat.lt_of_le_of_lt hfits hsize)
        have hbuffer : (⟨target, offset.toNat⟩ : Buffer).fits bytes.length = true :=
          decide_eq_true hfits
        have hput : (⟨target, offset.toNat⟩ : Buffer).put bytes =
            ⟨blit target offset.toNat bytes, stop.toNat⟩ := by
          rw [Buffer.put, hvalue]
        have hsize' : (blit target offset.toNat bytes).size < wordSpan := by rwa [size_blit]
        have hrest := ih hsize' stop
        rw [writeAt, hstop, writeTo, if_pos hbuffer, hput]
        simpa only [hvalue, hfits, if_true] using hrest
      · have hbuffer : ¬ (⟨target, offset.toNat⟩ : Buffer).fits bytes.length = true :=
          fun h => hfits (of_decide_eq_true h)
        refine ⟨offset, ?_, ?_⟩
        · rw [writeTo, if_neg hbuffer, writeAt]
          cases hsum : checkedAdd offset bytes.length with
          | none => rfl
          | some stop =>
            have hspan : offset.toNat + bytes.length < wordSpan := by
              rw [checkedAdd] at hsum
              split_ifs at hsum with hspan
              exact hspan
            obtain ⟨stop', hstop', hvalue⟩ := checkedAdd_eq_some hspan
            cases hsum.symm.trans hstop'
            have htoo : ¬ stop.toNat ≤ target.size := by rwa [hvalue]
            simp only [htoo, if_false]
        · rw [writeTo, if_neg hbuffer]

end Words

end Layout

inductive Table where
  | attributes (table : Array Attribute)
  | members (table : Array Member)
  | pool (table : Pool)

namespace Table

open Layout

variable {table : Table}

def layout : Table → Layout
  | attributes table => Attribute.tableLayout table
  | members table => Member.tableLayout table
  | pool table => table.layout

def size : Table → Nat
  | attributes table => Attribute.tableSize table
  | members table => Member.tableSize table
  | pool table => table.size

def Fits : Table → Prop
  | attributes table => Attribute.TableFits table
  | members table => Member.TableFits table
  | pool table => table.TextsFit

private theorem measures (table : Table) : table.layout.Measures table.size := by
  cases table with
  | attributes table => exact Attribute.measures_table table
  | members table => exact Member.measures_table table
  | pool table => exact table.measures

private theorem clean_iff : table.layout.Clean ↔ table.Fits := by
  cases table with
  | attributes table => exact Attribute.clean_table_iff
  | members table => exact Member.clean_table_iff
  | pool table => exact table.clean_iff

private theorem layout_ne_nil (table : Table) : table.layout ≠ [] := by
  cases table <;> exact List.cons_ne_nil _ _

/-- A table whose counts fit serializes to as many bytes as its size. Where there is room for them
they are written; otherwise the table is refused as out of bounds at the first item that does not
fit, and a front of them is written. Nothing else in the buffer changes, and offsets that are words
of 64 bits give the same. -/
theorem written_or_cut_short (h : table.Fits) :
    ∃ bytes, table.layout.serialize = .ok bytes ∧ bytes.length = table.size ∧
      (∀ b : Buffer, b.offset + table.size ≤ b.bytes.size →
        ∃ b', table.layout.writeTo b = (b', .ok ()) ∧ b.Advanced bytes b') ∧
      (∀ b : Buffer, b.bytes.size < b.offset + table.size →
        ∃ b' written item back, table.layout.writeTo b = (b', .error .outOfBounds) ∧
          b.Advanced written b' ∧ bytes = written ++ item ++ back ∧
          b.bytes.size < b'.offset + item.length) ∧
      ∀ (target : Array UInt8) (offset : UInt64), target.size < wordSpan → ∃ stop : UInt64,
        table.layout.writeAt target offset =
          (((table.layout.writeTo ⟨target, offset.toNat⟩).1.bytes, stop),
            (table.layout.writeTo ⟨target, offset.toNat⟩).2) ∧
        stop.toNat = (table.layout.writeTo ⟨target, offset.toNat⟩).1.offset := by
  have hclean := clean_iff.mpr h
  obtain ⟨bytes, hbytes⟩ := Layout.clean_iff.mp hclean
  have hlength : bytes.length = table.size :=
    (length_of_serialize hbytes).trans (table.measures.eq hclean)
  refine ⟨bytes, hbytes, hlength, fun b hroom => ?_, fun b hnarrow => ?_,
    fun target offset hsize => writeAt_eq table.layout hsize offset⟩
  · rw [← hlength] at hroom
    exact ⟨b.put bytes, writeTo_of_serialize hbytes hroom, Buffer.advanced_put (.inr hroom)⟩
  · rw [← hlength] at hnarrow
    obtain ⟨front, item, back, written, hlayout, hwritten, hleft, hstop, hwrite⟩ :=
      writeTo_of_narrow hbytes hnarrow (.inl table.layout_ne_nil)
    rw [hlayout] at hbytes
    obtain ⟨first, others, hfirst, hothers, rfl⟩ := serialize_append_eq_ok_iff.mp hbytes
    cases hwritten.symm.trans hfirst
    obtain ⟨next, rest, hnext, -, rfl⟩ := serialize_cons_eq_ok_iff.mp hothers
    cases hnext
    exact ⟨b.put written, written, item, rest, hwrite, Buffer.advanced_put hleft,
      (List.append_assoc _ _ _).symm, hstop⟩

/-- An attribute table of ten bytes in a buffer with room for nine: only the content of the
attribute does not fit. -/
theorem written_or_cut_short_content :
    (attributes #[⟨5, #[7, 8]⟩]).Fits ∧ ∃ b' written,
      (attributes #[⟨5, #[7, 8]⟩]).layout.writeTo (.zeros 12 3) = (b', .error .outOfBounds) ∧
      (Buffer.zeros 12 3).Advanced written b' ∧ written = [0, 1, 0, 5, 0, 0, 0, 2] ∧
      b'.offset = 11 := by
  have hfits : (attributes #[⟨5, #[7, 8]⟩]).Fits := ⟨by decide, by decide⟩
  obtain ⟨bytes, hbytes, hlength, -, hnarrow, -⟩ := written_or_cut_short hfits
  obtain ⟨b', written, item, back, hwrite, hadvanced, hwhole, hstop⟩ :=
    hnarrow (.zeros 12 3) (by decide)
  have hoffset : b'.offset = 11 := by
    rw [← congrArg (fun result => result.1.offset) hwrite]
    decide
  have hserial : bytes = [0, 1, 0, 5, 0, 0, 0, 2, 7, 8] := by
    have hvalue : (attributes #[⟨5, #[7, 8]⟩]).layout.serialize =
        .ok [0, 1, 0, 5, 0, 0, 0, 2, 7, 8] := by rfl
    cases hvalue.symm.trans hbytes
    rfl
  have hwritten : written.length = 8 := by
    have hmoved := hadvanced.offset
    rw [hoffset] at hmoved
    exact (Nat.add_left_cancel hmoved).symm
  refine ⟨hfits, b', written, hwrite, hadvanced, ?_, hoffset⟩
  have hfront : written = bytes.take 8 := by
    rw [hwhole, ← hwritten, List.append_assoc, List.take_left]
  rw [hfront, hserial]
  rfl

end Table

end Retarget
