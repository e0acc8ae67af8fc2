import Retarget.Bytes.Cursor
import Retarget.Proofs.Bytes.BigEndian
import Retarget.Proofs.ClassFile.TableWrites

/-!
Reading and writing at offsets that are words of 64 bits. Sums of words are
checked, so a request fails exactly if the bytes that it needs are not all there,
however long it says they are; it then leaves the offset where it is, and what it
answers otherwise is told by the bytes alone. A cursor, whose positions are plain
numbers, gives the same answers, since both are the only ones there are.
-/

set_option autoImplicit false

namespace Retarget

namespace Cursor

/-- What can be asked for at an offset. Positions and numbers of bytes are words. -/
inductive Request where
  | seek (position : UInt64)
  | advance (n : UInt64)
  | endOf (n : UInt64)
  | peek
  | take (n : UInt64)
  | integer (t : IntegerType)

inductive Reply where
  | done
  | position (n : Nat)
  | byte (b : UInt8)
  | bytes (bytes : Bytes)
  | number (v : Int)

def Request.needs (offset : Nat) : Request → Nat
  | seek position => position.toNat
  | advance n | endOf n | take n => offset + n.toNat
  | peek => offset + 1
  | integer t => offset + t.width

/-- What a request answers at an offset of some data, and the offset after it. -/
inductive Meets (data : Bytes) (offset : Nat) : Request → Reply → Nat → Prop where
  | seek {position : UInt64} : Meets data offset (.seek position) .done position.toNat
  | advance {n : UInt64} : Meets data offset (.advance n) .done (offset + n.toNat)
  | endOf {n : UInt64} : Meets data offset (.endOf n) (.position (offset + n.toNat)) offset
  | peek {front back : Bytes} {b : UInt8} (hdata : data = front ++ [b] ++ back)
      (hfront : front.length = offset) : Meets data offset .peek (.byte b) offset
  | take {n : UInt64} {front bytes back : Bytes} (hdata : data = front ++ bytes ++ back)
      (hfront : front.length = offset) (hlength : bytes.length = n.toNat) :
      Meets data offset (.take n) (.bytes bytes) (offset + n.toNat)
  | integer {t : IntegerType} {front bytes back : Bytes} {v : Int}
      (hdata : data = front ++ bytes ++ back) (hfront : front.length = offset)
      (hvalue : t.BigEndian bytes v) :
      Meets data offset (.integer t) (.number v) (offset + t.width)

section Spec

variable {data front bytes back front' bytes' back' : Bytes} {offset stop stop' n : Nat}
  {request : Request} {reply reply' : Reply}

private theorem exists_cut (h : offset + n ≤ data.length) : ∃ front bytes back,
    data = front ++ bytes ++ back ∧ front.length = offset ∧ bytes.length = n := by
  refine ⟨data.take offset, (data.drop offset).take n, (data.drop offset).drop n, ?_, ?_, ?_⟩
  · rw [List.append_assoc, List.take_append_drop, List.take_append_drop]
  · rw [List.length_take]
    omega
  · rw [List.length_take, List.length_drop]
    omega

private theorem exists_byte (h : offset + 1 ≤ data.length) : ∃ front b back,
    data = front ++ [b] ++ back ∧ front.length = offset ∧ data[offset]? = some b := by
  obtain ⟨front, bytes, back, hdata, hfront, hbytes⟩ := exists_cut h
  obtain ⟨b, rfl⟩ := List.length_eq_one_iff.mp hbytes
  refine ⟨front, b, back, hdata, hfront, ?_⟩
  rw [hdata, List.append_assoc, ← hfront, List.getElem?_append_right (Nat.le_refl _), Nat.sub_self]
  rfl

private theorem cut_unique (h : front ++ bytes ++ back = front' ++ bytes' ++ back')
    (hfront : front.length = front'.length) (hbytes : bytes.length = bytes'.length) :
    bytes = bytes' := by
  rw [List.append_assoc, List.append_assoc] at h
  exact (List.append_inj (List.append_inj h hfront).2 hbytes).1

private theorem Meets.unique (h : Meets data offset request reply stop)
    (h' : Meets data offset request reply' stop') : reply = reply' ∧ stop = stop' := by
  cases h with
  | seek | advance | endOf =>
    cases h'
    exact ⟨rfl, rfl⟩
  | peek hdata hfront =>
    cases h' with
    | peek hdata' hfront' =>
      have hbytes := cut_unique (hdata.symm.trans hdata') (hfront.trans hfront'.symm) rfl
      cases hbytes
      exact ⟨rfl, rfl⟩
  | take hdata hfront hlength =>
    cases h' with
    | take hdata' hfront' hlength' =>
      have hbytes := cut_unique (hdata.symm.trans hdata') (hfront.trans hfront'.symm)
        (hlength.trans hlength'.symm)
      cases hbytes
      exact ⟨rfl, rfl⟩
  | integer hdata hfront hvalue =>
    cases h' with
    | integer hdata' hfront' hvalue' =>
      have hbytes := cut_unique (hdata.symm.trans hdata') (hfront.trans hfront'.symm)
        (hvalue.length.trans hvalue'.length.symm)
      cases hbytes
      cases hvalue.unique hvalue'
      exact ⟨rfl, rfl⟩

end Spec

end Cursor

open Cursor (Request Reply Meets)

/-- Bytes, of which there are no more than words, and the word at which they are accessed next. -/
structure WordBuffer where
  bytes : Array UInt8
  offset : UInt64
  size_lt : bytes.size < Layout.wordSpan

namespace WordBuffer

abbrev Step (α : Type) := EStateM Fault WordBuffer α

def buffer (b : WordBuffer) : Buffer := ⟨b.bytes, b.offset.toNat⟩

def moveTo (offset : UInt64) (b : WordBuffer) : WordBuffer := { b with offset }

/-- The word behind `n` bytes, if there is one and the bytes are there. -/
def stopOf (size : Nat) (offset : UInt64) (n : Nat) : Except Fault UInt64 :=
  match Layout.checkedAdd offset n with
  | none => .error .outOfBounds
  | some stop => if stop.toNat ≤ size then .ok stop else .error .outOfBounds

def seek (position : UInt64) : Step Reply := fun b =>
  if position.toNat ≤ b.bytes.size then .ok .done (b.moveTo position) else .error .outOfBounds b

def peek : Step Reply := fun b =>
  match b.bytes[b.offset.toNat]? with
  | some byte => .ok (.byte byte) b
  | none => .error .outOfBounds b

def endOf (n : UInt64) : Step Reply := fun b =>
  match stopOf b.bytes.size b.offset n.toNat with
  | .ok stop => .ok (.position stop.toNat) b
  | .error fault => .error fault b

def pass (n : Nat) (reply : Bytes → Reply) : Step Reply := fun b =>
  match stopOf b.bytes.size b.offset n with
  | .ok stop => .ok (reply (b.bytes.extract b.offset.toNat stop.toNat).toList) (b.moveTo stop)
  | .error fault => .error fault b

def answer : Request → Step Reply
  | .seek position => seek position
  | .advance n => pass n.toNat fun _ => .done
  | .endOf n => endOf n
  | .peek => peek
  | .take n => pass n.toNat .bytes
  | .integer t => pass t.width fun bytes => .number (t.decode bytes)

def write (bytes : Bytes) : Step Unit := fun b =>
  match stopOf b.bytes.size b.offset bytes.length with
  | .ok stop =>
    .ok () ⟨blit b.bytes b.offset.toNat bytes, stop, (size_blit _ _ _).symm ▸ b.size_lt⟩
  | .error fault => .error fault b

def after (b : WordBuffer) (request : Request) : WordBuffer :=
  match answer request b with
  | .ok _ b' | .error _ b' => b'

def used (b : WordBuffer) (requests : List Request) : WordBuffer :=
  requests.foldl after (b.moveTo 0)

def outcome (b : WordBuffer) (request : Request) : Except Fault Reply :=
  match answer request b with
  | .ok reply _ => .ok reply
  | .error fault _ => .error fault

end WordBuffer

namespace Cursor

def answer (c : Cursor) : Request → Except Fault (Reply × Cursor)
  | .seek position => (c.seek position.toNat).map fun c' => (.done, c')
  | .advance n => (c.advance n.toNat).map fun c' => (.done, c')
  | .endOf n => (c.endOf n.toNat).map fun stop => (.position stop, c)
  | .peek => c.peek.map fun b => (.byte b, c)
  | .take n => (c.take n.toNat).map fun taken => (.bytes taken.1, taken.2)
  | .integer t => (c.integer t).map fun taken => (.number taken.1, taken.2)

def after (c : Cursor) (request : Request) : Cursor :=
  match c.answer request with
  | .ok (_, c') => c'
  | .error _ => c

def used (data : Bytes) (requests : List Request) : Cursor :=
  requests.foldl after (ofBytes data)

variable {α : Type} {c : Cursor} {position n : Nat} {step : Reader → Except Fault (α × Reader)}
  {a : α} {r : Reader} {fault : Fault} {front bytes back : Bytes} {request : Request}

private theorem seek_ok (h : position ≤ c.data.length) :
    ∃ c', c.seek position = .ok c' ∧ c'.data = c.data ∧ c'.position = position :=
  ⟨_, dif_pos h, rfl, rfl⟩

private theorem seek_error (h : c.data.length < position) : c.seek position = .error .outOfBounds :=
  dif_neg (Nat.not_le.mpr h)

private theorem read_ok (h : step c.reader = .ok (a, r)) (hr : r.position ≤ c.data.length) :
    ∃ c', c.read step = .ok (a, c') ∧ c'.data = c.data ∧ c'.position = r.position := by
  obtain ⟨c', hseek, hdata, hposition⟩ := seek_ok hr
  refine ⟨c', ?_, hdata, hposition⟩
  rw [read, h]
  dsimp only
  rw [hseek]

private theorem read_error (h : step c.reader = .error fault) : c.read step = .error fault := by
  rw [read, h]

private theorem reader_of_cut (hdata : c.data = front ++ bytes ++ back)
    (hfront : front.length = c.position) : c.reader = ⟨c.position, bytes ++ back⟩ := by
  rw [reader, hdata, List.append_assoc, ← hfront, List.drop_left]

private theorem take_reader_ok (hdata : c.data = front ++ bytes ++ back)
    (hfront : front.length = c.position) :
    c.reader.take bytes.length = .ok (bytes, ⟨c.position + bytes.length, back⟩) := by
  rw [reader_of_cut hdata hfront, Reader.take_append _ _ _ _ rfl]

private theorem take_reader_error (h : c.data.length < c.position + n) :
    c.reader.take n = .error .outOfBounds := by
  apply Reader.take_error
  rw [reader, List.length_drop]
  have hle := c.position_le
  omega

private theorem answer_of_le (h : request.needs c.position ≤ c.data.length) : ∃ reply c',
    c.answer request = .ok (reply, c') ∧ c'.data = c.data ∧
      Meets c.data c.position request reply c'.position := by
  cases request with
  | seek position =>
    rw [Request.needs] at h
    obtain ⟨c', hseek, hdata, hposition⟩ := seek_ok h
    refine ⟨.done, c', ?_, hdata, hposition ▸ .seek⟩
    rw [answer, hseek]
    rfl
  | advance n =>
    rw [Request.needs] at h
    obtain ⟨c', hseek, hdata, hposition⟩ := seek_ok h
    refine ⟨.done, c', ?_, hdata, hposition ▸ .advance⟩
    rw [answer, advance, hseek]
    rfl
  | endOf n =>
    rw [Request.needs] at h
    refine ⟨.position (c.position + n.toNat), c, ?_, rfl, .endOf⟩
    rw [answer, endOf, if_pos h]
    rfl
  | peek =>
    obtain ⟨front, b, back, hdata, hfront, hbyte⟩ := exists_byte h
    refine ⟨.byte b, c, ?_, rfl, .peek hdata hfront⟩
    rw [answer, peek, hbyte]
    rfl
  | take n =>
    obtain ⟨front, bytes, back, hdata, hfront, hbytes⟩ := exists_cut h
    have htake := take_reader_ok hdata hfront
    rw [hbytes] at htake
    obtain ⟨c', hread, hdata', hposition⟩ := read_ok htake h
    refine ⟨.bytes bytes, c', ?_, hdata', hposition ▸ .take hdata hfront hbytes⟩
    rw [answer, take, hread]
    rfl
  | integer t =>
    obtain ⟨front, bytes, back, hdata, hfront, hbytes⟩ := exists_cut h
    have hinteger : c.reader.integer t =
        .ok (t.decode bytes, ⟨c.position + t.width, back⟩) := by
      have htake := take_reader_ok hdata hfront
      rw [hbytes] at htake
      rw [Reader.integer, htake]
    have hvalue := IntegerType.bigEndian_iff.mpr ⟨hbytes, rfl⟩
    obtain ⟨c', hread, hdata', hposition⟩ := read_ok hinteger h
    refine ⟨.number (t.decode bytes), c', ?_, hdata', hposition ▸ .integer hdata hfront hvalue⟩
    rw [answer, integer, hread]
    rfl

private theorem answer_of_lt (h : c.data.length < request.needs c.position) :
    c.answer request = .error .outOfBounds := by
  cases request with
  | seek position =>
    rw [Request.needs] at h
    rw [answer, seek_error h]
    rfl
  | advance n =>
    rw [Request.needs] at h
    rw [answer, advance, seek_error h]
    rfl
  | endOf n =>
    rw [Request.needs] at h
    rw [answer, endOf, if_neg (Nat.not_le.mpr h)]
    rfl
  | peek =>
    have hnone : c.data[c.position]? = none := List.getElem?_eq_none (Nat.le_of_lt_succ h)
    rw [answer, peek, hnone]
    rfl
  | take n =>
    rw [answer, take, read_error (take_reader_error h)]
    rfl
  | integer t =>
    have hinteger : c.reader.integer t = .error .outOfBounds := by
      rw [Reader.integer, take_reader_error h]
    rw [answer, integer, read_error hinteger]
    rfl

end Cursor

namespace Buffer

variable {target : Array UInt8} {bytes : Bytes} {i : Nat} {t : IntegerType} {v : Int} {b : Buffer}

private theorem extract_blit (h : i + bytes.length ≤ target.size) :
    ((blit target i bytes).extract i (i + bytes.length)).toList = bytes := by
  apply List.ext_getElem?
  intro k
  rw [Array.toList_extract, List.extract_eq_take_drop, Nat.add_sub_cancel_left, List.getElem?_take]
  split_ifs with hk
  · rw [List.getElem?_drop, Array.getElem?_toList, getElem?_blit, if_pos (by omega),
      Nat.add_sub_cancel_left]
  · exact (List.getElem?_eq_none (Nat.not_lt.mp hk)).symm

private theorem slice_blit (h : i + bytes.length ≤ target.size) :
    slice (blit target i bytes) i bytes.length = .ok bytes := by
  rw [slice, size_blit, if_pos h, extract_blit h]

private theorem integer_put (hv : t.Holds v) (h : b.offset + t.width ≤ b.bytes.size) :
    integer t ⟨(b.put (t.encode v)).bytes, b.offset⟩ = .ok (v, b.put (t.encode v)) := by
  have hlength := t.length_encode v
  have hslice : slice (blit b.bytes b.offset (t.encode v)) b.offset t.width = .ok (t.encode v) := by
    rw [← hlength] at h ⊢
    exact slice_blit h
  rw [integer, put]
  dsimp only
  rw [hslice, hlength]
  dsimp only
  rw [t.decode_encode hv]

end Buffer

namespace WordBuffer

variable {b : WordBuffer} {size n : Nat} {offset : UInt64} {request : Request}
  {front bytes back : Bytes}

private theorem stopOf_of_le (hsize : size < Layout.wordSpan) (h : offset.toNat + n ≤ size) :
    ∃ stop, stopOf size offset n = .ok stop ∧ stop.toNat = offset.toNat + n := by
  obtain ⟨stop, hsum, hstop⟩ := Layout.checkedAdd_eq_some (Nat.lt_of_le_of_lt h hsize)
  refine ⟨stop, ?_, hstop⟩
  rw [stopOf, hsum]
  exact if_pos (hstop ▸ h)

private theorem stopOf_of_lt (h : size < offset.toNat + n) :
    stopOf size offset n = .error .outOfBounds := by
  rw [stopOf]
  cases hsum : Layout.checkedAdd offset n with
  | none => rfl
  | some stop =>
    have hspan : offset.toNat + n < Layout.wordSpan := by
      rw [Layout.checkedAdd] at hsum
      split_ifs at hsum with hspan
      exact hspan
    obtain ⟨stop', hsum', hstop⟩ := Layout.checkedAdd_eq_some hspan
    cases hsum.symm.trans hsum'
    exact if_neg (Nat.not_le.mpr (hstop ▸ h))

private theorem extract_of_cut {data : Array UInt8} {i : Nat}
    (hdata : data.toList = front ++ bytes ++ back)
    (hfront : front.length = i) : (data.extract i (i + bytes.length)).toList = bytes := by
  rw [Array.toList_extract, List.extract_eq_take_drop, hdata, List.append_assoc, ← hfront,
    List.drop_left, Nat.add_sub_cancel_left, List.take_left]

private theorem pass_of_le (h : b.offset.toNat + n ≤ b.bytes.size) (reply : Bytes → Reply) :
    ∃ front bytes back b', b.bytes.toList = front ++ bytes ++ back ∧
      front.length = b.offset.toNat ∧ bytes.length = n ∧ pass n reply b = .ok (reply bytes) b' ∧
      b'.bytes = b.bytes ∧ b'.offset.toNat = b.offset.toNat + n := by
  obtain ⟨stop, hstop, hvalue⟩ := stopOf_of_le b.size_lt h
  rw [← Array.length_toList] at h
  obtain ⟨front, bytes, back, hdata, hfront, rfl⟩ := Cursor.exists_cut h
  refine ⟨front, bytes, back, b.moveTo stop, hdata, hfront, rfl, ?_, rfl, hvalue⟩
  rw [pass, hstop]
  dsimp only
  rw [hvalue, extract_of_cut hdata hfront]

private theorem pass_of_lt (h : b.bytes.size < b.offset.toNat + n) (reply : Bytes → Reply) :
    pass n reply b = .error .outOfBounds b := by
  rw [pass, stopOf_of_lt h]

private theorem answer_of_le (h : request.needs b.offset.toNat ≤ b.bytes.size) : ∃ reply b',
    answer request b = .ok reply b' ∧ b'.bytes = b.bytes ∧
      Meets b.bytes.toList b.offset.toNat request reply b'.offset.toNat := by
  cases request with
  | seek position => exact ⟨.done, b.moveTo position, if_pos h, rfl, .seek⟩
  | advance n =>
    obtain ⟨-, -, -, b', -, -, -, hpass, hsame, hoffset⟩ := pass_of_le h fun _ => .done
    exact ⟨.done, b', hpass, hsame, hoffset ▸ .advance⟩
  | endOf n =>
    obtain ⟨stop, hstop, hvalue⟩ := stopOf_of_le b.size_lt h
    refine ⟨.position stop.toNat, b, ?_, rfl, hvalue ▸ .endOf⟩
    rw [answer, endOf, hstop]
  | peek =>
    rw [← Array.length_toList] at h
    obtain ⟨front, byte, back, hdata, hfront, hbyte⟩ := Cursor.exists_byte h
    rw [Array.getElem?_toList] at hbyte
    refine ⟨.byte byte, b, ?_, rfl, .peek hdata hfront⟩
    rw [answer, peek, hbyte]
  | take n =>
    obtain ⟨front, bytes, back, b', hdata, hfront, hbytes, hpass, hsame, hoffset⟩ :=
      pass_of_le h Reply.bytes
    exact ⟨.bytes bytes, b', hpass, hsame, hoffset ▸ .take hdata hfront hbytes⟩
  | integer t =>
    obtain ⟨front, bytes, back, b', hdata, hfront, hbytes, hpass, hsame, hoffset⟩ :=
      pass_of_le h fun bytes => .number (t.decode bytes)
    have hvalue := IntegerType.bigEndian_iff.mpr ⟨hbytes, rfl⟩
    exact ⟨_, b', hpass, hsame, hoffset ▸ .integer hdata hfront hvalue⟩

private theorem answer_of_lt (h : b.bytes.size < request.needs b.offset.toNat) :
    answer request b = .error .outOfBounds b := by
  cases request with
  | seek position => exact if_neg (Nat.not_le.mpr h)
  | advance n => exact pass_of_lt h fun _ => .done
  | endOf n => rw [answer, endOf, stopOf_of_lt h]
  | peek =>
    have hnone : b.bytes[b.offset.toNat]? = none :=
      Array.getElem?_eq_none (Nat.le_of_lt_succ h)
    rw [answer, peek, hnone]
  | take n => exact pass_of_lt h Reply.bytes
  | integer t => exact pass_of_lt h fun bytes => .number (t.decode bytes)

/-- The cursor holds the bytes and is at the offset. -/
structure Mirrors (b : WordBuffer) (c : Cursor) : Prop where
  data : c.data = b.bytes.toList
  position : c.position = b.offset.toNat

private theorem Mirrors.answer {c : Cursor} (h : b.Mirrors c) (request : Request) :
    (c.answer request).map Prod.fst = b.outcome request ∧ (b.after request).Mirrors (c.after request) ∧
      (b.after request).bytes = b.bytes := by
  rcases Nat.lt_or_ge b.bytes.size (request.needs b.offset.toNat) with hlt | hle
  · have hb := answer_of_lt hlt
    rw [← Array.length_toList, ← h.data, ← h.position] at hlt
    have hc := Cursor.answer_of_lt hlt
    rw [outcome, after, Cursor.after, hb, hc]
    exact ⟨rfl, h, rfl⟩
  · obtain ⟨reply, b', hb, hbytes, hmeets⟩ := answer_of_le hle
    rw [← Array.length_toList, ← h.data, ← h.position] at hle
    obtain ⟨reply', c', hc, hdata, hmeets'⟩ := Cursor.answer_of_le hle
    rw [h.data, h.position] at hmeets'
    obtain ⟨rfl, hposition⟩ := hmeets'.unique hmeets
    rw [outcome, after, Cursor.after, hb, hc]
    exact ⟨rfl, ⟨by rw [hdata, h.data, hbytes], hposition⟩, hbytes⟩

private theorem Mirrors.answers {c : Cursor} (h : b.Mirrors c) (requests : List Request) :
    (requests.foldl after b).Mirrors (requests.foldl Cursor.after c) ∧
      (requests.foldl after b).bytes = b.bytes := by
  induction requests generalizing b c with
  | nil => exact ⟨h, rfl⟩
  | cons request requests ih =>
    obtain ⟨-, hnext, hbytes⟩ := h.answer request
    obtain ⟨hmirrors, hsame⟩ := ih hnext
    exact ⟨hmirrors, hsame.trans hbytes⟩

private theorem mirrors_used (b : WordBuffer) (requests : List Request) :
    (b.used requests).Mirrors (Cursor.used b.bytes.toList requests) ∧
      (b.used requests).bytes = b.bytes := by
  have hstart : (b.moveTo 0).Mirrors (Cursor.ofBytes b.bytes.toList) := ⟨rfl, rfl⟩
  exact hstart.answers requests

private theorem write_of_le (h : b.offset.toNat + bytes.length ≤ b.bytes.size) : ∃ b',
    write bytes b = .ok () b' ∧ b'.buffer = b.buffer.put bytes ∧
      ∀ reply, pass bytes.length reply (b'.moveTo b.offset) = .ok (reply bytes) b' := by
  obtain ⟨stop, hstop, hvalue⟩ := stopOf_of_le b.size_lt h
  have hsize : (blit b.bytes b.offset.toNat bytes).size = b.bytes.size := size_blit _ _ _
  have hagain : stopOf (blit b.bytes b.offset.toNat bytes).size b.offset bytes.length = .ok stop := by
    rw [hsize, hstop]
  refine ⟨⟨blit b.bytes b.offset.toNat bytes, stop, hsize.symm ▸ b.size_lt⟩, ?_, ?_, fun reply => ?_⟩
  · rw [write, hstop]
  · rw [buffer, hvalue]
    rfl
  · rw [pass, moveTo]
    dsimp only
    rw [hagain]
    dsimp only
    rw [hvalue, Buffer.extract_blit h]
    rfl

private theorem write_of_lt (h : b.bytes.size < b.offset.toNat + bytes.length) :
    write bytes b = .error .outOfBounds b := by
  rw [write, stopOf_of_lt h]

/-- At any offset a request is met if the bytes that it needs are all there, and says what they are;
otherwise it is refused as out of bounds and nothing changes. After any requests from the start the
bytes are as they were, the offset is within them, and a cursor is there as well and gives the same
answers. A value of a type is read back from where it was written, and where there is no room for it
nothing changes. -/
theorem answered_within (b : WordBuffer) :
    (∀ request : Request,
      (request.needs b.offset.toNat ≤ b.bytes.size → ∃ reply b', answer request b = .ok reply b' ∧
        b'.bytes = b.bytes ∧ Meets b.bytes.toList b.offset.toNat request reply b'.offset.toNat) ∧
      (b.bytes.size < request.needs b.offset.toNat →
        answer request b = .error .outOfBounds b)) ∧
    (∀ requests : List Request, (b.used requests).bytes = b.bytes ∧
      (b.used requests).offset.toNat ≤ b.bytes.size ∧
      (b.used requests).Mirrors (Cursor.used b.bytes.toList requests) ∧
      ∀ request, ((Cursor.used b.bytes.toList requests).answer request).map Prod.fst =
        (b.used requests).outcome request) ∧
    ∀ (t : IntegerType) (v : Int), t.Holds v →
      (b.offset.toNat + t.width ≤ b.bytes.size → ∃ b', write (t.encode v) b = .ok () b' ∧
        answer (.integer t) (b'.moveTo b.offset) = .ok (.number v) b' ∧
        b.buffer.write (t.encode v) = .ok b'.buffer ∧
        (b'.moveTo b.offset).buffer.integer t = .ok (v, b'.buffer)) ∧
      (b.bytes.size < b.offset.toNat + t.width →
        write (t.encode v) b = .error .outOfBounds b ∧
        b.buffer.write (t.encode v) = .error .outOfBounds) := by
  refine ⟨fun request => ⟨answer_of_le, answer_of_lt⟩, fun requests => ?_, fun t v hv => ⟨?_, ?_⟩⟩
  · obtain ⟨hmirrors, hbytes⟩ := mirrors_used b requests
    refine ⟨hbytes, ?_, hmirrors, fun request => (hmirrors.answer request).1⟩
    have hle := (Cursor.used b.bytes.toList requests).position_le
    rwa [hmirrors.position, hmirrors.data, Array.length_toList, hbytes] at hle
  · intro hroom
    rw [← t.length_encode v] at hroom
    obtain ⟨b', hwrite, hbuffer, hpass⟩ := write_of_le hroom
    refine ⟨b', hwrite, ?_, ?_, ?_⟩
    · have hread := hpass fun bytes => .number (t.decode bytes)
      rwa [t.length_encode v, t.decode_encode hv] at hread
    · rw [hbuffer]
      exact if_pos (decide_eq_true hroom)
    · rw [t.length_encode v] at hroom
      rw [hbuffer, ← Buffer.integer_put hv hroom]
      exact congrArg (fun bytes => Buffer.integer t ⟨bytes, b.offset.toNat⟩)
        (congrArg Buffer.bytes hbuffer)
  · intro hnarrow
    rw [← t.length_encode v] at hnarrow
    refine ⟨write_of_lt hnarrow, ?_⟩
    have hfits : b.buffer.fits (t.encode v).length = false :=
      decide_eq_false (Nat.not_le.mpr hnarrow)
    rw [Buffer.write, hfits]
    rfl

def sample : WordBuffer := ⟨#[0xCA, 0xFE, 0, 0], 2, by decide⟩

/-- A step that would pass the largest word is refused where it would come back to the start, and a
value fills the room that is left to the last byte. -/
theorem answered_within_sample :
    answer (.advance 0xFFFFFFFFFFFFFFFE) sample = .error .outOfBounds sample ∧
    ∃ b', write (IntegerType.encode ⟨2, true⟩ (-2)) sample = .ok () b' ∧
      answer (.integer ⟨2, true⟩) (b'.moveTo 2) = .ok (.number (-2)) b' := by
  obtain ⟨hanswer, -, hwrite⟩ := answered_within sample
  obtain ⟨hroom, -⟩ := hwrite ⟨2, true⟩ (-2) (by decide)
  obtain ⟨b', hwritten, hread, -⟩ := hroom (by decide)
  exact ⟨(hanswer (.advance 0xFFFFFFFFFFFFFFFE)).2 (by decide), b', hwritten, hread⟩

end WordBuffer

end Retarget
