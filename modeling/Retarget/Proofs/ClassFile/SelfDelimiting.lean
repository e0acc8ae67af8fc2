import Retarget.Proofs.Bytes.Delimited
import Retarget.Proofs.ClassFile.RoundTrip

/-!
The form of class files tells where a class file ends. Every table is read by
steps that know where they end, so bytes that hold a class file are refused with
anything behind them, and every part in front of them is refused for being too
short: no check of what is read can come first.
-/

set_option autoImplicit false

namespace Retarget

open Reader

namespace Constant

private theorem delimited_readOne (make : UInt16 → Constant) : Delimited (readOne make) :=
  delimited_word16.bind fun index => delimited_pure (make index)

private theorem delimited_readTwo (make : UInt16 → UInt16 → Constant) : Delimited (readTwo make) :=
  delimited_word16.bind fun first => delimited_word16.bind fun second =>
    delimited_pure (make first second)

private theorem delimited_readFields (tag : Tag) : Delimited (readFields tag) := by
  cases tag with
  | utf8 =>
    exact delimited_word16.bind fun length => (delimited_take length.toNat).bind fun text =>
      delimited_pure (utf8 text)
  | integer | float => exact delimited_word32.bind fun bits => delimited_pure _
  | long | double => exact delimited_word64.bind fun bits => delimited_pure _
  | methodHandle =>
    exact delimited_byte.bind fun kind => delimited_word16.bind fun reference =>
      delimited_pure (methodHandle kind reference)
  | classRef | string | methodType | module | package => exact delimited_readOne _
  | fieldRef | methodRef | interfaceMethodRef | nameAndType | dynamic | invokeDynamic =>
    exact delimited_readTwo _

def readTagged (position : Nat) (x : UInt8 × Reader) : Except Fault (Constant × Reader) :=
  (Tag.ofCode? x.1).elim (.error (.malformed (.constantTag x.1 position))) fun tag =>
    readFields tag x.2

private theorem read_eq (r : Reader) : read r = byte r >>= readTagged r.position := by
  rw [read]
  cases byte r with
  | error fault => rfl
  | ok x =>
    change _ = readTagged r.position x
    rw [readTagged]
    cases htag : Tag.ofCode? x.1 <;> simp [bind, Except.bind, htag, throw, throwThe,
      MonadExceptOf.throw]

private theorem delimited_read : Delimited read := by
  rw [funext read_eq]
  refine delimited_byte.bindAt fun position code => ?_
  simp only [readTagged]
  cases Tag.ofCode? code with
  | none => exact .of_error fun r => rfl
  | some tag => exact delimited_readFields tag

end Constant

namespace Pool

private theorem delimited_readEntries (count room : Nat) (p : Pool) :
    Delimited (readEntries count room p) := by
  induction room using Nat.strongRecOn generalizing p with
  | ind room ih =>
    cases room with
    | zero => exact delimited_pure p
    | succ room =>
      have heq : readEntries count (room + 1) p = fun r => Constant.read r >>= fun x =>
          if x.1.isWide then
            if room = 0 then .error (.malformed (.poolOverrun x.1.tag? p.count count))
            else readEntries count (room - 1) (p.append x.1) x.2
          else readEntries count room (p.append x.1) x.2 := by
        funext r
        rw [readEntries]
        cases Constant.read r with
        | error fault => rfl
        | ok x => cases room <;> rfl
      rw [heq]
      refine Constant.delimited_read.bind fun c => ?_
      by_cases hwide : c.isWide
      · by_cases hroom : room = 0
        · simp only [hwide, hroom, if_true]
          exact .of_error fun r => rfl
        · simp only [hwide, hroom, if_true, if_false]
          exact ih (room - 1) (by omega) (p.append c)
      · simp only [hwide]
        exact ih room (Nat.lt_succ_self room) (p.append c)

private theorem delimited_read : Delimited read := by
  refine delimited_word16.bind fun count => ?_
  cases hcount : count.toNat with
  | zero => exact .of_error fun r => by simp only [hcount]; rfl
  | succ room =>
    simp only [hcount]
    exact delimited_readEntries (room + 1) room empty

end Pool

private theorem Attribute.delimited_read : Delimited read :=
  delimited_word16.bind fun _ => delimited_word32.bind fun length =>
    (delimited_take length.toNat).bind fun _ => delimited_pure _

private theorem Attribute.delimited_readTable : Delimited readTable :=
  delimited_table delimited_read

private theorem Member.delimited_read : Delimited read :=
  delimited_word16.bind fun _ => delimited_word16.bind fun _ => delimited_word16.bind fun _ =>
    Attribute.delimited_readTable.bind fun _ => delimited_pure _

private theorem Member.delimited_readTable : Delimited readTable :=
  delimited_table delimited_read

namespace ClassFile

variable {bytes : Bytes} {c : ClassFile}

private theorem delimited_readTables : Delimited readTables :=
  delimited_word16.bind fun _ => delimited_word16.bind fun _ => Pool.delimited_read.bind fun _ =>
    delimited_word16.bind fun _ => delimited_word16.bind fun _ => delimited_word16.bind fun _ =>
      (delimited_table delimited_word16).bind fun _ => Member.delimited_readTable.bind fun _ =>
        Member.delimited_readTable.bind fun _ => Attribute.delimited_readTable.bind fun _ =>
          delimited_pure _

private theorem ofBytes_magic_append (more : Bytes) :
    ofBytes (magic ++ more) = readTables ⟨4, more⟩ >>= fun x =>
      if x.2.rest.isEmpty then .ok x.1
      else .error (.malformed (.trailingBytes x.2.rest.length)) := by
  have hempty : (magic ++ more).isEmpty = false := rfl
  have htake : Reader.take 4 (Reader.ofBytes (magic ++ more)) = .ok (magic, ⟨4, more⟩) :=
    take_append 4 0 magic more rfl
  simp only [ofBytes, hempty, htake, Bool.false_eq_true, if_false, if_true]
  cases readTables ⟨4, more⟩ <;> rfl

private theorem ofBytes_short {front : Bytes} (hne : front ≠ []) (hshort : front.length < 4) :
    ofBytes front = .error .notSupported := by
  have hempty : front.isEmpty = false := by simpa using hne
  have htake : Reader.take 4 (Reader.ofBytes front) = .error .outOfBounds := take_error hshort
  simp only [ofBytes, hempty, htake, Bool.false_eq_true, if_false]

/-- Bytes that hold a class file hold none with more bytes behind them, which are what is found
wrong. Of the parts in front of them the empty one is empty input, one shorter than the magic bytes
is no class file, and every other one ends too early. -/
theorem ofBytes_selfDelimiting (h : ofBytes bytes = .ok c) :
    (∀ extra, extra ≠ [] →
      ofBytes (bytes ++ extra) = .error (.malformed (.trailingBytes extra.length))) ∧
    ∀ front, front <+: bytes → front ≠ bytes → ofBytes front = .error
      (if front = [] then .empty else if front.length < 4 then .notSupported else .outOfBounds) := by
  obtain ⟨r, after, htake, htables, hend⟩ := readTables_of_ofBytes h
  obtain ⟨hmagic, -, hbehind⟩ := take_eq_ok_iff.mp htake
  obtain ⟨used, hrest, huses⟩ := delimited_readTables htables
  have hposition : r.position = 4 := hbehind
  rw [hposition] at huses
  obtain rfl : bytes = magic ++ used := by
    rw [← List.append_nil used, ← hend, ← hrest]
    exact hmagic
  refine ⟨fun extra hextra => ?_, fun front hfront hne => ?_⟩
  · have hleft : extra.isEmpty = false := by simpa using hextra
    rw [List.append_assoc, ofBytes_magic_append, huses.whole extra]
    change (if extra.isEmpty then _ else _) = _
    rw [hleft, if_neg Bool.false_ne_true]
  · rcases prefix_append_cases hfront hne with ⟨hin, hpart⟩ | ⟨more, rfl, hin, hpart⟩
    · have hshort : front.length < 4 :=
        Nat.lt_of_le_of_ne hin.length_le fun heq => hpart (hin.eq_of_length heq)
      by_cases hnil : front = []
      · subst hnil
        rfl
      · rw [if_neg hnil, if_pos hshort, ofBytes_short hnil hshort]
    · have hsome : magic ++ more ≠ [] := List.cons_ne_nil _ _
      have hlong : ¬ (magic ++ more).length < 4 := by
        rw [List.length_append]
        exact Nat.not_lt.mpr (Nat.le_add_right 4 more.length)
      rw [if_neg hsome, if_neg hlong, ofBytes_magic_append,
        huses.cut more hin hpart]
      rfl

/-- A class file with one more byte, and cut inside its magic bytes, inside a constant and inside the
content of its attribute. -/
theorem ofBytes_selfDelimiting_sample : ∃ c, ofBytes sample = .ok c ∧
    ofBytes (sample ++ [0]) = .error (.malformed (.trailingBytes 1)) ∧
    ofBytes [] = .error .empty ∧ ofBytes (sample.take 3) = .error .notSupported ∧
    ofBytes (sample.take 15) = .error .outOfBounds ∧
    ofBytes (sample.take (sample.length - 1)) = .error .outOfBounds := by
  have hrun : (ofBytes sample).toOption.isSome = true := by
    rfl
  cases hc : ofBytes sample with
  | error fault =>
    rw [hc] at hrun
    cases hrun
  | ok c =>
    obtain ⟨hextra, hcut⟩ := ofBytes_selfDelimiting hc
    have hpart : ∀ n, n < sample.length → sample.take n ≠ sample := by
      intro n hn heq
      have hlength := congrArg List.length heq
      rw [List.length_take] at hlength
      omega
    exact ⟨c, rfl, hextra [0] (by decide), hcut [] List.nil_prefix (by decide),
      hcut _ (List.take_prefix 3 sample) (hpart 3 (by decide)),
      hcut _ (List.take_prefix 15 sample) (hpart 15 (by decide)),
      hcut _ (List.take_prefix _ sample) (hpart _ (by decide))⟩

end ClassFile

end Retarget
