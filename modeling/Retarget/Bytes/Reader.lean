import Retarget.Bytes.Integer
import Retarget.Fault

/-!
Reading a byte sequence from front to back. A reader holds how many bytes are
behind it and which bytes are ahead; every step either takes bytes from the
front or fails, and then nothing is taken.
-/

set_option autoImplicit false

namespace Retarget

/-- A place in a byte sequence: the number of bytes before it and the bytes after it. -/
structure Reader where
  position : Nat
  rest : Bytes
  deriving DecidableEq

namespace Reader

def ofBytes (bytes : Bytes) : Reader := ⟨0, bytes⟩

def take (n : Nat) (r : Reader) : Except Fault (Bytes × Reader) :=
  let front := r.rest.take n
  if front.length = n then .ok (front, ⟨r.position + n, r.rest.drop n⟩)
  else .error .outOfBounds

def byte (r : Reader) : Except Fault (UInt8 × Reader) :=
  match r.rest with
  | b :: rest => .ok (b, ⟨r.position + 1, rest⟩)
  | [] => .error .outOfBounds

def skip (n : Nat) (r : Reader) : Except Fault Reader :=
  match r.take n with
  | .ok (_, r') => .ok r'
  | .error fault => .error fault

/-- Takes the next `width` bytes as a number. -/
def number (width : Nat) (r : Reader) : Except Fault (Nat × Reader) :=
  match r.take width with
  | .ok (bytes, r') => .ok (Bytes.value bytes, r')
  | .error fault => .error fault

def word16 (r : Reader) : Except Fault (UInt16 × Reader) :=
  match r.number 2 with
  | .ok (n, r') => .ok (UInt16.ofNat n, r')
  | .error fault => .error fault

def word32 (r : Reader) : Except Fault (UInt32 × Reader) :=
  match r.number 4 with
  | .ok (n, r') => .ok (UInt32.ofNat n, r')
  | .error fault => .error fault

def word64 (r : Reader) : Except Fault (UInt64 × Reader) :=
  match r.number 8 with
  | .ok (n, r') => .ok (UInt64.ofNat n, r')
  | .error fault => .error fault

def integer (t : IntegerType) (r : Reader) : Except Fault (Int × Reader) :=
  match r.take t.width with
  | .ok (bytes, r') => .ok (t.decode bytes, r')
  | .error fault => .error fault

/-- Takes `n` items in a row, after those in `taken`. -/
def many {α : Type} (item : Reader → Except Fault (α × Reader)) :
    Nat → Array α → Reader → Except Fault (Array α × Reader)
  | 0, taken, r => .ok (taken, r)
  | n + 1, taken, r =>
    match item r with
    | .ok (a, r') => many item n (taken.push a) r'
    | .error fault => .error fault

def table {α : Type} (item : Reader → Except Fault (α × Reader)) (r : Reader) :
    Except Fault (Array α × Reader) :=
  match r.word16 with
  | .ok (count, r') => many item count.toNat #[] r'
  | .error fault => .error fault

theorem take_append (n position : Nat) (front rest : Bytes) (h : front.length = n) :
    take n ⟨position, front ++ rest⟩ = .ok (front, ⟨position + n, rest⟩) := by
  subst h
  simp [take]

theorem take_eq_ok_iff {n : Nat} {r r' : Reader} {front : Bytes} :
    r.take n = .ok (front, r') ↔
      r.rest = front ++ r'.rest ∧ front.length = n ∧ r'.position = r.position + n := by
  obtain ⟨position, rest⟩ := r
  obtain ⟨position', rest'⟩ := r'
  constructor
  · intro h
    simp only [take] at h
    split at h
    · next hn =>
      simp only [Except.ok.injEq, Prod.mk.injEq, Reader.mk.injEq] at h
      obtain ⟨rfl, rfl, rfl⟩ := h
      exact ⟨(List.take_append_drop n rest).symm, hn, rfl⟩
    · cases h
  · rintro ⟨hr, hn, hp⟩
    simp only at hr hp
    subst hr hp
    exact take_append n position front rest' hn

theorem take_error {n : Nat} {r : Reader} (h : r.rest.length < n) :
    r.take n = .error .outOfBounds := by
  simp only [take, List.length_take]
  rw [if_neg]
  omega

end Reader

end Retarget
