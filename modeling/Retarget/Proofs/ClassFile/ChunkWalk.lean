import Retarget.Proofs.ClassFile.AttributeTree
import Retarget.Proofs.ClassFile.SlotWalk

/-!
Steps of a walk and the chunks they are meant for. Given these a step takes
exactly them and finds exactly their indices, whatever follows. The other way
round, a step that succeeds has taken such chunks. In both directions steps go
together as their chunks do.
-/

set_option autoImplicit false

namespace Retarget

namespace Chunk

variable {front back : List Chunk}

@[simp]
theorem spell_nil : spell [] = [] := rfl

@[simp]
theorem spell_cons (chunk : Chunk) (chunks : List Chunk) :
    spell (chunk :: chunks) = chunk.text ++ spell chunks := rfl

@[simp]
theorem spell_append : spell (front ++ back) = spell front ++ spell back :=
  List.flatMap_append

theorem slots_append (position : Nat) (front back : List Chunk) :
    slots position (front ++ back) =
      slots position front ++ slots (position + (spell front).length) back := by
  induction front generalizing position with
  | nil => rfl
  | cons chunk front ih =>
    cases chunk with
    | bytes content => simp [slots, ih, text, Nat.add_assoc]
    | index kind target => simp [slots, ih, text, Nat.add_assoc, Bytes.length_ofUInt16]

end Chunk

namespace Walk

open Chunk

variable {step next : Step} {front back chunks : List Chunk} {j k : Nat}

/-- The step takes what the chunks spell, whatever follows, and finds their indices. It leaves `k`
warnings. -/
def Passes (step : Step) (chunks : List Chunk) (k : Nat) : Prop :=
  ∀ (w : Walk) (rest : Bytes), w.reader.rest = spell chunks ++ rest →
    step w = .ok (w.ahead (spell chunks).length (slots w.reader.position chunks).reverse k)

/-- The step takes what the chunks spell and finds their indices, and nothing is passed over. -/
def Walks (step : Step) (chunks : List Chunk) : Prop := Passes step chunks 0

theorem walks_skip {n : Nat} (h : (spell chunks).length = n)
    (hslots : ∀ position, slots position chunks = []) : Walks (skip n) chunks := by
  intro w rest hrest
  have hn : n ≤ w.reader.rest.length := by
    rw [hrest, List.length_append]
    omega
  rw [skip, Reader.skip_eq, if_pos hn, hslots, h]
  rfl

theorem walks_word (w : UInt16) : Walks (skip 2) [word w] :=
  walks_skip (by simp [word, text, Bytes.length_ofUInt16]) fun _ => rfl

theorem walks_slot (kind : SymbolForm) (target : UInt16) :
    Walks (slot kind) [.index kind target] := by
  intro w rest hrest
  have htext : (spell [.index kind target]).length = 2 := by
    simp [text, Bytes.length_ofUInt16]
  have hn : 2 ≤ w.reader.rest.length := by
    rw [hrest, List.length_append]
    omega
  rw [slot, Reader.skip_eq, if_pos hn, htext]
  rfl

private theorem Passes.andThen (hfirst : Passes step front j) (hsecond : Passes next back k) :
    Passes (andThen step next) (front ++ back) (j + k) := by
  intro w rest hrest
  rw [spell_append, List.append_assoc] at hrest
  have hback : (w.ahead (spell front).length (slots w.reader.position front).reverse j).reader.rest
      = spell back ++ rest := by
    simp [ahead, hrest]
  rw [Walk.andThen, hfirst w _ hrest]
  simp only
  rw [hsecond _ rest hback, ahead_ahead, slots_append, List.reverse_append, spell_append,
    List.length_append]
  rfl

theorem Walks.andThen (hfirst : Walks step front) (hsecond : Passes next back k) :
    Passes (andThen step next) (front ++ back) k := by
  have h := Passes.andThen hfirst hsecond
  rwa [Nat.zero_add] at h

private theorem withNumber_eq {width n : Nat} {next : Nat → Step} {w : Walk} {rest : Bytes}
    (hn : n < Bytes.span width) (hrest : w.reader.rest = Bytes.ofNat width n ++ rest) :
    withNumber width next w = next n (w.ahead width [] 0) := by
  have hlength := Bytes.length_ofNat width n
  have htake : w.reader.rest.take width = Bytes.ofNat width n := by
    rw [hrest, List.take_append_of_le_length (by omega), List.take_of_length_le (by omega)]
  have hvalue : Bytes.value (Bytes.ofNat width n) = n := by
    rw [Bytes.value_ofNat, Nat.mod_eq_of_lt hn]
  have hwidth : width ≤ w.reader.rest.length := by
    rw [hrest, List.length_append]
    omega
  rw [withNumber, Reader.number_eq, if_pos hwidth, htake, hvalue]
  rfl

theorem passes_withNumber {width n : Nat} {next : Nat → Step} (hn : n < Bytes.span width)
    (h : Passes (next n) chunks k) :
    Passes (withNumber width next) (number width n :: chunks) k := by
  intro w rest hrest
  rw [spell_cons, List.append_assoc] at hrest
  have hchunks : (w.ahead width [] 0).reader.rest = spell chunks ++ rest := by
    have hlength := Bytes.length_ofNat width n
    rw [ahead, hrest, number, text, List.drop_append_of_le_length (by omega),
      List.drop_of_length_le (by omega), List.nil_append]
  rw [withNumber_eq hn hrest, h _ rest hchunks, ahead_ahead]
  simp [ahead, number, slots, text, Bytes.length_ofNat]

theorem Passes.times_succ {n : Nat} (hfirst : Passes step front j)
    (hrest : Passes (times step n) back k) :
    Passes (times step (n + 1)) (front ++ back) (j + k) := hfirst.andThen hrest

theorem walks_times_zero (step : Step) : Walks (times step 0) [] := by
  intro w rest _
  simp [times, ahead, slots]

theorem walks_times {α : Type} {items : List α} {itemChunks : α → List Chunk}
    (h : ∀ item ∈ items, Walks step (itemChunks item)) :
    Walks (times step items.length) (items.flatMap itemChunks) := by
  induction items with
  | nil => exact walks_times_zero step
  | cons item items ih =>
    obtain ⟨hitem, hitems⟩ := List.forall_mem_cons.mp h
    exact Passes.times_succ hitem (ih hitems)

theorem passes_counted {n : Nat} (hn : n < 0x10000) (h : Passes (times step n) chunks k) :
    Passes (counted step) (number 2 n :: chunks) k := passes_withNumber hn h

theorem walks_forgiving (h : Walks step chunks) :
    Walks (forgiving (spell chunks).length step) chunks := by
  intro w rest hrest
  have hwalk := h w rest hrest
  rw [forgiving_of_ends ⟨_, hwalk, rfl⟩, hwalk]

section Taken

variable {P Q : List Chunk → Nat → Prop}

/-- Where the step succeeds it has taken what chunks with the property spell, and found their
indices. The property also tells how many warnings it left. -/
def Takes (step : Step) (P : List Chunk → Nat → Prop) : Prop :=
  ∀ ⦃w w' : Walk⦄, step w = .ok w' → ∃ chunks k rest, P chunks k ∧
    w.reader.rest = spell chunks ++ rest ∧
    w' = w.ahead (spell chunks).length (slots w.reader.position chunks).reverse k

theorem Takes.imp (h : Takes step P) (himp : ∀ chunks k, P chunks k → Q chunks k) :
    Takes step Q := by
  intro w w' hw
  obtain ⟨chunks, k, rest, hchunks, hrest, hw'⟩ := h hw
  exact ⟨chunks, k, rest, himp chunks k hchunks, hrest, hw'⟩

theorem takes_of_fails (h : ∀ w w', step w ≠ .ok w') : Takes step P :=
  fun w w' hw => absurd hw (h w w')

theorem takes_tooDeep : Takes tooDeep P := takes_of_fails (by simp [tooDeep])

theorem takes_skip {n : Nat} (h : ∀ content : Bytes, content.length = n →
    ∃ chunks, P chunks 0 ∧ spell chunks = content ∧ ∀ position, slots position chunks = []) :
    Takes (skip n) P := by
  intro w w' hw
  rw [skip, Reader.skip_eq] at hw
  split_ifs at hw with hn
  · cases hw
    have hlength : (w.reader.rest.take n).length = n := List.length_take_of_le hn
    obtain ⟨chunks, hchunks, hspell, hslots⟩ := h _ hlength
    refine ⟨chunks, 0, w.reader.rest.drop n, hchunks, ?_, ?_⟩
    · rw [hspell, List.take_append_drop]
    · rw [hslots, hspell, hlength]
      rfl

theorem exists_word {content : Bytes} (h : content.length = 2) :
    ∃ w : UInt16, Bytes.ofUInt16 w = content := by
  have hlt := Bytes.value_lt content
  have hbytes := Bytes.ofNat_value content
  rw [h] at hlt hbytes
  refine ⟨UInt16.ofNat (Bytes.value content), ?_⟩
  rw [Bytes.ofUInt16, UInt16.toNat_ofNat_of_lt' hlt]
  exact hbytes

theorem takes_word : Takes (skip 2) fun chunks k => ∃ w, chunks = [word w] ∧ k = 0 := by
  refine takes_skip fun content hlength => ?_
  obtain ⟨w, rfl⟩ := exists_word hlength
  exact ⟨[word w], ⟨w, rfl, rfl⟩, List.append_nil _, fun _ => rfl⟩

theorem takes_slot (kind : SymbolForm) :
    Takes (slot kind) fun chunks k => ∃ target, chunks = [.index kind target] ∧ k = 0 := by
  intro w w' hw
  rw [slot, Reader.skip_eq] at hw
  split_ifs at hw with hn
  · cases hw
    obtain ⟨target, htarget⟩ := exists_word (List.length_take_of_le hn)
    refine ⟨[.index kind target], 0, w.reader.rest.drop 2, ⟨target, rfl, rfl⟩, ?_, ?_⟩
    · rw [spell_cons, text, htarget, spell_nil, List.append_nil, List.take_append_drop]
    · simp [ahead, slots, text, Bytes.length_ofUInt16]

theorem takes_andThen
    (h : Takes step fun front j => Takes next fun back k => P (front ++ back) (j + k)) :
    Takes (andThen step next) P := by
  intro w w' hw
  simp only [andThen] at hw
  split at hw
  · next u hu =>
    obtain ⟨front, j, rest, hnext, hrest, rfl⟩ := h hu
    obtain ⟨back, k, rest', hchunks, hrest', rfl⟩ := hnext hw
    have hdrop : w.reader.rest.drop (spell front).length = rest := by
      rw [hrest, List.drop_left]
    simp only [ahead, hdrop] at hrest'
    refine ⟨front ++ back, j + k, rest', hchunks, ?_, ?_⟩
    · rw [hrest, hrest', spell_append, List.append_assoc]
    · rw [ahead_ahead, slots_append, List.reverse_append, spell_append, List.length_append]
      rfl
  · cases hw

theorem takes_withNumber {width : Nat} {next : Nat → Step}
    (h : ∀ n < Bytes.span width, Takes (next n) fun chunks k => P (number width n :: chunks) k) :
    Takes (withNumber width next) P := by
  intro w w' hw
  rw [withNumber, Reader.number_eq] at hw
  by_cases hwidth : width ≤ w.reader.rest.length
  · rw [if_pos hwidth] at hw
    have hlength : (w.reader.rest.take width).length = width := List.length_take_of_le hwidth
    have hvalue := Bytes.value_lt (w.reader.rest.take width)
    have hbytes := Bytes.ofNat_value (w.reader.rest.take width)
    rw [hlength] at hvalue hbytes
    obtain ⟨chunks, k, rest, hchunks, hrest, rfl⟩ := h _ hvalue hw
    simp only at hrest
    refine ⟨_, k, rest, hchunks, ?_, ?_⟩
    · rw [spell_cons, number, text, hbytes, List.append_assoc, ← hrest, List.take_append_drop]
    · simp [ahead, number, text, slots, Bytes.length_ofNat, Nat.add_assoc]
  · rw [if_neg hwidth] at hw
    cases hw

def Laid {α : Type} (A : α → Prop) (layout : α → List Chunk) (dropped : α → Nat) :
    List Chunk → Nat → Prop :=
  fun chunks k => ∃ a, A a ∧ layout a = chunks ∧ dropped a = k

variable {α : Type} {A : α → Prop} {layout : α → List Chunk} {dropped : α → Nat}

theorem takes_times (h : Takes step (Laid A layout dropped)) (n : Nat) : Takes (times step n)
    (Laid (fun items => items.length = n ∧ ∀ a ∈ items, A a) (List.flatMap layout)
      (total dropped)) := by
  induction n with
  | zero =>
    intro w w' hw
    cases hw
    exact ⟨[], 0, w.reader.rest, ⟨[], ⟨rfl, by simp⟩, rfl, rfl⟩, rfl, by simp [ahead, slots]⟩
  | succ n ih =>
    refine takes_andThen (h.imp ?_)
    rintro _ _ ⟨a, ha, rfl, rfl⟩
    refine ih.imp ?_
    rintro _ _ ⟨items, ⟨hlength, hitems⟩, rfl, rfl⟩
    exact ⟨a :: items, ⟨congrArg Nat.succ hlength, List.forall_mem_cons.mpr ⟨ha, hitems⟩⟩,
      List.flatMap_cons, rfl⟩

theorem takes_counted (h : Takes step (Laid A layout dropped)) : Takes (counted step)
    (Laid (fun items => items.length < 0x10000 ∧ ∀ a ∈ items, A a)
      (fun items => .number 2 items.length :: items.flatMap layout) (total dropped)) := by
  refine takes_withNumber fun n hn => (takes_times h n).imp ?_
  rintro _ _ ⟨items, ⟨rfl, hitems⟩, rfl, rfl⟩
  exact ⟨items, ⟨hn, hitems⟩, rfl, rfl⟩

end Taken

end Walk

end Retarget
