import Mathlib.Tactic.Common
import Retarget.ClassFile.Slots
import Retarget.Proofs.Bytes.ReadBack

/-!
What a walk over the content of an attribute depends on. The slots it finds lie
inside the content, one behind the other, and the walk never looks at their
bytes: on content that differs only inside the slots found it takes the same
way. So an attribute has the same slots after any of them was replaced.

The one step that needs care is the passing over of annotations that make no
sense. There the walk may have read bytes behind the annotation before it gave
up; but a walk that has left the annotation never ends at its end, whatever
these bytes are.
-/

set_option autoImplicit false

namespace Retarget

namespace Reader

theorem skip_eq (n : Nat) (r : Reader) :
    r.skip n = if n ≤ r.rest.length then .ok ⟨r.position + n, r.rest.drop n⟩
      else .error .outOfBounds := by
  simp only [skip, take, List.length_take]
  by_cases h : n ≤ r.rest.length
  · rw [if_pos h, if_pos (by omega)]
  · rw [if_neg h, if_neg (by omega)]

theorem number_eq (n : Nat) (r : Reader) :
    r.number n = if n ≤ r.rest.length then
        .ok (Bytes.value (r.rest.take n), ⟨r.position + n, r.rest.drop n⟩)
      else .error .outOfBounds := by
  simp only [number, take, List.length_take]
  by_cases h : n ≤ r.rest.length
  · rw [if_pos h, if_pos (by omega)]
  · rw [if_neg h, if_neg (by omega)]

end Reader

def Slot.Covers (s : Slot) (k : Nat) : Prop := s.offset ≤ k ∧ k < s.offset + 2

namespace Walk

/-- Slots, last one first, that lie one behind the other between two positions. -/
structure Spaced (low high : Nat) (found : List Slot) : Prop where
  inside : ∀ s ∈ found, low ≤ s.offset ∧ s.offset + 2 ≤ high
  apart : found.Pairwise fun s t => t.offset + 2 ≤ s.offset

private theorem Spaced.nil (low high : Nat) : Spaced low high [] := ⟨by simp, .nil⟩

private theorem Spaced.append {low middle high : Nat} {front back : List Slot}
    (hfront : Spaced low middle front) (hback : Spaced middle high back)
    (hlow : low ≤ middle) (hhigh : middle ≤ high) : Spaced low high (back ++ front) := by
  constructor
  · intro s hs
    rcases List.mem_append.mp hs with hs | hs
    · have := hback.inside s hs
      omega
    · have := hfront.inside s hs
      omega
  · refine List.pairwise_append.mpr ⟨hback.apart, hfront.apart, ?_⟩
    intro s hs t ht
    have := hback.inside s hs
    have := hfront.inside t ht
    omega

/-- The walk after `n` more bytes, with `slots` found in them and `k` more warnings. -/
def ahead (n : Nat) (slots : List Slot) (k : Nat) (w : Walk) : Walk :=
  ⟨⟨w.reader.position + n, w.reader.rest.drop n⟩, slots ++ w.found, w.warnings + k⟩

theorem ahead_ahead (m n : Nat) (front back : List Slot) (j k : Nat) (w : Walk) :
    (w.ahead m front j).ahead n back k = w.ahead (m + n) (back ++ front) (j + k) := by
  simp [ahead, Nat.add_assoc]

/-- The next `n` bytes of two walks are the same outside the given slots. -/
structure Alike (n : Nat) (slots : List Slot) (w v : Walk) : Prop where
  position : v.reader.position = w.reader.position
  length : v.reader.rest.length = w.reader.rest.length
  same : ∀ k < n, (∀ s ∈ slots, ¬ s.Covers (w.reader.position + k)) →
    v.reader.rest[k]? = w.reader.rest[k]?

namespace Alike

variable {m n : Nat} {front back slots : List Slot} {w v : Walk}

theorem symm (h : Alike n slots w v) : Alike n slots v w where
  position := h.position.symm
  length := h.length.symm
  same k hk hfree := (h.same k hk (h.position ▸ hfree)).symm

private theorem first (h : Alike (m + n) (back ++ front) w v)
    (hback : Spaced (w.reader.position + m) (w.reader.position + m + n) back) :
    Alike m front w v where
  position := h.position
  length := h.length
  same k hk hfree := by
    refine h.same k (by omega) fun s hs hcovers => ?_
    rcases List.mem_append.mp hs with hs | hs
    · have := hback.inside s hs
      have := hcovers.1
      omega
    · exact hfree s hs hcovers

private theorem second (h : Alike (m + n) (back ++ front) w v)
    (hfront : Spaced w.reader.position (w.reader.position + m) front) (j : Nat) :
    Alike n back (w.ahead m front j) (v.ahead m front j) where
  position := by simp [ahead, h.position]
  length := by simp [ahead, h.length]
  same k hk hfree := by
    simp only [ahead, List.getElem?_drop]
    refine h.same (m + k) (by omega) fun s hs hcovers => ?_
    rcases List.mem_append.mp hs with hs | hs
    · refine hfree s hs ?_
      simpa [ahead, Nat.add_assoc] using hcovers
    · have := hfront.inside s hs
      have := hcovers.2
      omega

private theorem take_eq (h : Alike n [] w v) : v.reader.rest.take n = w.reader.rest.take n := by
  apply List.ext_getElem?
  intro k
  by_cases hk : k < n
  · rw [List.getElem?_take_of_lt hk, List.getElem?_take_of_lt hk]
    exact h.same k hk (by simp)
  · rw [List.getElem?_eq_none (by simp; omega), List.getElem?_eq_none (by simp; omega)]

end Alike

/-- Where `step` succeeds it goes ahead and finds spaced slots, and `step'` does the same on every
walk whose bytes differ only in these slots. -/
def Carries (step step' : Step) : Prop :=
  ∀ ⦃w w' : Walk⦄, step w = .ok w' → ∃ n slots k, w' = w.ahead n slots k ∧
    n ≤ w.reader.rest.length ∧ Spaced w.reader.position (w.reader.position + n) slots ∧
    ∀ v, Alike n slots w v → step' v = .ok (v.ahead n slots k)

private theorem carries_of_fails {step : Step} (h : ∀ w w', step w ≠ .ok w') (step' : Step) :
    Carries step step' := fun w w' hw => absurd hw (h w w')

private theorem carries_tooDeep : Carries tooDeep tooDeep :=
  carries_of_fails (by simp [tooDeep]) tooDeep

private theorem carries_skip (n : Nat) : Carries (skip n) (skip n) := by
  intro w w' h
  simp only [skip, Reader.skip_eq] at h
  by_cases hn : n ≤ w.reader.rest.length
  · simp only [if_pos hn, Except.ok.injEq] at h
    refine ⟨n, [], 0, h.symm, hn, Spaced.nil _ _, ?_⟩
    intro v hv
    rw [skip, Reader.skip_eq, if_pos (hv.length ▸ hn)]
    rfl
  · simp [if_neg hn] at h

private theorem carries_slot (kind : SymbolForm) : Carries (slot kind) (slot kind) := by
  intro w w' h
  simp only [slot, Reader.skip_eq] at h
  by_cases hn : 2 ≤ w.reader.rest.length
  · simp only [if_pos hn, Except.ok.injEq] at h
    refine ⟨2, [⟨w.reader.position, kind⟩], 0, h.symm, hn, ⟨by simp, by simp⟩, ?_⟩
    intro v hv
    rw [slot, Reader.skip_eq, if_pos (hv.length ▸ hn), ← hv.position]
    rfl
  · simp [if_neg hn] at h

private theorem carries_after {step' next next' : Step} {m : Nat} {front : List Slot} {j : Nat}
    {w w' : Walk} (hm : m ≤ w.reader.rest.length)
    (hfront : Spaced w.reader.position (w.reader.position + m) front)
    (hstep' : ∀ v, Alike m front w v → step' v = next' (v.ahead m front j))
    (hnext : Carries next next') (h : next (w.ahead m front j) = .ok w') :
    ∃ n slots k, w' = w.ahead n slots k ∧ n ≤ w.reader.rest.length ∧
      Spaced w.reader.position (w.reader.position + n) slots ∧
      ∀ v, Alike n slots w v → step' v = .ok (v.ahead n slots k) := by
  obtain ⟨n, back, k, hw', hn, hback, hv⟩ := hnext h
  simp only [ahead, List.length_drop] at hn hback
  refine ⟨m + n, back ++ front, j + k, ?_, by omega, ?_, ?_⟩
  · rw [hw', ahead_ahead]
  · rw [← Nat.add_assoc]
    exact hfront.append hback (by omega) (by omega)
  · intro v hlike
    rw [hstep' v (hlike.first hback), hv _ (hlike.second hfront j), ahead_ahead]

private theorem carries_andThen {first first' second second' : Step} (hfirst : Carries first first')
    (hsecond : Carries second second') :
    Carries (andThen first second) (andThen first' second') := by
  intro w w' h
  simp only [andThen] at h
  split at h
  · next u hu =>
    obtain ⟨m, front, j, rfl, hm, hfront, hv⟩ := hfirst hu
    refine carries_after hm hfront ?_ hsecond h
    intro v hlike
    rw [andThen, hv v hlike]
  · cases h

private theorem carries_withNumber (width : Nat) {next next' : Nat → Step}
    (hnext : ∀ n, Carries (next n) (next' n)) :
    Carries (withNumber width next) (withNumber width next') := by
  intro w w' h
  simp only [withNumber, Reader.number_eq] at h
  by_cases hn : width ≤ w.reader.rest.length
  · simp only [if_pos hn] at h
    refine carries_after (j := 0) hn (Spaced.nil _ _) ?_
      (hnext _) h
    intro v hlike
    rw [withNumber, Reader.number_eq, if_pos (hlike.length ▸ hn), hlike.take_eq]
    rfl
  · simp [if_neg hn] at h

private theorem carries_times {part part' : Step} (hpart : Carries part part') (n : Nat) :
    Carries (times part n) (times part' n) := by
  induction n with
  | zero =>
    intro w w' h
    simp only [times, Except.ok.injEq] at h
    subst h
    exact ⟨0, [], 0, rfl, Nat.zero_le _, Spaced.nil _ _, fun v _ => rfl⟩
  | succ n ih => exact carries_andThen hpart ih

private theorem carries_counted {part part' : Step} (hpart : Carries part part') :
    Carries (counted part) (counted part') :=
  carries_withNumber 2 (carries_times hpart)

section Annotations

private theorem carries_annotationOf {value : Step} (hvalue : Carries value value) :
    Carries (annotationOf value) (annotationOf value) :=
  carries_andThen (carries_slot _)
    (carries_counted (carries_andThen (carries_skip 2) hvalue))

private theorem carries_elementValue (room : Nat) :
    Carries (elementValue room) (elementValue room) := by
  induction room with
  | zero =>
    rw [elementValue]
    refine carries_withNumber 1 fun tag => ?_
    split_ifs
    · exact carries_skip 2
    · exact carries_andThen (carries_slot _) (carries_skip 2)
    · exact carries_slot _
    · exact carries_tooDeep
    · exact carries_tooDeep
    · exact carries_of_fails (by simp) _
  | succ room ih =>
    rw [elementValue]
    refine carries_withNumber 1 fun tag => ?_
    split_ifs
    · exact carries_skip 2
    · exact carries_andThen (carries_slot _) (carries_skip 2)
    · exact carries_slot _
    · exact carries_annotationOf ih
    · exact carries_counted ih
    · exact carries_of_fails (by simp) _

private theorem carries_annotations (room : Nat) :
    Carries (annotations room) (annotations room) := by
  cases room with
  | zero => exact carries_counted carries_tooDeep
  | succ room => exact carries_counted (carries_annotationOf (carries_elementValue room))

private theorem carries_parameterAnnotations (room : Nat) :
    Carries (parameterAnnotations room) (parameterAnnotations room) :=
  carries_withNumber 1 (carries_times (carries_annotations room))

def Ends (content : Step) (length : Nat) (w : Walk) : Prop :=
  ∃ u, content w = .ok u ∧ u.reader.position = w.reader.position + length

theorem forgiving_of_ends {content : Step} {length : Nat} {w : Walk}
    (h : Ends content length w) : forgiving length content w = content w := by
  obtain ⟨u, hu, hend⟩ := h
  simp [forgiving, hu, hend]

theorem forgiving_of_not_ends {content : Step} {length : Nat} {w : Walk}
    (h : ¬ Ends content length w) :
    forgiving length content w = if length ≤ w.reader.rest.length then .ok (w.ahead length [] 1)
      else .error .outOfBounds := by
  cases hu : content w with
  | error fault =>
    simp only [forgiving, hu, Reader.skip_eq]
    split_ifs <;> rfl
  | ok u =>
    have hend : u.reader.position ≠ w.reader.position + length := fun hend => h ⟨u, hu, hend⟩
    simp only [forgiving, hu, if_neg hend, Reader.skip_eq]
    split_ifs <;> rfl

private theorem Ends.of_alike {content : Step} (hcontent : Carries content content) {length : Nat}
    {w v : Walk} (hlike : Alike length [] w v) (h : Ends content length w) :
    Ends content length v := by
  obtain ⟨u, hu, hend⟩ := h
  obtain ⟨n, slots, k, rfl, -, -, hv⟩ := hcontent hu
  have hn : n = length := by simpa [ahead] using hend
  subst hn
  exact ⟨_, hv v ⟨hlike.position, hlike.length, fun i hi _ => hlike.same i hi (by simp)⟩, rfl⟩

private theorem carries_forgiving {content : Step} (hcontent : Carries content content)
    (length : Nat) :
    Carries (forgiving length content) (forgiving length content) := by
  intro w w' h
  by_cases hends : Ends content length w
  · rw [forgiving_of_ends hends] at h
    obtain ⟨n, slots, k, rfl, hn, hspaced, hv⟩ := hcontent h
    refine ⟨n, slots, k, rfl, hn, hspaced, fun v hlike => ?_⟩
    have hlength : n = length := by
      obtain ⟨u, hu, hend⟩ := hends
      rw [h, Except.ok.injEq] at hu
      subst hu
      simpa [ahead] using hend
    rw [forgiving_of_ends ⟨_, hv v hlike, by rw [← hlength]; rfl⟩]
    exact hv v hlike
  · rw [forgiving_of_not_ends hends] at h
    by_cases hn : length ≤ w.reader.rest.length
    · rw [if_pos hn, Except.ok.injEq] at h
      refine ⟨length, [], 1, h.symm, hn, Spaced.nil _ _, fun v hlike => ?_⟩
      have hv : ¬ Ends content length v := fun hv => hends (hv.of_alike hcontent hlike.symm)
      rw [forgiving_of_not_ends hv, if_pos (hlike.length ▸ hn)]
    · simp [if_neg hn] at h

end Annotations

section Nesting

variable {p p' : Pool}

private theorem carries_localVariables (kind : SymbolForm) :
    Carries (localVariables kind) (localVariables kind) :=
  carries_counted (carries_andThen (carries_skip 6)
    (carries_andThen (carries_slot kind) (carries_skip 2)))

private theorem carries_code {attributes attributes' : Step} (h : Carries attributes attributes') :
    Carries (code attributes) (code attributes') :=
  carries_andThen (carries_skip 4) (carries_withNumber 4 fun length =>
    carries_andThen (carries_skip length) (carries_withNumber 2 fun handlers =>
      carries_andThen (carries_skip (handlers * 8)) h))

private theorem carries_components {attributes attributes' : Step}
    (h : Carries attributes attributes') :
    Carries (components attributes) (components attributes') :=
  carries_counted (carries_andThen (carries_skip 2) (carries_andThen (carries_slot _) h))

private theorem carries_nested
    (hpool : ∀ {index text}, p.text index = .ok text → p'.text index = .ok text)
    {inner inner' : Bytes → Nat → Step}
    (hinner : ∀ name length, Carries (inner name length) (inner' name length)) :
    Carries (nested p inner) (nested p' inner') := by
  refine carries_counted (carries_withNumber 2 fun name => carries_withNumber 4 fun length => ?_)
  intro w w' h
  split at h
  · next text htext =>
    obtain ⟨n, slots, k, hw', hn, hspaced, hv⟩ := hinner text length h
    refine ⟨n, slots, k, hw', hn, hspaced, fun v hlike => ?_⟩
    simpa only [hpool htext] using hv v hlike
  · cases h

private theorem carries_content
    (hpool : ∀ {index text}, p.text index = .ok text → p'.text index = .ok text)
    {inner inner' : Bytes → Nat → Step}
    (hinner : ∀ name length, Carries (inner name length) (inner' name length))
    (form : ContentForm) (length room : Nat) :
    Carries (content p form length room inner) (content p' form length room inner') := by
  cases form with
  | signature => exact carries_slot _
  | code => exact carries_code (carries_nested hpool hinner)
  | localVariables kind => exact carries_localVariables kind
  | record => exact carries_components (carries_nested hpool hinner)
  | annotations => exact carries_forgiving (carries_annotations room) length
  | parameterAnnotations => exact carries_forgiving (carries_parameterAnnotations room) length
  | elementValue => exact carries_forgiving (carries_elementValue room) length

private theorem carries_ofAttribute
    (hpool : ∀ {index text}, p.text index = .ok text → p'.text index = .ok text)
    (room : Nat) (name : Bytes) (length : Nat) :
    Carries (ofAttribute p room name length) (ofAttribute p' room name length) := by
  induction room generalizing name length with
  | zero =>
    refine carries_of_fails (fun w w' h => ?_) _
    rw [ofAttribute] at h
    split at h <;> simp [tooDeep] at h
  | succ room ih =>
    intro w w' h
    rw [ofAttribute, Reader.skip_eq] at h
    by_cases hlen : length ≤ w.reader.rest.length
    · rw [if_pos hlen] at h
      simp only at h
      cases hform : ContentForm.ofName? name with
      | none =>
        simp only [hform, Except.ok.injEq] at h
        refine ⟨length, [], 0, h.symm, hlen, Spaced.nil _ _, fun v hlike => ?_⟩
        rw [ofAttribute, Reader.skip_eq, if_pos (hlike.length ▸ hlen)]
        simp only [hform]
        rfl
      | some named =>
        simp only [hform] at h
        split at h
        · cases h
        · next u hu =>
          split at h
          · next hend =>
            cases h
            obtain ⟨n, slots, k, rfl, hn, hspaced, hv⟩ :=
              carries_content hpool ih named.2 length room hu
            have hnlen : n = length := by simpa [ahead] using hend
            subst hnlen
            refine ⟨n, slots, k, rfl, hn, hspaced, fun v hlike => ?_⟩
            rw [ofAttribute, Reader.skip_eq, if_pos (hlike.length ▸ hn)]
            simp [hform, hv v hlike, ahead]
          · cases h
    · simp [if_neg hlen] at h

end Nesting

end Walk

namespace Attribute

open Walk

variable {p p' : Pool} {a a' : Attribute} {slots : List Slot} {warnings : Nat}

structure SameBut (slots : List Slot) (a a' : Attribute) : Prop where
  name : a'.name = a.name
  size : a'.content.size = a.content.size
  content : ∀ k, (∀ s ∈ slots, ¬ s.Covers k) → a'.content[k]? = a.content[k]?

private theorem slots_carries
    (hpool : ∀ {index text}, p.text index = .ok text → p'.text index = .ok text)
    (h : a.slots p = .ok (slots, warnings)) :
    Spaced 0 a.content.size slots.reverse ∧
      ∀ a', SameBut slots a a' → a'.slots p' = .ok (slots, warnings) := by
  obtain ⟨name, hname, h⟩ := bind_eq_ok_iff.mp h
  obtain ⟨w, hw, h⟩ := bind_eq_ok_iff.mp h
  cases h
  obtain ⟨n, found, k, rfl, hn, hspaced, hv⟩ := carries_ofAttribute hpool _ _ _ hw
  simp only [Reader.ofBytes, Array.length_toList] at hn
  simp only [ahead, List.append_nil, List.reverse_reverse]
  refine ⟨⟨fun s hs => ?_, hspaced.apart⟩, fun a' hsame => ?_⟩
  · have := hspaced.inside s hs
    simp only [Reader.ofBytes] at this
    omega
  · have hlike : Alike n found ⟨Reader.ofBytes a.content.toList, [], 0⟩
        ⟨Reader.ofBytes a'.content.toList, [], 0⟩ := by
      refine ⟨rfl, by simpa [Reader.ofBytes] using hsame.size, fun i _ hfree => ?_⟩
      simpa [Reader.ofBytes] using hsame.content i (by simpa [Reader.ofBytes] using hfree)
    have hwalk := hv _ hlike
    rw [← hsame.size] at hwalk
    simp only [slots, hsame.name, hpool hname]
    simp [bind, Except.bind, pure, Except.pure, hwalk, ahead]

theorem slots_spaced (h : a.slots p = .ok (slots, warnings)) :
    (∀ s ∈ slots, s.offset + 2 ≤ a.content.size) ∧
      slots.Pairwise fun s t => s.offset + 2 ≤ t.offset := by
  obtain ⟨hspaced, -⟩ := slots_carries (fun ht => ht) h
  refine ⟨fun s hs => (hspaced.inside s (List.mem_reverse.mpr hs)).2, ?_⟩
  exact List.pairwise_reverse.mp hspaced.apart

/-- An attribute keeps its slots when only their bytes change, and when the pool grows. -/
theorem slots_of_sameBut
    (hpool : ∀ {index text}, p.text index = .ok text → p'.text index = .ok text)
    (h : a.slots p = .ok (slots, warnings)) (hsame : SameBut slots a a') :
    a'.slots p' = .ok (slots, warnings) :=
  (slots_carries hpool h).2 a' hsame

end Attribute

end Retarget
