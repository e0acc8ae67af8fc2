import Mathlib.Tactic.Common
import Retarget.Text.Pieces

/-!
Cutting undoes joining when no part holds the separator.
-/

set_option autoImplicit false

namespace Retarget.Text

variable {separator mark : Char} {front back cs : List Char} {parts : List String}

private theorem pieces_of_not_mem (h : separator ∉ cs) : pieces separator cs = [cs] := by
  induction cs with
  | nil => rfl
  | cons c cs ih =>
    have hc : c ≠ separator := fun heq => h (heq ▸ List.mem_cons_self)
    have hcs : separator ∉ cs := fun hmem => h (List.mem_cons_of_mem c hmem)
    rw [pieces_cons, ih hcs, cutAt, if_neg hc]

private theorem pieces_append (h : separator ∉ front) :
    pieces separator (front ++ separator :: back) = front :: pieces separator back := by
  induction front with
  | nil =>
    rw [List.nil_append, pieces_cons]
    cases hpieces : pieces separator back with
    | nil => exact absurd hpieces (pieces_ne_nil separator back)
    | cons piece rest => rw [cutAt, if_pos rfl]
  | cons c front ih =>
    have hc : c ≠ separator := fun heq => h (heq ▸ List.mem_cons_self)
    have hfront : separator ∉ front := fun hmem => h (List.mem_cons_of_mem c hmem)
    rw [List.cons_append, pieces_cons, ih hfront, cutAt, if_neg hc]

private theorem toList_join (s : String) (parts : List String) :
    (join s parts).toList = s.toList.intercalate (parts.map String.toList) := by
  rw [join, String.toList_intercalate]

theorem split_join (hne : parts ≠ []) (h : ∀ part ∈ parts, separator ∉ part.toList) :
    split separator (join (String.singleton separator) parts) = parts := by
  have hpieces : pieces separator (join (String.singleton separator) parts).toList =
      parts.map String.toList := by
    rw [toList_join, String.toList_singleton]
    induction parts with
    | nil => exact absurd rfl hne
    | cons part rest ih =>
      have hpart := h part List.mem_cons_self
      cases rest with
      | nil =>
        rw [List.map_singleton, List.intercalate_singleton]
        exact pieces_of_not_mem hpart
      | cons next rest =>
        have hrest := fun p hp => h p (List.mem_cons_of_mem _ hp)
        rw [List.map_cons, List.map_cons, List.intercalate_cons_cons, List.append_assoc,
          List.singleton_append, pieces_append hpart]
        exact congrArg _ (ih (List.cons_ne_nil _ _) hrest)
  rw [split, hpieces, List.map_map]
  have hid : String.ofList ∘ String.toList = id := funext fun s => String.ofList_toList
  rw [hid, List.map_id]

theorem exchange_join (old new : Char) (h : ∀ part ∈ parts, old ∉ part.toList) :
    exchange old new (join (String.singleton old) parts) = join (String.singleton new) parts := by
  have hkept : ∀ part ∈ parts, part.toList.map (fun c => if c = old then new else c) =
      part.toList := by
    intro part hpart
    have hid : ∀ c ∈ part.toList, (if c = old then new else c) = c := by
      intro c hc
      have hne : c ≠ old := fun heq => h part hpart (heq ▸ hc)
      rw [if_neg hne]
    rw [List.map_congr_left hid, List.map_id']
  apply String.toList_inj.mp
  rw [exchange, String.toList_ofList, toList_join, toList_join, String.toList_singleton,
    String.toList_singleton]
  clear h
  induction parts with
  | nil => rfl
  | cons part rest ih =>
    have hpart := hkept part List.mem_cons_self
    cases rest with
    | nil =>
      rw [List.map_singleton, List.intercalate_singleton, List.intercalate_singleton]
      exact hpart
    | cons next rest =>
      have hrest := ih fun p hp => hkept p (List.mem_cons_of_mem _ hp)
      rw [List.map_cons] at hrest
      rw [List.map_cons, List.map_cons, List.intercalate_cons_cons, List.intercalate_cons_cons,
        List.map_append, List.map_append, hpart, hrest, List.map_singleton, if_pos rfl]

theorem of_splitLast (h : splitLast mark cs = some (front, back)) :
    cs = front ++ mark :: back := by
  simp only [splitLast] at h
  split at h
  · cases h
  · next m before hdrop =>
    cases h
    have hmark : m = mark := by
      have hhead := List.head?_dropWhile_not (fun c => decide (c ≠ mark)) cs.reverse
      rw [hdrop] at hhead
      simpa using hhead
    have hsplit : cs.reverse = cs.reverse.takeWhile (fun c => decide (c ≠ mark)) ++ m :: before := by
      rw [← hdrop, List.takeWhile_append_dropWhile]
    have hcs := congrArg List.reverse hsplit
    rw [List.reverse_reverse, List.reverse_append, List.reverse_cons, List.append_assoc,
      List.singleton_append, hmark] at hcs
    exact hcs

theorem splitLast_append (h : mark ∉ back) (front : List Char) :
    splitLast mark (front ++ mark :: back) = some (front, back) := by
  have hback : ∀ c ∈ back.reverse, decide (c ≠ mark) = true := by
    rintro c hc
    rw [decide_eq_true_iff]
    rintro rfl
    exact h (List.mem_reverse.mp hc)
  have hreverse : (front ++ mark :: back).reverse = back.reverse ++ mark :: front.reverse := by
    simp
  rw [splitLast, hreverse, List.takeWhile_append_of_pos hback, List.dropWhile_append_of_pos hback]
  simp

theorem splitLast_of_not_mem (h : mark ∉ cs) : splitLast mark cs = none := by
  have hall : ∀ c ∈ cs.reverse, decide (c ≠ mark) = true := by
    rintro c hc
    rw [decide_eq_true_iff]
    rintro rfl
    exact h (List.mem_reverse.mp hc)
  have hdrop : (cs.reverse ++ []).dropWhile (fun c => decide (c ≠ mark)) = [] :=
    List.dropWhile_append_of_pos hall
  rw [List.append_nil] at hdrop
  rw [splitLast, hdrop]

theorem exists_mem_pieces {c : Char} (hc : c ∈ cs) (hne : c ≠ separator) :
    ∃ piece ∈ pieces separator cs, c ∈ piece := by
  induction cs with
  | nil => cases hc
  | cons first cs ih =>
    rw [pieces_cons]
    cases hpieces : pieces separator cs with
    | nil => exact absurd hpieces (pieces_ne_nil separator cs)
    | cons piece rest =>
      rw [hpieces] at ih
      by_cases hfirst : first = separator
      · rw [cutAt, if_pos hfirst]
        rcases List.mem_cons.mp hc with rfl | hc
        · exact absurd hfirst hne
        · obtain ⟨found, hfound, hmem⟩ := ih hc
          exact ⟨found, List.mem_cons_of_mem _ hfound, hmem⟩
      · rw [cutAt, if_neg hfirst]
        rcases List.mem_cons.mp hc with rfl | hc
        · exact ⟨_, List.mem_cons_self, List.mem_cons_self⟩
        · obtain ⟨found, hfound, hmem⟩ := ih hc
          rcases List.mem_cons.mp hfound with rfl | hfound
          · exact ⟨_, List.mem_cons_self, List.mem_cons_of_mem _ hmem⟩
          · exact ⟨found, List.mem_cons_of_mem _ hfound, hmem⟩

theorem not_mem_of_mem_pieces {piece : List Char} (h : piece ∈ pieces separator cs) :
    separator ∉ piece := by
  induction cs generalizing piece with
  | nil =>
    rw [pieces_nil, List.mem_singleton] at h
    rw [h]
    exact List.not_mem_nil
  | cons c cs ih =>
    rw [pieces_cons] at h
    cases hpieces : pieces separator cs with
    | nil => exact absurd hpieces (pieces_ne_nil separator cs)
    | cons first rest =>
      rw [hpieces] at h ih
      by_cases hc : c = separator
      · rw [cutAt, if_pos hc] at h
        rcases List.mem_cons.mp h with rfl | h
        · exact List.not_mem_nil
        · exact ih h
      · rw [cutAt, if_neg hc] at h
        rcases List.mem_cons.mp h with rfl | h
        · intro hmem
          rcases List.mem_cons.mp hmem with heq | hmem
          · exact hc heq.symm
          · exact ih List.mem_cons_self hmem
        · exact ih (List.mem_cons_of_mem first h)

theorem mem_of_mem_pieces {c : Char} {piece : List Char} (h : piece ∈ pieces separator cs)
    (hc : c ∈ piece) : c ∈ cs := by
  induction cs generalizing piece with
  | nil =>
    rw [pieces_nil, List.mem_singleton] at h
    rwa [h] at hc
  | cons first cs ih =>
    rw [pieces_cons] at h
    cases hpieces : pieces separator cs with
    | nil => exact absurd hpieces (pieces_ne_nil separator cs)
    | cons next rest =>
      rw [hpieces] at h ih
      by_cases hfirst : first = separator
      · rw [cutAt, if_pos hfirst] at h
        rcases List.mem_cons.mp h with rfl | h
        · cases hc
        · exact List.mem_cons_of_mem first (ih h hc)
      · rw [cutAt, if_neg hfirst] at h
        rcases List.mem_cons.mp h with rfl | h
        · rcases List.mem_cons.mp hc with rfl | hc
          · exact List.mem_cons_self
          · exact List.mem_cons_of_mem first (ih List.mem_cons_self hc)
        · exact List.mem_cons_of_mem first (ih (List.mem_cons_of_mem next h) hc)

private theorem intercalate_pieces (separator : Char) (cs : List Char) :
    [separator].intercalate (pieces separator cs) = cs := by
  induction cs with
  | nil => rfl
  | cons c cs ih =>
    rw [pieces_cons]
    cases hpieces : pieces separator cs with
    | nil => exact absurd hpieces (pieces_ne_nil separator cs)
    | cons first rest =>
      rw [hpieces] at ih
      by_cases hc : c = separator
      · rw [cutAt, if_pos hc, List.intercalate_cons_cons, ih, hc]
        rfl
      · rw [cutAt, if_neg hc]
        cases rest with
        | nil =>
          rw [List.intercalate_singleton] at ih ⊢
          rw [ih]
        | cons next rest =>
          rw [List.intercalate_cons_cons] at ih ⊢
          rw [List.cons_append, List.cons_append, ih]

theorem join_split (separator : Char) (s : String) :
    join (String.singleton separator) (split separator s) = s := by
  apply String.toList_inj.mp
  have hid : String.toList ∘ String.ofList = id := funext fun cs => String.toList_ofList
  rw [toList_join, split, List.map_map, hid, List.map_id, String.toList_singleton,
    intercalate_pieces]

theorem split_exchange {old new : Char} {s : String} (h : new ∉ s.toList) :
    split new (exchange old new s) = split old s := by
  have hpieces : ∀ cs : List Char, new ∉ cs →
      pieces new (cs.map fun c => if c = old then new else c) = pieces old cs := by
    intro cs hcs
    induction cs with
    | nil => rfl
    | cons c cs ih =>
      have hrest : new ∉ cs := fun hmem => hcs (List.mem_cons_of_mem c hmem)
      have hc : c ≠ new := fun heq => hcs (heq ▸ List.mem_cons_self)
      rw [List.map_cons, pieces_cons, pieces_cons, ih hrest]
      by_cases hold : c = old
      · rw [if_pos hold]
        cases pieces old cs <;> simp [cutAt, hold]
      · rw [if_neg hold]
        cases pieces old cs <;> simp [cutAt, hold, hc]
  rw [split, exchange, String.toList_ofList, hpieces _ h, split]

end Retarget.Text
