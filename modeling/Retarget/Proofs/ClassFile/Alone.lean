import Retarget.ClassFile.Rename
import Retarget.Proofs.ClassFile.Frame
import Retarget.Proofs.ClassFile.PoolBuilt

/-!
The memo of a renaming cannot be seen. What it recalls of a text is what
exchanging the text anew would give: texts never change, and a text that was
interned is found again under the same index. So sites may as well be renamed
each on its own.
-/

set_option autoImplicit false

namespace Retarget

namespace Pool

variable {p p' : Pool} {new : Bytes} {index : UInt16}

/-- All texts of the first pool are in the second one, and registered as before. -/
structure Extends (p p' : Pool) : Prop where
  text : ∀ {index : UInt16} {text : Bytes}, p.text index = .ok text → p'.text index = .ok text
  texts : ∀ {text : Bytes} {index : UInt16}, p.texts[text]? = some index →
    p'.texts[text]? = some index

theorem Extends.refl (p : Pool) : p.Extends p := ⟨fun h => h, fun h => h⟩

theorem Extends.trans {p₁ p₂ p₃ : Pool} (h₁ : p₁.Extends p₂) (h₂ : p₂.Extends p₃) :
    p₁.Extends p₃ :=
  ⟨fun h => h₂.text (h₁.text h), fun h => h₂.texts (h₁.texts h)⟩

private theorem Extends.relink (index text : UInt16) (p : Pool) : p.Extends (p.relink index text) :=
  ⟨((Grown.refl p).relink index text).text, fun h => h⟩

structure Interned (p : Pool) (new : Bytes) (index : UInt16) (p' : Pool) : Prop where
  registered : p'.Registered
  found : p'.texts[new]? = some index
  kept : ∀ {i : Nat} {e : Constant}, p.entries[i]? = some e → p'.entries[i]? = some e
  texts : ∀ {text : Bytes} {i : UInt16}, p.texts[text]? = some i → p'.texts[text]? = some i
  added : ∀ {i : Nat} {e : Constant}, p'.entries[i]? = some e →
    p.entries[i]? = some e ∨ e = .utf8 new
  grown : ∀ {p₀ : Pool}, p₀.Grown p → p₀.Grown p'
  built : p.Built → p'.Built

namespace Interned

private theorem of_found (hp : p.Registered) (h : p.texts[new]? = some index) :
    p.Interned new index p where
  registered := hp
  found := h
  kept he := he
  texts ht := ht
  added he := .inl he
  grown hgrown := hgrown
  built hbuilt := hbuilt

private theorem of_append (hp : p.Registered) (h : p.texts[new]? = none)
    (hroom : p.count + 1 ≤ Fault.poolLimit) :
    p.Interned new (UInt16.ofNat p.count) (p.append (.utf8 new)) where
  registered := hp.append hroom
  found := by
    simp only [Pool.append]
    rw [getElem?_register, if_pos ⟨rfl, h⟩]
    rfl
  kept he := getElem?_append_of_some he
  texts {text i} ht := by
    simp only [Pool.append, getElem?_register]
    rw [if_neg, ht]
    rintro ⟨heq, hnone⟩
    cases ht.symm.trans hnone
  added {i e} he := by
    rcases of_getElem?_append he with hold | ⟨-, rfl⟩ | ⟨hi, -⟩
    · exact .inl hold
    · exact .inr rfl
    · have hcount := p.count_append (.utf8 new)
      have hslots : (Constant.utf8 new).slots = 1 := rfl
      have hlt : i < (p.append (.utf8 new)).count := (Array.getElem?_eq_some_iff.mp he).1
      omega
  grown hgrown := hgrown.append (hp.not_mem h)
  built hbuilt := hbuilt.append Constant.noConfusion

theorem text (h : p.Interned new index p') : p'.text index = .ok new :=
  text_eq_ok_iff.mpr (h.registered.found h.found)

theorem toExtends (h : p.Interned new index p') : p.Extends p' where
  text ht := text_eq_ok_iff.mpr (h.kept (text_eq_ok_iff.mp ht))
  texts := h.texts

end Interned

end Pool

namespace ClassFile

variable {c c' : ClassFile} {map : Bytes → Option Bytes} {site : Site} {sites : List Site}
  {location : Location} {kind : SymbolForm} {index : UInt16} {new : Bytes} {memo : Memo}
  {tally : Tally}

theorem onPool_eq {α : Type} (step : Pool.Edit α) (c : ClassFile) :
    onPool step c = match step c.pool with
      | .ok a p => .ok a { c with pool := p }
      | .error fault p => .error fault { c with pool := p } := by
  obtain ⟨minor, major, pool, access, this, super, interfaces, fields, methods, attributes⟩ := c
  unfold onPool
  cases hstep : step pool with
  | ok a p => simp only [hstep]
  | error fault p => simp only [hstep]

theorem onPool_intern (new : Bytes) (hc : c.pool.Registered) :
    (∃ index p, onPool (Pool.intern new) c = .ok index { c with pool := p } ∧
      c.pool.Interned new index p) ∨
    ∃ fault, onPool (Pool.intern new) c = .error fault c := by
  rw [onPool_eq]
  rcases Pool.intern_cases new c.pool with ⟨index, hfound, h⟩ | ⟨hnew, hroom, h⟩ | ⟨fault, -, h⟩
  · rw [h]
    exact .inl ⟨index, c.pool, rfl, .of_found hc hfound⟩
  · rw [h]
    exact .inl ⟨_, _, rfl, .of_append hc hnew hroom⟩
  · rw [h]
    exact .inr ⟨fault, rfl⟩

theorem indexAt_interned {p : Pool} (h : c.pool.Interned new index p) (location : Location)
    (i : UInt16) : ({ c with pool := p } : ClassFile).indexAt location = .ok i ↔
      c.indexAt location = .ok i := by
  cases location with
  | constant j =>
    rw [indexAt_constant_eq_ok_iff, indexAt_constant_eq_ok_iff]
    constructor
    · rintro ⟨e, kind, he, hsymbol⟩
      rcases h.added he with hold | rfl
      · exact ⟨e, kind, hold, hsymbol⟩
      · cases hsymbol
    · rintro ⟨e, kind, he, hsymbol⟩
      exact ⟨e, kind, h.kept he, hsymbol⟩
  | slot owner => cases owner <;> rfl
  | _ => rfl

theorem extends_place (location : Location) (index : UInt16) (c : ClassFile) :
    c.pool.Extends (c.place location index).pool := by
  cases location with
  | constant i => exact .relink i index c.pool
  | slot owner => cases owner <;> exact .refl c.pool
  | _ => exact .refl c.pool

theorem registered_place (hc : c.pool.Registered) (location : Location) (index : UInt16) :
    (c.place location index).pool.Registered := by
  cases location with
  | constant i => exact hc.relink i index
  | slot owner => cases owner <;> exact hc
  | _ => exact hc

/-- What may be recalled of a reading: what exchanging its text anew would give. -/
def Recalled (map : Bytes → Option Bytes) (p : Pool) (r : Reading) : Option UInt16 → Prop
  | none => ∃ text, p.text r.index = .ok text ∧ Symbol.substitute r.kind map text = .ok none
  | some index => ∃ text new, p.text r.index = .ok text ∧
      Symbol.substitute r.kind map text = .ok (some new) ∧ p.texts[new]? = some index

private theorem Recalled.mono {p p' : Pool} {r : Reading} {known : Option UInt16}
    (h : Recalled map p r known) (hp : p.Extends p') : Recalled map p' r known := by
  cases known with
  | none =>
    obtain ⟨text, htext, hsame⟩ := h
    exact ⟨text, hp.text htext, hsame⟩
  | some index =>
    obtain ⟨text, new, htext, hnew, hindex⟩ := h
    exact ⟨text, new, hp.text htext, hnew, hp.texts hindex⟩

def Faithful (map : Bytes → Option Bytes) (p : Pool) (memo : Memo) : Prop :=
  ∀ (r : Reading) (known : Option UInt16), memo[r]? = some known → Recalled map p r known

namespace Faithful

theorem empty (p : Pool) : Faithful map p ∅ := by
  intro r known h
  rw [Std.ExtTreeMap.getElem?_empty] at h
  cases h

private theorem mono {p p' : Pool} (h : Faithful map p memo) (hp : p.Extends p') :
    Faithful map p' memo := fun r known hknown => (h r known hknown).mono hp

private theorem insert {p : Pool} {r : Reading} {known : Option UInt16} (h : Faithful map p memo)
    (hr : Recalled map p r known) : Faithful map p (memo.insert r known) := by
  intro r' known' h'
  rw [Std.ExtTreeMap.getElem?_insert] at h'
  split_ifs at h' with hcompare
  · have heq : r = r' := Std.LawfulEqCmp.compare_eq_iff_eq.mp hcompare
    cases h'
    exact heq ▸ hr
  · exact h r' known' h'

end Faithful

private theorem target_of_recalled {known : Option UInt16}
    (h : Recalled map c.pool ⟨kind, index⟩ known) :
    target map kind index c = .ok (.ok known) c := by
  cases known with
  | none =>
    obtain ⟨text, htext, hsame⟩ := h
    simp only [target, htext, hsame]
  | some i =>
    obtain ⟨text, new, htext, hnew, hfound⟩ := h
    have hintern : onPool (Pool.intern new) c = .ok i c := by
      rw [onPool_eq, Pool.intern, hfound]
    simp only [target, htext, hnew, hintern]

private theorem target_cases (map : Bytes → Option Bytes) (kind : SymbolForm) (index : UInt16)
    (hc : c.pool.Registered) :
    (∃ text defect, c.pool.text index = .ok text ∧ Symbol.substitute kind map text = .error defect ∧
      target map kind index c = .ok (.error defect) c) ∨
    (∃ text, c.pool.text index = .ok text ∧ Symbol.substitute kind map text = .ok none ∧
      target map kind index c = .ok (.ok none) c) ∨
    (∃ text new i p, c.pool.text index = .ok text ∧
      Symbol.substitute kind map text = .ok (some new) ∧ c.pool.Interned new i p ∧
      target map kind index c = .ok (.ok (some i)) { c with pool := p }) ∨
    ∃ fault, target map kind index c = .error fault c := by
  cases htext : c.pool.text index with
  | error fault => exact .inr (.inr (.inr ⟨fault, by simp only [target, htext]⟩))
  | ok text =>
    cases hsub : Symbol.substitute kind map text with
    | error defect => exact .inl ⟨text, defect, rfl, hsub, by simp only [target, htext, hsub]⟩
    | ok exchanged =>
      cases exchanged with
      | none => exact .inr (.inl ⟨text, rfl, hsub, by simp only [target, htext, hsub]⟩)
      | some new =>
        rcases onPool_intern new hc with ⟨i, p, hintern, hp⟩ | ⟨fault, hintern⟩
        · exact .inr (.inr (.inl ⟨text, new, i, p, rfl, hsub, hp,
            by simp only [target, htext, hsub, hintern]⟩))
        · exact .inr (.inr (.inr ⟨fault, by simp only [target, htext, hsub, hintern]⟩))

def alone (map : Bytes → Option Bytes) (site : Site) : Edit Tally := fun c =>
  match renameSite map site ∅ c with
  | .ok (tally, _) c => .ok tally c
  | .error fault c => .error fault c

def eachAlone (map : Bytes → Option Bytes) : List Site → Tally → Edit Tally
  | [], tally, c => .ok tally c
  | site :: sites, tally, c =>
    match alone map site c with
    | .ok t c => eachAlone map sites (tally.add t) c
    | .error fault c => .error fault c

private theorem leadTo_memo (location : Location) (memo memo' : Memo) (known : Option UInt16)
    (c : ClassFile) : leadTo location memo known c = match leadTo location memo' known c with
      | .ok (tally, _) c => .ok (tally, memo) c
      | .error fault c => .error fault c := by
  cases known with
  | none => rfl
  | some index =>
    simp only [leadTo]
    cases setIndexAt location index c <;> rfl

private theorem extends_leadTo {known : Option UInt16} {memo' : Memo}
    (h : leadTo location memo known c = .ok (tally, memo') c') : c.pool.Extends c'.pool := by
  cases known with
  | none =>
    cases h
    exact .refl _
  | some index =>
    simp only [leadTo, setIndexAt] at h
    split at h
    · next hset =>
      split at hset
      · cases hset
      · split at hset
        · cases hset
        · cases hset
          cases h
          exact extends_place location index c
    · cases h

private theorem renameSite_of_faithful (site : Site) (hc : c.pool.Registered)
    (hmemo : Faithful map c.pool memo) :
    match renameSite map site memo c with
    | .ok (tally, memo') c' => alone map site c = .ok tally c' ∧ Faithful map c'.pool memo'
    | .error fault c' => alone map site c = .error fault c' := by
  -- a location is led to the same text whatever memo is passed on
  have hlead : ∀ {c₁ : ClassFile} {memo₁ : Memo} (memo₂ : Memo) (known : Option UInt16),
      Faithful map c₁.pool memo₁ → match leadTo site.location memo₁ known c₁ with
        | .ok (tally, memo') c' => (match leadTo site.location memo₂ known c₁ with
            | .ok (tally, _) c' => EStateM.Result.ok tally c'
            | .error fault c' => .error fault c') = .ok tally c' ∧ Faithful map c'.pool memo'
        | .error fault c' => (match leadTo site.location memo₂ known c₁ with
            | .ok (tally, _) c' => EStateM.Result.ok tally c'
            | .error fault c' => .error fault c') = .error fault c' := by
    intro c₁ memo₁ memo₂ known hmemo₁
    rw [leadTo_memo site.location memo₁ memo₂]
    cases h : leadTo site.location memo₂ known c₁ with
    | error fault c' => rfl
    | ok r c' => exact ⟨rfl, hmemo₁.mono (extends_leadTo h)⟩
  simp only [alone, renameSite]
  cases hindex : c.indexAt site.location with
  | error fault => rfl
  | ok index =>
    simp only [Std.ExtTreeMap.getElem?_empty]
    cases hknown : memo[Reading.mk site.kind index]? with
    | some known =>
      simp only [target_of_recalled (hmemo _ _ hknown)]
      exact hlead _ known hmemo
    | none =>
      rcases target_cases map site.kind index hc with ⟨text, defect, -, -, htarget⟩ |
        ⟨text, htext, hsame, htarget⟩ | ⟨text, new, i, p, htext, hnew, hp, htarget⟩ |
        ⟨fault, htarget⟩
      · simp only [htarget]
        cases site.location.isSlot with
        | true => exact ⟨rfl, hmemo⟩
        | false => rfl
      · have hrecalled : Recalled map c.pool ⟨site.kind, index⟩ none := ⟨text, htext, hsame⟩
        simp only [htarget]
        exact hlead ∅ none (hmemo.insert hrecalled)
      · have hrecalled : Recalled map p ⟨site.kind, index⟩ (some i) :=
          ⟨text, new, hp.toExtends.text htext, hnew, hp.found⟩
        have hmemo' : Faithful map p memo := hmemo.mono hp.toExtends
        simp only [htarget]
        exact hlead _ (some i) (hmemo'.insert hrecalled)
      · simp only [htarget]

/-- What exchanging the names in the text of one site does if it succeeds. -/
inductive Outcome (map : Bytes → Option Bytes) (site : Site) (c : ClassFile) :
    Tally → ClassFile → Prop where
  /-- No name in the text has a new one. -/
  | stays {index : UInt16} {text : Bytes} (hindex : c.indexAt site.location = .ok index)
      (htext : c.pool.text index = .ok text) (hsub : Symbol.substitute site.kind map text = .ok none) :
      Outcome map site c ⟨0, 0⟩ c
  /-- The text, in an attribute, is no proper symbol. -/
  | left {index : UInt16} {text : Bytes} {defect : Defect}
      (hindex : c.indexAt site.location = .ok index) (htext : c.pool.text index = .ok text)
      (hsub : Symbol.substitute site.kind map text = .error defect)
      (hslot : site.location.isSlot = true) : Outcome map site c ⟨0, 1⟩ c
  /-- The site leads to the exchanged text. -/
  | leads {index i : UInt16} {text new : Bytes} {p : Pool}
      (hindex : c.indexAt site.location = .ok index) (htext : c.pool.text index = .ok text)
      (hsub : Symbol.substitute site.kind map text = .ok (some new))
      (hp : c.pool.Interned new i p) :
      Outcome map site c ⟨1, 0⟩ (({ c with pool := p } : ClassFile).place site.location i)

theorem alone_cases (map : Bytes → Option Bytes) (site : Site) (hc : c.pool.Registered) :
    (∃ tally c', alone map site c = .ok tally c' ∧ Outcome map site c tally c') ∨
    ∃ fault, alone map site c = .error fault c := by
  simp only [alone, renameSite]
  cases hindex : c.indexAt site.location with
  | error fault => exact .inr ⟨fault, rfl⟩
  | ok index =>
    simp only [Std.ExtTreeMap.getElem?_empty]
    rcases target_cases map site.kind index hc with ⟨text, defect, htext, hsub, htarget⟩ |
      ⟨text, htext, hsub, htarget⟩ | ⟨text, new, i, p, htext, hsub, hp, htarget⟩ |
      ⟨fault, htarget⟩
    · simp only [htarget]
      cases hslot : site.location.isSlot with
      | true => exact .inl ⟨_, _, rfl, .left hindex htext hsub hslot⟩
      | false => exact .inr ⟨_, rfl⟩
    · simp only [htarget]
      exact .inl ⟨_, _, rfl, .stays hindex htext hsub⟩
    · have hread := (indexAt_interned hp site.location index).mpr hindex
      have hnew : ({ c with pool := p } : ClassFile).pool.text i = .ok new := hp.text
      simp only [htarget, leadTo, setIndexAt, hread, hnew]
      exact .inl ⟨_, _, rfl, .leads hindex htext hsub hp⟩
    · simp only [htarget]
      exact .inr ⟨fault, rfl⟩

theorem Outcome.registered (h : Outcome map site c tally c') (hc : c.pool.Registered) :
    c'.pool.Registered := by
  cases h with
  | stays => exact hc
  | left => exact hc
  | leads _ _ _ hp => exact registered_place hp.registered _ _

/-- The memo of a renaming cannot be seen. -/
theorem renameSites_eq_eachAlone (hc : c.pool.Registered) (hmemo : Faithful map c.pool memo)
    (tally : Tally) : renameSites map sites tally memo c = eachAlone map sites tally c := by
  induction sites generalizing c memo tally with
  | nil => rfl
  | cons site sites ih =>
    have hsite := renameSite_of_faithful site hc hmemo
    rw [renameSites, eachAlone]
    cases hstep : renameSite map site memo c with
    | error fault c' =>
      rw [hstep] at hsite
      rw [hsite]
    | ok r c' =>
      obtain ⟨t, memo'⟩ := r
      simp only [hstep] at hsite
      obtain ⟨halone, hmemo'⟩ := hsite
      have hc' : c'.pool.Registered := by
        rcases alone_cases map site hc with ⟨t', c₁, h, houtcome⟩ | ⟨fault, h⟩
        · cases halone.symm.trans h
          exact houtcome.registered hc
        · cases halone.symm.trans h
      rw [halone]
      exact ih hc' hmemo' _

end ClassFile

end Retarget
