import Retarget.Proofs.Bytes.ReadBack

/-!
Steps that know where they end. Such a step takes the same bytes and gives the
same item whatever follows them, and runs out of bytes if it has a proper part
of them only. Steps in a row know where they end if each does.
-/

set_option autoImplicit false

namespace Retarget.Reader

variable {α β : Type}

/-- From `position` on the step takes exactly the bytes in `used`, and gives `a`. -/
structure Uses (step : Reader → Except Fault (α × Reader)) (position : Nat) (used : Bytes) (a : α) :
    Prop where
  whole : ∀ rest, step ⟨position, used ++ rest⟩ = .ok (a, ⟨position + used.length, rest⟩)
  cut : ∀ front, front <+: used → front ≠ used → step ⟨position, front⟩ = .error .outOfBounds

/-- Where the step succeeds, it has taken bytes that it uses exactly. -/
def Delimited (step : Reader → Except Fault (α × Reader)) : Prop :=
  ∀ ⦃r r' : Reader⦄ ⦃a : α⦄, step r = .ok (a, r') →
    ∃ used, r.rest = used ++ r'.rest ∧ Uses step r.position used a

private theorem Uses.reader_eq {step : Reader → Except Fault (α × Reader)} {r r' : Reader}
    {used : Bytes}
    {a b : α} (h : Uses step r.position used a) (hrest : r.rest = used ++ r'.rest)
    (hstep : step r = .ok (b, r')) : r' = ⟨r.position + used.length, r'.rest⟩ := by
  have hwhole := h.whole r'.rest
  rw [← hrest, hstep] at hwhole
  exact (Prod.mk.inj (Except.ok.inj hwhole)).2

theorem prefix_append_cases {front first second : Bytes} (h : front <+: first ++ second)
    (hne : front ≠ first ++ second) : (front <+: first ∧ front ≠ first) ∨
      ∃ more, front = first ++ more ∧ more <+: second ∧ more ≠ second := by
  rcases List.prefix_or_prefix_of_prefix h (List.prefix_append first second) with hfront | ⟨more, rfl⟩
  · by_cases heq : front = first
    · subst heq
      refine .inr ⟨[], (List.append_nil front).symm, List.nil_prefix, fun hnil => hne ?_⟩
      rw [← hnil, List.append_nil]
    · exact .inl ⟨hfront, heq⟩
  · refine .inr ⟨more, rfl, (List.prefix_append_right_inj first).mp h, ?_⟩
    rintro rfl
    exact hne rfl

theorem delimited_pure (a : α) : Delimited fun r => pure (a, r) := by
  intro r r' b h
  cases h
  refine ⟨[], rfl, ⟨fun rest => rfl, fun front hfront hne => ?_⟩⟩
  exact absurd (List.prefix_nil.mp hfront) hne

theorem delimited_take (n : Nat) : Delimited (take n) := by
  intro r r' bytes h
  obtain ⟨hrest, hn, -⟩ := take_eq_ok_iff.mp h
  refine ⟨bytes, hrest, ⟨fun rest => ?_, fun front hfront hne => take_error ?_⟩⟩
  · rw [hn]
    exact take_append n r.position bytes rest hn
  · rw [← hn]
    exact Nat.lt_of_le_of_ne hfront.length_le fun heq => hne (hfront.eq_of_length heq)

theorem delimited_byte : Delimited byte := by
  intro r r' b h
  obtain ⟨position, rest⟩ := r
  cases rest with
  | nil => cases h
  | cons first rest =>
    cases h
    refine ⟨[b], rfl, ⟨fun rest => rfl, fun front hfront hne => ?_⟩⟩
    cases front with
    | nil => rfl
    | cons other front =>
      obtain ⟨rfl, htail⟩ := List.cons_prefix_cons.mp hfront
      rw [List.prefix_nil.mp htail] at hne
      exact absurd rfl hne

namespace Delimited

variable {first : Reader → Except Fault (α × Reader)}

theorem bindAt {next : Nat → α × Reader → Except Fault (β × Reader)} (hfirst : Delimited first)
    (hnext : ∀ position a, Delimited fun r => next position (a, r)) :
    Delimited fun r => first r >>= next r.position := by
  intro r r'' b h
  obtain ⟨⟨a, r'⟩, hstep, hrun⟩ := bind_eq_ok_iff.mp h
  obtain ⟨used, hrest, huses⟩ := hfirst hstep
  obtain ⟨more, hrest', huses'⟩ := hnext r.position a hrun
  rw [huses.reader_eq hrest hstep] at huses'
  refine ⟨used ++ more, by rw [hrest, hrest', List.append_assoc], ⟨fun rest => ?_,
    fun front hfront hne => ?_⟩⟩
  · refine bind_eq_ok_iff.mpr ⟨(a, ⟨r.position + used.length, more ++ rest⟩), ?_, ?_⟩
    · rw [List.append_assoc]
      exact huses.whole (more ++ rest)
    · rw [List.length_append, ← Nat.add_assoc]
      exact huses'.whole rest
  · rcases prefix_append_cases hfront hne with ⟨hin, hpart⟩ | ⟨part, rfl, hin, hpart⟩
    · simp only [huses.cut front hin hpart]
      rfl
    · have hcut := huses'.cut part hin hpart
      simp only [huses.whole part]
      exact hcut

theorem bind {next : α × Reader → Except Fault (β × Reader)} (hfirst : Delimited first)
    (hnext : ∀ a, Delimited fun r => next (a, r)) : Delimited fun r => first r >>= next :=
  @bindAt α β first (fun _ => next) hfirst fun _ => hnext

private theorem map {f : α → β} {step : Reader → Except Fault (β × Reader)} (h : Delimited first)
    (heq : ∀ r, step r = first r >>= fun x => pure (f x.1, x.2)) : Delimited step := by
  rw [funext heq]
  exact h.bind fun a => delimited_pure (f a)

theorem of_error {step : Reader → Except Fault (α × Reader)} {fault : Fault}
    (h : ∀ r, step r = .error fault) : Delimited step := by
  intro r r' a hrun
  cases (h r).symm.trans hrun

end Delimited

private theorem delimited_number (width : Nat) : Delimited (number width) :=
  (delimited_take width).map fun r => by
    rw [number]
    cases take width r <;> rfl

theorem delimited_word16 : Delimited word16 :=
  (delimited_number 2).map fun r => by
    rw [word16]
    cases number 2 r <;> rfl

theorem delimited_word32 : Delimited word32 :=
  (delimited_number 4).map fun r => by
    rw [word32]
    cases number 4 r <;> rfl

theorem delimited_word64 : Delimited word64 :=
  (delimited_number 8).map fun r => by
    rw [word64]
    cases number 8 r <;> rfl

section Table

variable {item : Reader → Except Fault (α × Reader)}

private theorem delimited_many (hitem : Delimited item) (n : Nat) (taken : Array α) :
    Delimited (many item n taken) := by
  induction n generalizing taken with
  | zero => exact delimited_pure taken
  | succ n ih =>
    have heq : many item (n + 1) taken =
        fun r => item r >>= fun x => many item n (taken.push x.1) x.2 := by
      funext r
      rw [many]
      cases item r <;> rfl
    exact heq ▸ hitem.bind fun a => ih (taken.push a)

theorem delimited_table (hitem : Delimited item) : Delimited (table item) := by
  have heq : table item = fun r => word16 r >>= fun x => many item x.1.toNat #[] x.2 := by
    funext r
    rw [table]
    cases word16 r <;> rfl
  exact heq ▸ delimited_word16.bind fun count => delimited_many hitem count.toNat #[]

end Table

end Retarget.Reader
