import Retarget.Proofs.ClassFile.Cells

/-!
How deep a walk over an attribute goes. Here the walk counts the attributes,
annotations and arrays it is in, up when it enters one and down when it leaves;
a part that fails leaves the count and the slots as they are, and only the
passing over of annotations puts them back. It takes the same way as the walk
that is told how much room is left. Nothing is read deeper than the limit, and in
the end the count is what it was.
-/

set_option autoImplicit false

namespace Retarget

/-- A walk that counts how deep it is, and keeps the greatest depth it was at without failing. -/
structure Descent where
  walk : Walk
  depth : Nat
  deepest : Nat

namespace Descent

open Walk (depthLimit)

abbrev Step := EStateM Fault Descent Unit

section Walker

def reach (w : Walk) (d : Descent) : Descent := ⟨w, d.depth, max d.deepest d.depth⟩

def reading (step : Walk.Step) : Step := fun d =>
  match step d.walk with
  | .ok w => .ok () (d.reach w)
  | .error fault => .error fault d

def failing (fault : Fault) : Step := fun d => .error fault d

def withNumber (width : Nat) (next : Nat → Step) : Step := fun d =>
  match d.walk.reader.number width with
  | .ok (n, r) => next n (d.reach { d.walk with reader := r })
  | .error fault => .error fault d

def andThen (first second : Step) : Step := fun d =>
  match first d with
  | .ok _ d' => second d'
  | .error fault d' => .error fault d'

def times (part : Step) : Nat → Step
  | 0, d => .ok () d
  | n + 1, d => andThen part (times part n) d

def counted (part : Step) : Step := withNumber 2 (times part)

def enter : Step := fun d =>
  let d' := { d with depth := d.depth + 1 }
  if depthLimit < d'.depth then .error (.malformed (.attributeDepth depthLimit)) d'
  else .ok () (d'.reach d'.walk)

def leave : Step := fun d => .ok () { d with depth := d.depth - 1 }

def within (part : Step) : Step := andThen enter (andThen part leave)

def annotationOf (value : Step) : Step :=
  within (andThen (reading (Walk.slot .descriptor))
    (counted (andThen (reading (Walk.skip 2)) value)))

/-- The value of an annotation's element. The count ends the recursion before `fuel` does, if there
is more of that than room. -/
def elementValue : Nat → Step
  | 0 => failing .outOfBounds
  | fuel + 1 => withNumber 1 fun tag =>
    if UInt8.ofNat tag ∈ Bytes.ascii "BCDFIJSZs" then reading (Walk.skip 2)
    else if tag = 'e'.toNat then
      andThen (reading (Walk.slot .descriptor)) (reading (Walk.skip 2))
    else if tag = 'c'.toNat then reading (Walk.slot .descriptor)
    else if tag = '@'.toNat then annotationOf (elementValue fuel)
    else if tag = '['.toNat then within (counted (elementValue fuel))
    else failing (.malformed (.elementTag (UInt8.ofNat tag)))

def annotations (fuel : Nat) : Step := counted (annotationOf (elementValue fuel))

def parameterAnnotations (fuel : Nat) : Step := withNumber 1 (times (annotations fuel))

def localVariables (kind : SymbolForm) : Step :=
  counted (andThen (reading (Walk.skip 6))
    (andThen (reading (Walk.slot kind)) (reading (Walk.skip 2))))

def nested (pool : Pool) (inner : Bytes → Nat → Step) : Step :=
  counted <| withNumber 2 fun name => withNumber 4 fun length => fun d =>
    match pool.text (UInt16.ofNat name) with
    | .ok text => inner text length d
    | .error fault => .error fault d

def code (attributes : Step) : Step :=
  andThen (reading (Walk.skip 4)) <| withNumber 4 fun length =>
    andThen (reading (Walk.skip length)) <| withNumber 2 fun handlers =>
      andThen (reading (Walk.skip (handlers * 8))) attributes

def components (attributes : Step) : Step :=
  counted (andThen (reading (Walk.skip 2))
    (andThen (reading (Walk.slot .descriptor)) attributes))

/-- Walks content that ends at `stop`. If it fails or ends elsewhere, the walk goes on at `stop`; the
slots are cut back to as many as there were, and the count is put back. -/
def forgiving (length : Nat) (content : Step) : Step := fun d =>
  let stop := d.walk.reader.position + length
  let passOver (left : Descent) : EStateM.Result Fault Descent Unit :=
    match d.walk.reader.skip length with
    | .ok r =>
      let found := left.walk.found.drop (left.walk.found.length - d.walk.found.length)
      .ok () ⟨⟨r, found, d.walk.warnings + 1⟩, d.depth, left.deepest⟩
    | .error fault => .error fault left
  match content d with
  | .ok _ d' => if d'.walk.reader.position = stop then .ok () d' else passOver d'
  | .error _ d' => passOver d'

def content (pool : Pool) (form : ContentForm) (length fuel : Nat) (inner : Bytes → Nat → Step) :
    Step :=
  match form with
  | .signature => reading (Walk.slot .signature)
  | .code => code (nested pool inner)
  | .localVariables kind => localVariables kind
  | .record => components (nested pool inner)
  | .annotations => forgiving length (annotations fuel)
  | .parameterAnnotations => forgiving length (parameterAnnotations fuel)
  | .elementValue => forgiving length (elementValue fuel)

def endsAt (stop : Nat) (name : String) (length : Nat) : Step := fun d =>
  if d.walk.reader.position = stop then .ok () d
  else .error (.malformed (.attributeLength name length)) d

def ofAttribute (pool : Pool) : Nat → Bytes → Nat → Step
  | 0, _, _ => failing .outOfBounds
  | fuel + 1, name, length => fun d =>
    match d.walk.reader.skip length with
    | .error fault => .error fault d
    | .ok after =>
      match ContentForm.ofName? name with
      | none => within (reading (Walk.skip length)) d
      | some (formName, form) =>
        andThen (within (content pool form length fuel (ofAttribute pool fuel)))
          (endsAt after.position formName length) d

def start (a : Attribute) : Descent := ⟨⟨Reader.ofBytes a.content.toList, [], 0⟩, 0, 0⟩

def run (pool : Pool) (fuel : Nat) (a : Attribute) : Except Fault Descent := do
  let name ← pool.text a.name
  match ofAttribute pool fuel name a.content.size (start a) with
  | .ok _ d => return d
  | .error fault _ => throw fault

end Walker

section Following

variable {d d' : Descent} {room fuel : Nat} {step first second part : Walk.Step}
  {counting first' second' part' : Step} {result : Except Fault Walk}
  {counted' : EStateM.Result Fault Descent Unit}

/-- The counting walk does what the walk does. If that succeeds, it is as deep as before; in any case
it has read nothing deeper than the limit, and the slots from before are still the last ones. -/
inductive Follows (d : Descent) : Except Fault Walk → EStateM.Result Fault Descent Unit → Prop where
  | ok {w : Walk} {deepest : Nat} (hfound : d.walk.found <:+ w.found)
      (hdeepest : deepest ≤ max d.deepest depthLimit) :
      Follows d (.ok w) (.ok () ⟨w, d.depth, deepest⟩)
  | error {fault : Fault} {d' : Descent} (hfound : d.walk.found <:+ d'.walk.found)
      (hdeepest : d'.deepest ≤ max d.deepest depthLimit) : Follows d (.error fault) (.error fault d')

/-- With so much room left, the two parts do the same. -/
def Counts (room : Nat) (step : Walk.Step) (counting : Step) : Prop :=
  ∀ d : Descent, d.depth + room = depthLimit → Follows d (step d.walk) (counting d)

private theorem Follows.behind (h : Follows d' result counted') (hdepth : d'.depth = d.depth)
    (hfound : d.walk.found <:+ d'.walk.found) (hdeepest : d'.deepest ≤ max d.deepest depthLimit) :
    Follows d result counted' := by
  cases h with
  | ok hfound' hdeepest' =>
    rw [hdepth]
    exact .ok (hfound.trans hfound') (by omega)
  | error hfound' hdeepest' => exact .error (hfound.trans hfound') (by omega)

private theorem counts_reading (h : ∀ w w', step w = .ok w' → w.found <:+ w'.found) (room : Nat) :
    Counts room step (reading step) := by
  intro d hd
  rw [reading]
  cases hstep : step d.walk with
  | ok w => exact .ok (h _ _ hstep) (by omega)
  | error fault => exact .error (List.suffix_refl _) (Nat.le_max_left _ _)

private theorem counts_skip (n room : Nat) : Counts room (Walk.skip n) (reading (Walk.skip n)) := by
  refine counts_reading (fun w w' h => ?_) room
  rw [Walk.skip] at h
  split at h
  · cases h
    exact List.suffix_refl _
  · cases h

private theorem counts_slot (kind : SymbolForm) (room : Nat) :
    Counts room (Walk.slot kind) (reading (Walk.slot kind)) := by
  refine counts_reading (fun w w' h => ?_) room
  rw [Walk.slot] at h
  split at h
  · cases h
    exact List.suffix_cons _ _
  · cases h

private theorem counts_failing (fault : Fault) (room : Nat) :
    Counts room (fun _ => .error fault) (failing fault) :=
  fun _ _ => .error (List.suffix_refl _) (Nat.le_max_left _ _)

private theorem counts_andThen (hfirst : Counts room first first')
    (hsecond : Counts room second second') :
    Counts room (Walk.andThen first second) (andThen first' second') := by
  intro d hd
  have h := hfirst d hd
  rw [Walk.andThen, andThen]
  generalize first d.walk = result at h ⊢
  generalize first' d = counted' at h ⊢
  cases h with
  | @ok w deepest hfound hdeepest =>
    have hnext := hsecond ⟨w, d.depth, deepest⟩ hd
    exact hnext.behind rfl hfound hdeepest
  | error hfound hdeepest => exact .error hfound hdeepest

private theorem counts_withNumber (width : Nat) {next : Nat → Walk.Step} {next' : Nat → Step}
    (h : ∀ n, Counts room (next n) (next' n)) :
    Counts room (Walk.withNumber width next) (withNumber width next') := by
  intro d hd
  rw [Walk.withNumber, withNumber]
  cases d.walk.reader.number width with
  | ok read =>
    have hdeepest : max d.deepest d.depth ≤ max d.deepest depthLimit := by omega
    have hnext := h read.1 (d.reach { d.walk with reader := read.2 }) hd
    exact hnext.behind rfl (List.suffix_refl _) hdeepest
  | error fault => exact .error (List.suffix_refl _) (Nat.le_max_left _ _)

private theorem counts_times (h : Counts room part part') (n : Nat) :
    Counts room (Walk.times part n) (times part' n) := by
  induction n with
  | zero => exact fun d _ => .ok (List.suffix_refl _) (Nat.le_max_left _ _)
  | succ n ih => exact counts_andThen h ih

private theorem counts_counted (h : Counts room part part') :
    Counts room (Walk.counted part) (counted part') :=
  counts_withNumber 2 (counts_times h)

private theorem counts_within (h : Counts room part part') :
    Counts (room + 1) part (within part') := by
  intro d hd
  have hlimit : ¬ depthLimit < d.depth + 1 := by omega
  have hstart : max (max d.deepest (d.depth + 1)) depthLimit ≤ max d.deepest depthLimit := by omega
  have hinner := h ⟨d.walk, d.depth + 1, max d.deepest (d.depth + 1)⟩
    (show d.depth + 1 + room = depthLimit by omega)
  rw [within, andThen, enter]
  simp only [if_neg hlimit, reach]
  rw [andThen]
  dsimp only at hinner
  generalize part d.walk = result at hinner ⊢
  generalize part' _ = counted' at hinner ⊢
  cases hinner with
  | ok hfound hdeepest => exact .ok hfound (Nat.le_trans hdeepest hstart)
  | error hfound hdeepest => exact .error hfound (Nat.le_trans hdeepest hstart)

private theorem counts_within_tooDeep (part' : Step) : Counts 0 Walk.tooDeep (within part') := by
  intro d hd
  have hlimit : depthLimit < d.depth + 1 := by omega
  rw [within, andThen, enter]
  simp only [if_pos hlimit]
  exact .error (List.suffix_refl _) (Nat.le_max_left _ _)

private theorem counts_tooDeep_andThen (h : Counts room Walk.tooDeep first') (second' : Step) :
    Counts room Walk.tooDeep (andThen first' second') := by
  intro d hd
  have hfirst := h d hd
  rw [andThen]
  generalize hresult : Walk.tooDeep d.walk = result at hfirst ⊢
  generalize first' d = counted' at hfirst ⊢
  cases hfirst with
  | ok => cases hresult
  | error hfound hdeepest => exact .error hfound hdeepest

private theorem counts_annotationOf {value : Walk.Step} {value' : Step}
    (h : Counts room value value') :
    Counts (room + 1) (Walk.annotationOf value) (annotationOf value') :=
  counts_within (counts_andThen (counts_slot _ _)
    (counts_counted (counts_andThen (counts_skip 2 _) h)))

private theorem counts_elementValue (h : room < fuel) :
    Counts room (Walk.elementValue room) (elementValue fuel) := by
  induction room generalizing fuel with
  | zero =>
    obtain ⟨fuel, rfl⟩ := Nat.exists_eq_succ_of_ne_zero (Nat.ne_of_gt h)
    rw [Walk.elementValue, elementValue]
    refine counts_withNumber 1 fun tag => ?_
    split_ifs
    · exact counts_skip 2 0
    · exact counts_andThen (counts_slot _ _) (counts_skip 2 0)
    · exact counts_slot _ _
    · exact counts_within_tooDeep _
    · exact counts_within_tooDeep _
    · exact counts_failing _ _
  | succ room ih =>
    obtain ⟨fuel, rfl⟩ := Nat.exists_eq_add_of_lt (Nat.zero_lt_of_lt h)
    rw [Nat.zero_add] at h ⊢
    rw [Walk.elementValue, elementValue]
    refine counts_withNumber 1 fun tag => ?_
    split_ifs
    · exact counts_skip 2 _
    · exact counts_andThen (counts_slot _ _) (counts_skip 2 _)
    · exact counts_slot _ _
    · exact counts_annotationOf (ih (Nat.lt_of_succ_lt_succ h))
    · exact counts_within (counts_counted (ih (Nat.lt_of_succ_lt_succ h)))
    · exact counts_failing _ _

private theorem counts_annotations (h : room < fuel) :
    Counts room (Walk.annotations room) (annotations fuel) := by
  cases room with
  | zero => exact counts_counted (counts_within_tooDeep _)
  | succ room =>
    exact counts_counted (counts_annotationOf (counts_elementValue (Nat.lt_of_succ_lt h)))

private theorem counts_parameterAnnotations (h : room < fuel) :
    Counts room (Walk.parameterAnnotations room) (parameterAnnotations fuel) :=
  counts_withNumber 1 (counts_times (counts_annotations h))

private theorem counts_forgiving {content : Walk.Step} {content' : Step}
    (h : Counts room content content')
    (length : Nat) : Counts room (Walk.forgiving length content) (forgiving length content') := by
  intro d hd
  have hinner := h d hd
  rw [Walk.forgiving, forgiving]
  -- the slots found on the way are in front of those from before
  have hcut : ∀ {found : List Slot}, d.walk.found <:+ found →
      found.drop (found.length - d.walk.found.length) = d.walk.found :=
    fun hfound => (List.suffix_iff_eq_drop.mp hfound).symm
  generalize content d.walk = result at hinner ⊢
  generalize content' d = counted' at hinner ⊢
  cases hinner with
  | ok hfound hdeepest =>
    dsimp only
    split_ifs
    · exact .ok hfound hdeepest
    · cases d.walk.reader.skip length with
      | ok r =>
        simp only [hcut hfound]
        exact .ok (List.suffix_refl _) hdeepest
      | error fault => exact .error hfound hdeepest
  | error hfound hdeepest =>
    dsimp only
    cases d.walk.reader.skip length with
    | ok r =>
      simp only [hcut hfound]
      exact .ok (List.suffix_refl _) hdeepest
    | error fault => exact .error hfound hdeepest

private theorem counts_nested (pool : Pool) {inner : Bytes → Nat → Walk.Step}
    {inner' : Bytes → Nat → Step}
    (h : ∀ name length, Counts room (inner name length) (inner' name length)) :
    Counts room (Walk.nested pool inner) (nested pool inner') := by
  refine counts_counted (counts_withNumber 2 fun name => counts_withNumber 4 fun length => ?_)
  intro d hd
  dsimp only
  cases pool.text (UInt16.ofNat name) with
  | ok text => exact h text length d hd
  | error fault => exact .error (List.suffix_refl _) (Nat.le_max_left _ _)

private theorem counts_code {attributes : Walk.Step} {attributes' : Step}
    (h : Counts room attributes attributes') : Counts room (Walk.code attributes) (code attributes') :=
  counts_andThen (counts_skip 4 _) (counts_withNumber 4 fun length =>
    counts_andThen (counts_skip length _) (counts_withNumber 2 fun handlers =>
      counts_andThen (counts_skip (handlers * 8) _) h))

private theorem counts_content (pool : Pool) (form : ContentForm) (length : Nat)
    {inner : Bytes → Nat → Walk.Step} {inner' : Bytes → Nat → Step}
    (h : ∀ name length, Counts room (inner name length) (inner' name length)) (hfuel : room < fuel) :
    Counts room (Walk.content pool form length room inner) (content pool form length fuel inner') := by
  cases form with
  | signature => exact counts_slot _ _
  | code => exact counts_code (counts_nested pool h)
  | localVariables kind =>
    exact counts_counted (counts_andThen (counts_skip 6 _)
      (counts_andThen (counts_slot kind _) (counts_skip 2 _)))
  | record =>
    exact counts_counted (counts_andThen (counts_skip 2 _)
      (counts_andThen (counts_slot _ _) (counts_nested pool h)))
  | annotations => exact counts_forgiving (counts_annotations hfuel) length
  | parameterAnnotations => exact counts_forgiving (counts_parameterAnnotations hfuel) length
  | elementValue => exact counts_forgiving (counts_elementValue hfuel) length

private theorem counts_endsAt (stop : Nat) (name : String) (length room : Nat) :
    Counts room (fun w => if w.reader.position = stop then .ok w
      else .error (.malformed (.attributeLength name length))) (endsAt stop name length) := by
  intro d hd
  rw [endsAt]
  dsimp only
  split_ifs
  · exact .ok (List.suffix_refl _) (Nat.le_max_left _ _)
  · exact .error (List.suffix_refl _) (Nat.le_max_left _ _)

private theorem counts_ofAttribute (pool : Pool) (name : Bytes) (length : Nat) (h : room < fuel) :
    Counts room (Walk.ofAttribute pool room name length) (ofAttribute pool fuel name length) := by
  induction room generalizing fuel name length with
  | zero =>
    obtain ⟨fuel, rfl⟩ := Nat.exists_eq_succ_of_ne_zero (Nat.ne_of_gt h)
    intro d hd
    rw [Walk.ofAttribute, ofAttribute]
    dsimp only
    cases d.walk.reader.skip length with
    | error fault => exact .error (List.suffix_refl _) (Nat.le_max_left _ _)
    | ok after =>
      dsimp only
      cases ContentForm.ofName? name with
      | none => exact counts_within_tooDeep _ d hd
      | some named => exact counts_tooDeep_andThen (counts_within_tooDeep _) _ d hd
  | succ room ih =>
    obtain ⟨fuel, rfl⟩ := Nat.exists_eq_add_of_lt (Nat.zero_lt_of_lt h)
    rw [Nat.zero_add] at h ⊢
    have hfuel : room < fuel := Nat.lt_of_succ_lt_succ h
    intro d hd
    rw [Walk.ofAttribute, ofAttribute]
    dsimp only
    cases hskip : d.walk.reader.skip length with
    | error fault => exact .error (List.suffix_refl _) (Nat.le_max_left _ _)
    | ok after =>
      dsimp only
      cases ContentForm.ofName? name with
      | none =>
        have hinner := counts_within (counts_skip length room) d hd
        rw [Walk.skip, hskip] at hinner
        exact hinner
      | some named =>
        have hinner := counts_andThen (counts_within (counts_content pool named.2 length
          (fun name length => ih name length hfuel) hfuel))
          (counts_endsAt after.position named.1 length _) d hd
        rw [Walk.andThen] at hinner
        dsimp only
        generalize Walk.content pool named.2 length room _ d.walk = result at hinner ⊢
        cases result <;> exact hinner

end Following

end Descent

namespace Attribute

open Walk (depthLimit)

variable {p : Pool} {a a' : Attribute} {slots : List Slot} {warnings fuel : Nat}

private theorem run_cases (p : Pool) (a : Attribute) (hfuel : depthLimit < fuel) :
    (∃ d, Descent.run p fuel a = .ok d ∧ d.depth = 0 ∧ d.deepest ≤ depthLimit ∧
      a.slots p = .ok (d.walk.found.reverse, d.walk.warnings)) ∨
    ∃ fault, Descent.run p fuel a = .error fault ∧ a.slots p = .error fault := by
  rw [Descent.run, Attribute.slots]
  cases p.text a.name with
  | error fault => exact .inr ⟨fault, rfl, rfl⟩
  | ok name =>
    have hfollows := Descent.counts_ofAttribute p name a.content.size hfuel (.start a) rfl
    simp only [bind, Except.bind, Descent.start] at hfollows ⊢
    generalize Walk.ofAttribute p depthLimit name a.content.size _ = result at hfollows ⊢
    generalize Descent.ofAttribute p fuel name a.content.size _ = counted at hfollows ⊢
    cases hfollows with
    | ok _ hdeepest => exact .inl ⟨_, rfl, rfl, hdeepest, rfl⟩
    | error => exact .inr ⟨_, rfl, rfl⟩

def overwritten (edits : List (Slot × UInt16)) (a : Attribute) : Except Fault Attribute :=
  edits.foldlM (fun a edit => a.setWordAt edit.1.offset edit.2) a

private theorem overwritten_sameBut (hinside : ∀ s ∈ slots, s.offset + 2 ≤ a.content.size)
    (hsame : SameBut slots a a') {edits : List (Slot × UInt16)} (hedits : ∀ e ∈ edits, e.1 ∈ slots) :
    ∃ a'', overwritten edits a' = .ok a'' ∧ SameBut slots a a'' := by
  induction edits generalizing a' with
  | nil => exact ⟨a', rfl, hsame⟩
  | cons e edits ih =>
    have he : e.1 ∈ slots := hedits e List.mem_cons_self
    obtain ⟨word, hword⟩ := wordAt_ok_iff.mpr (hsame.size.symm ▸ hinside e.1 he)
    have hset : a'.setWordAt e.1.offset e.2 = .ok (a'.place e.1.offset e.2) := by
      rw [setWordAt, hword]
    rw [overwritten, List.foldlM_cons, hset]
    exact ih (hsame.place he e.2) fun e he => hedits e (List.mem_cons_of_mem _ he)

/-- The slots of an attribute stand in its content one behind the other, without a common byte. The
walk that finds them was never deeper than the limit and has come up again. Whatever is written to
any of the slots, the attribute keeps them. -/
theorem slots_kept_apart (h : a.slots p = .ok (slots, warnings)) :
    (slots.Pairwise fun s t => s.offset + 2 ≤ t.offset) ∧
      (∀ s ∈ slots, s.offset + 2 ≤ a.content.size) ∧
      (∀ fuel, depthLimit < fuel → ∃ d, Descent.run p fuel a = .ok d ∧
        d.depth = (Descent.start a).depth ∧ d.deepest ≤ depthLimit ∧
        d.walk.found.reverse = slots ∧ d.walk.warnings = warnings) ∧
      ∀ edits, (∀ e ∈ edits, e.1 ∈ slots) → ∃ a', overwritten edits a = .ok a' ∧
        a'.slots p = .ok (slots, warnings) := by
  obtain ⟨hinside, hapart⟩ := slots_spaced h
  refine ⟨hapart, hinside, fun fuel hfuel => ?_, fun edits hedits => ?_⟩
  · obtain ⟨d, hd, hdepth, hdeepest, hslots⟩ | ⟨fault, -, hfault⟩ := run_cases p a hfuel
    · cases h.symm.trans hslots
      exact ⟨d, hd, hdepth, hdeepest, rfl, rfl⟩
    · cases h.symm.trans hfault
  · obtain ⟨a', ha', hsame⟩ := overwritten_sameBut hinside (SameBut.refl slots a) hedits
    exact ⟨a', ha', slots_of_sameBut (fun ht => ht) h hsame⟩

/-- Two annotations without values, the second of a type that is then replaced. -/
theorem slots_kept_apart_annotations :
    let p : Pool := ⟨#[.unusable, .utf8 (Bytes.ascii "RuntimeVisibleAnnotations")], ∅⟩
    let a : Attribute := ⟨1, #[0, 2, 0, 5, 0, 0, 0, 6, 0, 0]⟩
    a.slots p = .ok ([⟨2, .descriptor⟩, ⟨6, .descriptor⟩], 0) ∧
      ∃ a', overwritten [(⟨6, .descriptor⟩, 9)] a = .ok a' ∧
        a'.slots p = .ok ([⟨2, .descriptor⟩, ⟨6, .descriptor⟩], 0) := by
  intro p a
  have h : a.slots p = .ok ([⟨2, .descriptor⟩, ⟨6, .descriptor⟩], 0) := by decide +kernel
  obtain ⟨-, -, -, hkept⟩ := slots_kept_apart h
  exact ⟨h, hkept _ (by decide)⟩

end Attribute

end Retarget
