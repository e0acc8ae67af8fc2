import Retarget.Proofs.ClassFile.OwnName
import Retarget.Proofs.Pass.Embedded
import Retarget.Proofs.Pass.Itself
import Retarget.Proofs.Pass.Stocked

/-!
A pass over the output of another one. Stable new names leave nothing to rename
in what was renamed, so an empty directory becomes a copy of that output, if the
pass succeeds. For that each file has to declare the name that its place stands
for, which the class of an accessor does no more once it was renamed.
-/

set_option autoImplicit false

namespace Retarget.Pass

open FileTree

variable {t t' t₀ t₁ u : FileTree} {input output third relative relative' : Path}
  {newNames : Renaming} {verify verify' : Bool} {o d names : Place} {config : PassConfig}
  {changes : Changes} {answer : Report × Nat} {w w' : Work} {content : Bytes}
  {steps : List (FileTree × Act)}

section Twice

private theorem Yields.again (hmap : Stable newNames.getText?)
    (h : Yields verify newNames t input relative w)
    (hdata : t'.contents (ClassPath.pathOf output w.name) = .ok w.bytes)
    (hname : relative'.binaryName = w.name)
    (h' : Yields verify' newNames t' output relative' w') :
    w'.file = w.file ∧ w'.tally.renamed = 0 := by
  obtain ⟨-, -, -, hparsed, -, hrenamed, hwritten⟩ := h
  obtain ⟨hname', -, hdata', hparsed', -, hrenamed', hwritten'⟩ := h'
  rw [hname] at hname'
  rw [hname', hdata] at hdata'
  cases hdata'
  cases (ClassFile.ofBytes_of_rename hparsed hrenamed hwritten).symm.trans hparsed'
  obtain ⟨again, hagain, hzero⟩ :=
    ClassFile.rename_again hmap (ClassFile.registered_of_ofBytes hparsed) hrenamed
  cases hagain.symm.trans hrenamed'
  have hbytes : w'.bytes = w.bytes := Except.ok.inj (hwritten'.symm.trans hwritten)
  exact ⟨by rw [Work.file, Work.file, hname', hbytes], hzero⟩

private theorem Yields.again_iff (hmap : Stable newNames.getText?)
    (h : Yields verify newNames t input relative w)
    (hdata : t'.contents (ClassPath.pathOf output w.name) = .ok w.bytes)
    (hname : relative'.binaryName = w.name) :
    (∃ w', Yields true newNames t' output relative' w') ↔ ClassFile.Declares w.bytes w.name := by
  obtain ⟨-, hwell, -, hparsed, -, hrenamed, hwritten⟩ := h
  have hread := ClassFile.ofBytes_of_rename hparsed hrenamed hwritten
  constructor
  · rintro ⟨w', hname', -, hdata', hparsed', hchecked', -, -⟩
    rw [hname] at hname'
    rw [hname', hdata] at hdata'
    cases hdata'
    rw [hname'] at hchecked'
    exact ⟨_, hparsed', hchecked' rfl⟩
  · rintro ⟨c, hc, hcheck⟩
    cases hread.symm.trans hc
    obtain ⟨again, hagain, -⟩ :=
      ClassFile.rename_again hmap (ClassFile.registered_of_ofBytes hparsed) hrenamed
    exact ⟨⟨w.name, again, w.bytes⟩, hname.symm, hwell, hdata, hread, fun _ => hcheck, hagain,
      hwritten⟩

private theorem renamed_collect {works : List Work} (h : ∀ w ∈ works, w.tally.renamed = 0)
    {told : List String} {tally : Tally} :
    (collect works told tally).2.renamed = tally.renamed := by
  induction works generalizing told tally with
  | nil => rfl
  | cons w works ih =>
    obtain ⟨hfirst, hrest⟩ := List.forall_mem_cons.mp h
    rw [collect, List.foldl_cons, ← collect, ih hrest, Tally.add, hfirst, Nat.add_zero]

private theorem filled_iff {works : List Work} {left : Nat} (ht : t.Rooted)
    (hopen : t.Opens linkLimit [] output.segments o left) :
    Filled t output works t' ↔ Stores t o (works.map Work.file) t' := by
  constructor
  · intro h
    cases h with
    | nothing => exact (Stores.nil_iff ht).mpr rfl
    | stored hne hmakes hstores =>
      obtain ⟨rfl, rfl, -⟩ := (Makes.of_opens hopen).unique hmakes
      exact hstores
  · intro h
    by_cases hnil : works = []
    · subst hnil
      rw [(Stores.nil_iff ht).mp h]
      exact .nothing
    · exact .stored hnil (.of_opens hopen) h

end Twice

section Second

/-- A file below the output is what renaming made of a class, under the name of the class. -/
def Made (newNames : Renaming) (output : Path) (names : Place) (content : Bytes) : Prop :=
  ∃ verify t input relative w, Yields verify newNames t input relative w ∧
    w.file = (names, content) ∧ Allowed output w

/-- An output that was filled from some input and found again, and a third directory, which is
empty. -/
structure Relay (newNames : Renaming) (t : FileTree) (output third : Path) (o d : Place) : Prop where
  rooted : t.Rooted
  found : t.lookup true output = .ok (o, .directory)
  foundThird : t.lookup true third = .ok (d, .directory)
  stocked : t.Stocked o (Made newNames output)
  bare : t.Bare d
  ne : d ≠ o

namespace Relay

private theorem directory (h : Relay newNames t output third o d) :
    t.at? o = some .directory ∧ t.at? d = some .directory := by
  obtain ⟨_, ho⟩ := opens_of_lookup h.found
  obtain ⟨_, hd⟩ := opens_of_lookup h.foundThird
  exact ⟨h.rooted.directory_of_opens ho rfl, h.rooted.directory_of_opens hd rfl⟩

private theorem settled (h : Relay newNames t output third o d) : Settled t output third where
  rooted := h.rooted
  linklessInput b hb := by
    rw [hb.unique (reaches_of_lookup h.found)]
    exact h.stocked.linkless
  linklessOutput b hb := by
    rw [hb.unique (reaches_of_lookup h.foundThird)]
    exact (h.bare.stocked (P := fun _ _ => True) h.directory.2).linkless
  apart i b hi hb := by
    rw [hi.unique (reaches_of_lookup h.found), hb.unique (reaches_of_lookup h.foundThird)]
    constructor
    · rintro ⟨names, rfl⟩
      have hnames : names ≠ [] := by
        rintro rfl
        exact h.ne (List.append_nil o)
      obtain ⟨more, content, hfile⟩ := h.stocked.directory hnames h.directory.2
      by_cases hmore : more = []
      · rw [hmore, List.append_nil, h.directory.2] at hfile
        cases hfile
      · rw [h.bare more hmore] at hfile
        cases hfile
    · rintro ⟨names, rfl⟩
      have hnames : names ≠ [] := by
        rintro rfl
        exact h.ne (List.append_nil d).symm
      cases (h.bare names hnames).symm.trans h.directory.1

private theorem contents (h : Relay newNames t output third o d) (houtput : output.isEmpty = false)
    (hfile : t.at? (o ++ names) = some (.file content)) :
    ∃ verify u input relative w, Yields verify newNames u input relative w ∧
      w.file = (names, content) ∧ Allowed output w ∧
      t.contents (ClassPath.pathOf output w.name) = .ok w.bytes := by
  obtain ⟨verify, u, input, relative, w, hyields, heq, hallowed⟩ := h.stocked.file hfile
  refine ⟨verify, u, input, relative, w, hyields, heq, hallowed, ?_⟩
  obtain ⟨rfl, rfl⟩ := Prod.mk.inj heq
  obtain ⟨left, hopen⟩ := opens_of_lookup h.found
  apply (h.settled.contents_ok_iff houtput hyields.wellFormed).mpr
  refine ⟨?_, hallowed.1, hallowed.2, o, left, hopen, fileAt?_eq_some_iff.mpr hfile⟩
  obtain ⟨-, -, -, hparsed, -, hrenamed, hwritten⟩ := hyields
  exact ClassFile.isEmpty_of_ofBytes (ClassFile.ofBytes_of_rename hparsed hrenamed hwritten)

private theorem emptyOutput (h : Relay newNames t output third o d) :
    emptyOutput third t = .ok () t := by
  have hbelow : t.below d = [] := by
    apply List.eq_nil_iff_forall_not_mem.mpr
    rintro ⟨names, node⟩ hmem
    obtain ⟨hne, hat⟩ := mem_below.mp hmem
    cases (h.bare names hne).symm.trans hat
  have hclear : t.clear d = t := by
    apply (h.rooted.clear d).ext h.rooted
    intro q
    rw [at?_clear]
    split_ifs with hq
    · obtain ⟨⟨names, rfl⟩, hne⟩ := hq
      exact (h.bare names fun hnil => hne (by rw [hnil, List.append_nil])).symm
    · rfl
  have hchildren : t.children third = [] := by
    rw [children, h.foundThird]
    simp only [hbelow, List.filter_nil]
  have hclean : t.clean third = .ok t := by
    rw [clean, h.foundThird]
    simp only [hclear]
  rw [Pass.emptyOutput, hchildren, hclean]
  rfl

private theorem exists_plan (h : Relay newNames t output third o d)
    (houtput : output.isEmpty = false) :
    ∃ plan, Plan.make t output .empty = .ok plan := by
  have hshort : overlong? output ((t.below o).filter fun entry => entry.2 = .directory) = none := by
    rw [overlong?, List.find?_eq_none]
    intro path hpath
    obtain ⟨⟨names, node⟩, hentry, rfl⟩ := List.mem_map.mp hpath
    obtain ⟨hmem, hnode⟩ := List.mem_filter.mp hentry
    obtain ⟨hne, hat⟩ := mem_below.mp hmem
    have hdirectory : node = .directory := of_decide_eq_true hnode
    subst hdirectory
    obtain ⟨more, content, hfile⟩ := h.stocked.directory hne hat
    have hmore : more ≠ [] := by
      rintro rfl
      rw [List.append_nil, hat] at hfile
      cases hfile
    rw [List.append_assoc] at hfile
    have hnames := h.rooted.isName_of_mem hfile
    obtain ⟨_, _, _, _, w, hyields, heq, ⟨⟨-, hlong⟩, -⟩, -⟩ := h.contents houtput hfile
    obtain ⟨segments, hfront, hwhole⟩ := Path.join_append output
      (Path.isAbsolute_of_names fun s hs => hnames s (List.mem_append_left more hs))
      (Path.isAbsolute_of_names hnames)
    rw [ClassPath.pathOf_eq output hyields.wellFormed, (Prod.mk.inj heq).1, hwhole, isOverlong,
      decide_eq_false_iff_not] at hlong
    rw [hfront, isOverlong, decide_eq_true_eq]
    have hsize := size_join_le (segments ++ names) hmore
    intro hover
    exact hlong (Nat.lt_of_lt_of_le hover hsize)
  have hplace : Plan.ofPlace t output o = .ok ((t.below o).map Plan.ofEntry) := by
    simp only [Plan.ofPlace, hshort]
  have htree : ∃ choices, Plan.ofTreeIn t [] output = .ok choices := by
    rw [Plan.ofTreeIn, ← FileTree.lookup, ← FileTree.lookup]
    rcases lookup_unfollowed h.found with hlookup | ⟨place, target, hlookup⟩
    · rw [hlookup]
      exact ⟨_, hplace⟩
    · rw [hlookup]
      simp only [h.found, hplace]
      exact ⟨_, rfl⟩
  obtain ⟨choices, hchoices⟩ := htree
  exact ⟨⟨choices, true⟩, by rw [Plan.make, Plan.makeIn, hchoices]; rfl⟩

private theorem mem_classes {plan : Plan} (h : Relay newNames t output third o d)
    (houtput : output.isEmpty = false) (hplan : Plan.make t output .empty = .ok plan) :
    ∀ r, r ∈ plan.classes ↔ ∃ names content, r = ⟨names⟩ ∧
      t.at? (o ++ names) = some (.file content) := by
  obtain ⟨i, hi, -, hclasses⟩ := classes_full h.rooted rfl hplan
  rw [hi.unique (reaches_of_lookup h.found)] at hclasses
  intro r
  rw [hclasses]
  constructor
  · rintro ⟨names, rfl, hclass⟩
    obtain ⟨content, hclass⟩ := Option.ne_none_iff_exists'.mp hclass
    exact ⟨names, content, rfl, (classIn?_eq_some_iff.mp hclass).2⟩
  · rintro ⟨names, content, rfl, hfile⟩
    obtain ⟨_, _, _, _, w, hyields, heq, -⟩ := h.contents houtput hfile
    have htidy := tidy_placeOf hyields.wellFormed
    rw [(Prod.mk.inj heq).1] at htidy
    refine ⟨names, rfl, ?_⟩
    rw [classIn?_eq_some_iff.mpr ⟨htidy.extension, hfile⟩]
    exact Option.some_ne_none content

private theorem processed_iff (h : Relay newNames t output third o d)
    (houtput : output.isEmpty = false)
    (hmap : Stable newNames.getText?) (hfile : t.at? (o ++ names) = some (.file content)) :
    ((∃ w, Yields true newNames t output ⟨names⟩ w ∧ Allowed third w) ↔
      Sayable (third.join ⟨names⟩) ∧ ClassFile.Declares content (nameOf names)) ∧
    ∀ w, Yields true newNames t output ⟨names⟩ w →
      w.file = (names, content) ∧ w.tally.renamed = 0 := by
  obtain ⟨_, _, _, _, w, hyields, heq, hallowed, hdata⟩ := h.contents houtput hfile
  obtain ⟨rfl, rfl⟩ := Prod.mk.inj heq
  have hname : nameOf (ClassPath.placeOf w.name) = w.name :=
    (ClassPath.binaryName_placeOf hyields.wellFormed).2
  have hagain : ∀ w', Yields true newNames t output ⟨ClassPath.placeOf w.name⟩ w' →
      w'.file = w.file ∧ w'.tally.renamed = 0 :=
    fun w' h' => hyields.again hmap hdata hname h'
  refine ⟨?_, hagain⟩
  rw [hname, ← ClassPath.pathOf_eq third hyields.wellFormed, ← hyields.again_iff hmap hdata hname]
  constructor
  · rintro ⟨w', hw', hsay, -⟩
    rw [hw'.name_eq.trans hname] at hsay
    exact ⟨hsay, w', hw'⟩
  · rintro ⟨hsay, w', hw'⟩
    refine ⟨w', hw', ?_⟩
    rw [Allowed, hw'.name_eq.trans hname]
    exact ⟨hsay, hallowed.2⟩

private theorem mem_works {plan : Plan} {works : List Work} (h : Relay newNames t output third o d)
    (houtput : output.isEmpty = false) (hmap : Stable newNames.getText?)
    (hplan : Plan.make t output .empty = .ok plan)
    (hworks : List.Forall₂ (fun r w => Yields true newNames t output r w ∧ Allowed third w)
      plan.classes works) :
    (∀ file, file ∈ works.map Work.file ↔ t.at? (o ++ file.1) = some (.file file.2)) ∧
    ∀ w ∈ works, w.tally.renamed = 0 := by
  have hmem := h.mem_classes houtput hplan
  have hwork : ∀ w ∈ works, t.at? (o ++ w.file.1) = some (.file w.file.2) ∧
      w.tally.renamed = 0 := by
    intro w hw
    obtain ⟨r, hr, hyields, -⟩ := exists_of_forall₂ hworks hw
    obtain ⟨names, content, rfl, hfile⟩ := (hmem r).mp hr
    obtain ⟨heq, hzero⟩ := (h.processed_iff houtput hmap hfile).2 w hyields
    rw [heq]
    exact ⟨hfile, hzero⟩
  refine ⟨fun file => ⟨fun hmem' => ?_, fun hfile => ?_⟩, fun w hw => (hwork w hw).2⟩
  · obtain ⟨w, hw, rfl⟩ := List.mem_map.mp hmem'
    exact (hwork w hw).1
  · obtain ⟨names, content⟩ := file
    obtain ⟨w, hw, hyields, -⟩ := exists_of_forall₂ hworks.flip ((hmem ⟨names⟩).mpr ⟨_, _, rfl, hfile⟩)
    rw [← ((h.processed_iff houtput hmap hfile).2 w hyields).1]
    exact List.mem_map_of_mem hw

private theorem of_run (h : Relay newNames t output third o d) (hmap : Stable newNames.getText?)
    (hclean : config.clean = true) (hverify : config.verify = true)
    (hrun : run config newNames output .empty third t = .ok answer t') :
    (∀ names content, t.at? (o ++ names) = some (.file content) →
      Sayable (third.join ⟨names⟩) ∧ ClassFile.Declares content (nameOf names)) ∧
    answer.1.renamed = 0 ∧ ∀ names, t'.at? (d ++ names) = t.at? (o ++ names) := by
  rw [run_eq_runIn] at hrun
  obtain ⟨hcheck, plan, t₁, t₂, deleted, found, hplan, hemptied, hdeleted, hprocessed, rfl⟩ :=
    runIn_ok_iff.mp hrun
  obtain ⟨houtput, hthird⟩ := isEmpty_of_checkApart hcheck
  rw [(Plan.ofTreeIn_of_makeIn rfl hplan).1, hclean, Bool.true_and, if_pos rfl] at hemptied
  cases h.emptyOutput.symm.trans hemptied
  rw [removed_full rfl hplan] at hdeleted
  cases hdeleted
  obtain ⟨works, hworks, rfl, hfilled⟩ := (processClasses_ok_iff h.settled houtput hthird
    (ClassPath.grown_new output config.verify) rfl hverify).mp hprocessed
  obtain ⟨hfiles, hzero⟩ := h.mem_works houtput hmap hplan hworks
  refine ⟨fun names content hfile => ?_, renamed_collect hzero, ?_⟩
  · have hr := (h.mem_classes houtput hplan ⟨names⟩).mpr ⟨names, content, rfl, hfile⟩
    obtain ⟨w, -, hw⟩ := exists_of_forall₂ hworks.flip hr
    exact (h.processed_iff houtput hmap hfile).1.mp ⟨w, hw⟩
  · obtain ⟨left, hopen⟩ := opens_of_lookup h.foundThird
    exact h.stocked.copied h.rooted h.directory.1 h.directory.2 h.bare
      ((filled_iff h.rooted hopen).mp hfilled) hfiles

private theorem exists_run (h : Relay newNames t output third o d) (hmap : Stable newNames.getText?)
    (hclean : config.clean = true) (hverify : config.verify = true)
    (hcheck : checkApart t output third = .ok ())
    (hall : ∀ names content, t.at? (o ++ names) = some (.file content) →
      Sayable (third.join ⟨names⟩) ∧ ClassFile.Declares content (nameOf names)) :
    ∃ answer t', run config newNames output .empty third t = .ok answer t' := by
  obtain ⟨houtput, hthird⟩ := isEmpty_of_checkApart hcheck
  obtain ⟨plan, hplan⟩ := h.exists_plan houtput
  obtain ⟨works, hworks⟩ : ∃ works, List.Forall₂ (fun r w =>
      Yields true newNames t output r w ∧ Allowed third w) plan.classes works := by
    apply exists_forall₂
    intro r hr
    obtain ⟨names, content, rfl, hfile⟩ := (h.mem_classes houtput hplan r).mp hr
    exact (h.processed_iff houtput hmap hfile).1.mpr (hall names content hfile)
  obtain ⟨hfiles, -⟩ := h.mem_works houtput hmap hplan hworks
  obtain ⟨left, hopen⟩ := opens_of_lookup h.foundThird
  obtain ⟨t', hstores⟩ : ∃ t', Stores t d (works.map Work.file) t' := by
    apply exists_copy h.rooted h.rooted h.directory.2 h.bare fun file hfile => (hfiles file).mp hfile
    · intro file hfile hnil
      obtain ⟨w, -, rfl⟩ := List.mem_map.mp hfile
      exact append_singleton_ne_nil _ _ hnil
    · intro file hfile
      obtain ⟨w, hw, rfl⟩ := List.mem_map.mp hfile
      obtain ⟨-, -, -, -, hshort⟩ := exists_of_forall₂ hworks hw
      exact hshort
  have hfilled : Filled t third works t' := (filled_iff h.rooted hopen).mpr hstores
  have hprocessed : processClasses newNames third plan.classes [] ⟨0, 0⟩
      (ClassPath.new output config.verify) t = .ok (collect works [] ⟨0, 0⟩) t' :=
    (processClasses_ok_iff h.settled houtput hthird
      (ClassPath.grown_new output config.verify) rfl hverify).mpr ⟨works, hworks, rfl, hfilled⟩
  rw [run_eq_runIn]
  refine ⟨_, t', runIn_ok_iff.mpr ⟨hcheck, plan, t, t, [], _, hplan, ?_, ?_, hprocessed, rfl⟩⟩
  · rw [(Plan.ofTreeIn_of_makeIn rfl hplan).1, hclean, Bool.true_and, if_pos rfl]
    exact h.emptyOutput
  · rw [removed_full rfl hplan]
    rfl

end Relay

end Second

/-- How a class goes through a course, with what is read and what is written. The class calls itself
by a text that reads as the name that it is processed under. -/
structure Rewriting (newNames : Renaming) (input output : Path) (t t' : FileTree) (name : String)
    extends Handling true newNames input output t t' name where
  c : ClassFile
  c' : ClassFile
  tally : Tally
  text : Bytes
  parsed : ClassFile.ofBytes data = .ok c
  rewritten : c.rename newNames = .ok tally c'
  written : c'.toBytes = .ok bytes
  named : c.Named text
  spelled : ClassFile.Spells text name

private theorem exists_rewriting (h : Course true newNames output t steps t')
    (hstep : (u, Act.store input relative w) ∈ steps) :
    ∃ made : Rewriting newNames input output t t' w.name, made.bytes = w.bytes := by
  obtain ⟨front, rest, rfl⟩ := List.append_of_mem hstep
  obtain ⟨u', hfront, hback⟩ := h.split
  cases hback with
  | step hdoes hrest =>
    cases hdoes with
    | stored hyields hstore =>
      obtain ⟨done, -, -, hread, hbytes⟩ := handling_of_yields hfront hyields hstore hrest
      obtain ⟨-, -, hdata, hparsed, hchecked, hrenamed, hwritten⟩ := hyields
      obtain ⟨text, hnamed, hspells⟩ := ClassFile.checkName_ok_iff.mp (hchecked rfl)
      have hcontents := done.contents
      rw [hread, hdata] at hcontents
      cases hcontents
      rw [← hbytes] at hwritten
      exact ⟨⟨done, _, _, _, text, hparsed, hrenamed, hwritten, hnamed, hspells⟩, hbytes⟩

private theorem Rewriting.declares_iff {name : String}
    (made : Rewriting newNames input output t t' name) :
    ClassFile.Declares made.bytes name ↔
      ClassFile.Spells (ClassFile.exchanged newNames made.text) name :=
  ClassFile.declares_iff made.named made.parsed made.rewritten made.written

end Retarget.Pass

namespace Retarget.Embedding

open FileTree Pass

variable {t t₀ t₁ : FileTree} {input output third : Path} {o d : Place} {libraries : List String}
  {target : String} {e : Embedding} {first : Report × Nat}

/-- After a full pass the files below the output are those of the classes that it processed. A second
pass from there to an empty directory succeeds exactly if its roots are told apart, and each file
can be looked for there and declares the name of its class. If it succeeds, it renames nothing and
makes a copy of the output. A file declares the name exactly if the text that its class called itself
by is exchanged for one that reads as the name: always if it stays as it is, and never if it is that
of an accessor of a library. -/
theorem run_again (he : new libraries target = .ok e) (ht : t.Rooted)
    (hemptied : emptyOutput output t = .ok () t₀)
    (hup : ".." ∈ output.segments → ∃ o, t₀.lookup true output = .ok (o, .directory))
    (hfirst : Pass.run .usual e.newNames input .empty output t = .ok first t₁)
    (ho : t₁.lookup true output = .ok (o, .directory))
    (hd : t₁.lookup true third = .ok (d, .directory)) (hbare : t₁.Bare d) (hne : d ≠ o) :
    (∀ name ∈ first.1.processed, t₁.fileAt? (o ++ ClassPath.placeOf name) ≠ none) ∧
    (∀ names bytes, t₁.fileAt? (o ++ names) = some bytes →
      nameOf names ∈ first.1.processed ∧ ClassPath.placeOf (nameOf names) = names ∧
      ∃ made : Rewriting e.newNames input output t₀ t₁ (nameOf names), made.bytes = bytes ∧
        (ClassFile.Declares bytes (nameOf names) ↔
          ClassFile.Spells (ClassFile.exchanged e.newNames made.text) (nameOf names)) ∧
        (ClassFile.exchanged e.newNames made.text = made.text →
          ClassFile.Declares bytes (nameOf names)) ∧
        ((e.newNames.getText? made.text).isSome = true →
          ¬ ClassFile.Declares bytes (nameOf names)) ∧
        (Settled t input output → ∃ i, t.Reaches [] input.segments i ∧
          t.fileAt? (i ++ names) = some made.data)) ∧
    ((∃ again t₂, Pass.run .usual e.newNames output .empty third t₁ = .ok again t₂) ↔
      checkApart t₁ output third = .ok () ∧
      ∀ names bytes, t₁.fileAt? (o ++ names) = some bytes →
        Sayable (third.join ⟨names⟩) ∧ ClassFile.Declares bytes (nameOf names)) ∧
    ∀ again t₂, Pass.run .usual e.newNames output .empty third t₁ = .ok again t₂ →
      again.1.renamed = 0 ∧ ∀ names, t₂.at? (d ++ names) = t₁.at? (o ++ names) := by
  obtain ⟨ht₁, steps, hcourse, hnames, hstocked⟩ := stocked_of_full ht rfl rfl hemptied hup hfirst
  obtain ⟨hstocked, hfiles⟩ := hstocked o ho
  have hmade : ∀ {names : Place} {bytes : Bytes}, Stored steps input output names bytes →
      Made e.newNames output names bytes := by
    rintro names bytes ⟨u, r, w, hstep, heq, hallowed⟩
    obtain ⟨u', hdoes⟩ := hcourse.does_of_mem hstep
    cases hdoes with
    | stored hyields => exact ⟨_, _, _, _, w, hyields, heq, hallowed⟩
  -- the output of the first pass as the input of the second
  have hrelay : Relay e.newNames t₁ output third o d :=
    ⟨ht₁, ho, hd, ⟨fun hat => hmade (hstocked.file hat), hstocked.directory, hstocked.linkless⟩,
      hbare, hne⟩
  have hmap := stable_newNames he
  refine ⟨hfiles, fun names bytes hfile => ?_, ⟨?_, ?_⟩, fun again t₂ hagain => ?_⟩
  · obtain ⟨u, r, w, hstep, heq, -⟩ := hstocked.file (fileAt?_eq_some_iff.mp hfile)
    obtain ⟨rfl, rfl⟩ := Prod.mk.inj heq
    obtain ⟨made, hbytes⟩ := exists_rewriting hcourse hstep
    have hname : nameOf (ClassPath.placeOf w.name) = w.name :=
      (ClassPath.binaryName_placeOf made.wellFormed).2
    rw [hname]
    refine ⟨hnames.mem_iff.mpr (mem_storedNames.mpr ⟨u, input, r, w, hstep, rfl⟩), rfl, made, hbytes,
      ?_, fun hsame => ?_, fun hnew => ?_, fun hs => ?_⟩
    · rw [← hbytes]
      exact made.declares_iff
    · rw [← hbytes, made.declares_iff, hsame]
      exact made.spelled
    · rw [← hbytes, made.declares_iff]
      exact not_spells_exchanged he hnew made.spelled
    · obtain ⟨i, -, -, hi, -⟩ := handled_of_full ht rfl hfirst
      obtain ⟨hinput, houtput⟩ := isEmpty_of_checkApart (course_of_run hfirst).1
      have hclean : if PassConfig.usual.clean then emptyOutput output t = .ok () t₀ else t₀ = t :=
        hemptied
      exact ⟨i, hi, made.data_of_emptied hs hinput houtput hi hclean⟩
  · rintro ⟨again, t₂, hagain⟩
    refine ⟨(course_of_run hagain).1, fun names bytes hfile => ?_⟩
    exact (hrelay.of_run hmap rfl rfl hagain).1 names bytes (fileAt?_eq_some_iff.mp hfile)
  · rintro ⟨hcheck, hall⟩
    apply hrelay.exists_run hmap rfl rfl hcheck
    intro names bytes hfile
    exact hall names bytes (fileAt?_eq_some_iff.mpr hfile)
  · obtain ⟨-, hzero, hcopy⟩ := hrelay.of_run hmap rfl rfl hagain
    exact ⟨hzero, hcopy⟩

section Sample

def relaySample : FileTree :=
  FileTree.empty |>.set ["in"] .directory
    |>.set ["in", "A.class"] (.file (accessorClass 52))
    |>.set ["out"] .directory
    |>.set ["out", "Old.class"] (.file [])
    |>.set ["third"] .directory

def relayed (s : FileTree) : FileTree :=
  match Pass.run .usual embedding.newNames ⟨["in"]⟩ .empty ⟨["out"]⟩ s with
  | .ok _ t | .error _ t => t

/-- The class is renamed the first time, and copied the second time. -/
theorem run_again_relaySample : ∃ first again t₂,
    Pass.run .usual embedding.newNames ⟨["in"]⟩ .empty ⟨["out"]⟩ relaySample =
      .ok first (relayed relaySample) ∧
    (relayed relaySample).fileAt? ["out", "A.class"] ≠ some (accessorClass 52) ∧
    Pass.run .usual embedding.newNames ⟨["out"]⟩ .empty ⟨["third"]⟩ (relayed relaySample) =
      .ok again t₂ ∧ again.1.renamed = 0 ∧
    ∀ names, t₂.at? (["third"] ++ names) = (relayed relaySample).at? (["out"] ++ names) := by
  have he : new ["a"] "b" = .ok embedding := by decide +kernel
  have hrooted : relaySample.Rooted := .of_all (by decide +kernel)
  have hdone : ((Pass.run .usual embedding.newNames ⟨["in"]⟩ .empty ⟨["out"]⟩).run'
      relaySample).isSome = true := by decide +kernel
  obtain ⟨first, t₁, hfirst⟩ := ok_of_run' hdone
  have htree : t₁ = relayed relaySample := by rw [relayed, hfirst]
  rw [htree] at hfirst
  obtain ⟨-, t₀, -, -, hemptied, -⟩ := handled_of_full hrooted rfl hfirst
  rw [if_pos (show PassConfig.usual.clean = true from rfl)] at hemptied
  -- one evaluation for all that is read from the tree in between
  have hleft : (relayed relaySample).lookup true ⟨["out"]⟩ = .ok (["out"], .directory) ∧
      (relayed relaySample).lookup true ⟨["third"]⟩ = .ok (["third"], .directory) ∧
      (relayed relaySample).below ["third"] = [] ∧
      (relayed relaySample).fileAt? ["out", "A.class"] ≠ some (accessorClass 52) := by
    decide +kernel
  obtain ⟨hout, hthird, hbelow, hchanged⟩ := hleft
  obtain ⟨-, -, -, hagain⟩ := run_again he hrooted hemptied (fun hup => absurd hup (by decide))
    hfirst hout hthird (bare_of_below hbelow) (by decide)
  have hdone' : ((Pass.run .usual embedding.newNames ⟨["out"]⟩ .empty ⟨["third"]⟩).run'
      (relayed relaySample)).isSome = true := by decide +kernel
  obtain ⟨again, t₂, hrun⟩ := ok_of_run' hdone'
  obtain ⟨hzero, hcopy⟩ := hagain again t₂ hrun
  exact ⟨first, again, t₂, hfirst, hchanged, hrun, hzero, hcopy⟩

/-- The accessor of the library itself is stored as the class `b.R$id` in the file of `a.R$id`, which
is no proper input. -/
example : ((Pass.run .usual embedding.newNames ⟨["out"]⟩ .empty ⟨["third"]⟩).run' (relayed
    (relaySample |>.set ["in", "a"] .directory
      |>.set ["in", "a", "R$id.class"] (.file (namedClass "a/R$id"))))).isNone = true := by
  decide +kernel

end Sample

end Retarget.Embedding
