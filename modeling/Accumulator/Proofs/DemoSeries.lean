/-
Demos built one after another.

`Demo.series` builds demos one after another from one allocator.  Every demo draws at most one
index for a loop and at most one for a conditional, so the indices of the whole series are those
that the allocator gives, in order:

* `Demo.build_draws` says what one demo draws, and `Demo.indicesOf_series` what a series draws;
* `Node.count_label_code`: the code of an expression marks its labels, each as often as it occurs;
* `Program.count_text_layout`: in a listing of readable code, the line of a label occurs as often as
  the code marks the label.

Together these say that a label is marked at most once in all listings of a series.
-/
import Accumulator.Demo
import Accumulator.Proofs.DataInference
import Accumulator.Proofs.LabelDiscipline
import Accumulator.Proofs.Workbench

namespace Accumulator

/-- As long as a new counter has not gone round, it counts from zero on. -/
lemma map_toNat_drawn_zero {count : Nat} (h : count ≤ UInt64.size) :
    (drawn 0 count).map UInt64.toNat = List.range count := by
  rw [drawn, List.map_map]
  refine (List.map_congr_left fun i hi => ?_).trans (List.map_id _)
  have hi : i < UInt64.size := Nat.lt_of_lt_of_le (List.mem_range.mp hi) h
  rw [Function.comp_apply, UInt64.zero_add, UInt64.toNat_ofNat_of_lt' hi]
  rfl

/-! ## Series -/

namespace Demo

/-- The programs of demos that are built one after another from one allocator. -/
def series (labels : Allocator) : List Demo → List Program
  | [] => []
  | demo :: demos => (demo.build labels).1 :: series (demo.build labels).2 demos

/-- Whether a demo computes a greatest common divisor. -/
def isGcd (demo : Demo) : Bool := demo.name ∈ ["gcd-loop", "gcd-conditional"]

/-- Whether a demo draws an index for the labels of a family: both demos of the greatest common
divisor have a loop, and one of them has a conditional. -/
def draws (demo : Demo) : LabelFamily → Bool
  | .loopStart | .loopEnd => demo.isGcd
  | .branchElse | .branchEnd => demo.name = "gcd-conditional"

/-- The number of demos that draw an index for the labels of a family. -/
def drawCount (family : LabelFamily) (demos : List Demo) : Nat :=
  demos.countP fun demo => demo.draws family

@[simp] lemma drawCount_cons (family : LabelFamily) (demo : Demo) (demos : List Demo) :
    drawCount family (demo :: demos)
      = (if demo.draws family then 1 else 0) + drawCount family demos :=
  List.countP_cons.trans (Nat.add_comm _ _)

/-- A demo draws its indices from where the allocator stands. -/
lemma build_draws {demo : Demo} (h : demo ∈ all) (labels : Allocator) (family : LabelFamily) :
    indicesOf family (demo.build labels).1.fragments
        = (if demo.draws family then [labels.next family] else []) ∧
      (demo.build labels).2.next family
        = labels.next family + if demo.draws family then 1 else 0 := by
  simp only [all, List.mem_cons, List.not_mem_nil, or_false] at h
  rcases h with rfl | rfl | rfl <;> cases family <;>
    exact ⟨rfl, by simp [price, gcdLoop, gcdConditional, euclid, Node.drawLoop, Node.drawBranch,
      Allocator.drawLoop, Allocator.drawBranch, draws, isGcd]⟩

section Draws

variable {demos : List Demo} (hdemos : ∀ demo ∈ demos, demo ∈ all) (labels : Allocator)
  (family : LabelFamily)

include hdemos

/-- The indices of a series are those that the allocator gives, in order. -/
lemma indicesOf_series :
    indicesOf family ((series labels demos).flatMap Program.fragments)
      = drawn (labels.next family) (drawCount family demos) := by
  induction demos generalizing labels with
  | nil => rfl
  | cons demo demos ih =>
    obtain ⟨hdemo, hdemos⟩ := List.forall_mem_cons.mp hdemos
    obtain ⟨hindices, hnext⟩ := build_draws hdemo labels family
    rw [series, List.flatMap_cons, indicesOf_append, ih hdemos, hindices, hnext, drawCount_cons,
      drawn_add]
    cases demo.draws family <;> simp [drawn]

/-- A demo that draws an index gets the one that its predecessors leave. -/
lemma indicesOf_of_getElem?_series {i : Nat} {demo : Demo} {program : Program}
    (hdemo : demos[i]? = some demo) (hprogram : (series labels demos)[i]? = some program) :
    indicesOf family program.fragments
      = if demo.draws family then
          [labels.next family + UInt64.ofNat (drawCount family (demos.take i))]
        else [] := by
  induction demos generalizing labels i with
  | nil => simp at hdemo
  | cons first demos ih =>
    obtain ⟨hfirst, hdemos⟩ := List.forall_mem_cons.mp hdemos
    obtain ⟨hindices, hnext⟩ := build_draws hfirst labels family
    cases i with
    | zero =>
      obtain rfl : first = demo := by simpa using hdemo
      obtain rfl : (first.build labels).1 = program := by simpa [series] using hprogram
      simp [hindices, drawCount]
    | succ i =>
      rw [ih hdemos _ hdemo hprogram, hnext, List.take_succ_cons, drawCount_cons,
        UInt64.ofNat_add, ← UInt64.add_assoc]
      cases first.draws family <;> rfl

end Draws

end Demo

/-! ## Labels in code and in listings -/

/-- The code of an expression marks its labels, each as often as it occurs. -/
lemma Node.count_label_code (node : Node) (l : String) :
    node.code.count (.label l) = (node.labels.map Label.text).count l := by
  have htail (op : Operator) : op.tail.count (.label l) = 0 := by
    cases op <;> simp [Operator.tail]
  induction node with
  | number | var => simp [code]
  | binary op left right ihl ihr => simp [code, ihl, ihr, htail]
  | bind name value ih => simp [code, ih]
  | loop k condition body ihc ihb =>
    simp only [code, labels_loop, List.count_append, List.count_cons, List.count_nil,
      List.map_cons, List.map_append, ihc, ihb, beq_iff_eq, Instr.label.injEq, reduceCtorEq,
      if_false]
    omega
  | branch k condition consequent alternative ihc iht ihe =>
    simp only [code, labels_branch, List.count_append, List.count_cons, List.count_nil,
      List.map_cons, List.map_append, ihc, iht, ihe, beq_iff_eq, Instr.label.injEq, reduceCtorEq,
      if_false]
    omega
  | lambda first second body ih => exact ih

/-- An instruction that marks a label or jumps to one. -/
def Instr.Labelled (instr : Instr) : Prop :=
  ∃ l, instr = .label l ∨ instr = .jump l ∨ instr = .jumpIfZero l

/-- The line of a labelled instruction stands for no other readable instruction, whatever the
label is. -/
lemma Instr.eq_of_text_eq {x y : Instr} (hx : x.Readable) (hy : y.Labelled)
    (h : x.text = y.text) : x = y := by
  -- the text of a label begins with the stem of its family, and not with a `j`
  have hmark (l : Label) : (label l.text).text.toList.head? ≠ some 'j' := by
    obtain ⟨family, k⟩ := l
    cases family <;> simp [text, Label.text, LabelFamily.stem]
  have hlist : x.text.toList = y.text.toList := congrArg String.toList h
  obtain ⟨l, rfl | rfl | rfl⟩ := hy
  · have hread := read_text hx
    rw [h] at hread
    simpa [read, text] using hread.symm
  · cases x with
    | label t =>
      obtain ⟨mark, rfl⟩ := hx
      exact absurd (by rw [hlist]; simp [text]) (hmark mark)
    | jump t => simpa [text] using h
    | _ => simp [text] at hlist
  · cases x with
    | label t =>
      obtain ⟨mark, rfl⟩ := hx
      exact absurd (by rw [hlist]; simp [text]) (hmark mark)
    | jumpIfZero t => simpa [text] using h
    | _ => simp [text] at hlist

namespace Program

lemma text_not_mem_fixedLines {instr : Instr} (h : instr.Labelled) :
    instr.text ∉ fixedLines := by
  intro hmem
  have hother : ∀ line ∈ fixedLines,
      line.toList.head? ≠ some 'j' ∧ line.toList.getLast? ≠ some ':' := by decide
  obtain ⟨hhead, hlast⟩ := hother _ hmem
  obtain ⟨l, rfl | rfl | rfl⟩ := h
  · simp [Instr.text] at hlast
  · simp [Instr.text] at hhead
  · simp [Instr.text] at hhead

/-- In a listing of readable code, the line of a labelled instruction occurs as often as the
instruction occurs in the code. -/
lemma count_text_layout {code : List Instr} (hcode : ∀ x ∈ code, x.Readable) {y : Instr}
    (hy : y.Labelled) (data : List String) : (layout data code).count y.text = code.count y := by
  have hdata : (data.map dataLine).count y.text = 0 := by
    refine List.count_eq_zero.mpr fun hmem => ?_
    obtain ⟨name, -, hline⟩ := List.mem_map.mp hmem
    exact text_ne_dataLine y name hline.symm
  have hlines : (code.map Instr.text).count y.text = code.count y := by
    rw [List.count, List.countP_map, List.count]
    refine List.countP_congr fun x hx => ?_
    simp only [Function.comp_apply, beq_iff_eq]
    exact ⟨Instr.eq_of_text_eq (hcode x hx) hy, fun h => h ▸ rfl⟩
  rw [count_layout (text_not_mem_fixedLines hy), hdata, hlines, Nat.zero_add]

/-- The lines that the listing of a program has, whatever the options are. -/
def lines (program : Program) : List String :=
  layout program.data (program.fragments.flatMap Node.code)

lemma text_mem_lines_iff {program : Program} (h : program.WellNamed) {y : Instr}
    (hy : y.Labelled) : y.text ∈ program.lines ↔ y ∈ program.fragments.flatMap Node.code := by
  rw [← List.count_pos_iff, lines, count_text_layout h.readable hy, List.count_pos_iff]

/-- A listing with well-formed names marks the labels of the program, each as often as it occurs. -/
lemma count_label_lines {program : Program} (h : program.WellNamed) (l : String) :
    program.lines.count (Instr.label l).text
      = ((program.fragments.flatMap Node.labels).map Label.text).count l := by
  rw [lines, count_text_layout h.readable ⟨l, .inl rfl⟩, List.map_flatMap, List.count_flatMap,
    List.count_flatMap]
  exact congrArg List.sum (List.map_congr_left fun node _ => node.count_label_code l)

end Program

/-- Code that jumps to a label marks the label. -/
lemma Node.label_mem_of_jump_mem {nodes : List Node} {l : String}
    (h : .jump l ∈ nodes.flatMap code ∨ .jumpIfZero l ∈ nodes.flatMap code) :
    .label l ∈ nodes.flatMap code := by
  have hjump : ∃ i, JumpsAt (nodes.flatMap code) i l := by
    rcases h with h | h
    · obtain ⟨i, hi⟩ := List.mem_iff_getElem?.mp h
      exact ⟨i, .inl hi⟩
    · obtain ⟨i, hi⟩ := List.mem_iff_getElem?.mp h
      exact ⟨i, .inr hi⟩
  obtain ⟨i, hi⟩ := hjump
  obtain ⟨arc, harc, -, hlabel⟩ := jumpsAt_flatMap_iff.mp hi
  have hmark : MarksAt (nodes.flatMap code) arc.goal l :=
    marksAt_flatMap_iff.mpr ⟨arc, harc, rfl, hlabel⟩
  exact List.mem_of_getElem? hmark

/-! ## Listings of a series -/

namespace Demo

/-- The names of a demo do not depend on the allocator. -/
lemma names_build {demo : Demo} (h : demo ∈ all) (labels : Allocator) :
    (demo.build labels).1.data = (demo.build .start).1.data ∧
      (demo.build labels).1.fragments.map Node.names
        = (demo.build .start).1.fragments.map Node.names := by
  simp only [all, List.mem_cons, List.not_mem_nil, or_false] at h
  rcases h with rfl | rfl | rfl <;> exact ⟨rfl, rfl⟩

lemma wellNamed_build {demo : Demo} (h : demo ∈ all) (labels : Allocator) :
    (demo.build labels).1.WellNamed := by
  have hstart : ∀ demo ∈ all, (demo.build .start).1.WellNamed := by decide
  obtain ⟨hdata, hnames⟩ := names_build h labels
  refine ⟨by rw [hdata]; exact (hstart demo h).data, fun node hnode => ?_⟩
  have hmem : node.names ∈ (demo.build .start).1.fragments.map Node.names := by
    rw [← hnames]
    exact List.mem_map_of_mem hnode
  obtain ⟨other, hother, heq⟩ := List.mem_map.mp hmem
  rw [← heq]
  exact (hstart demo h).fragments other hother

lemma wellNamed_of_mem_series {demos : List Demo} (hdemos : ∀ demo ∈ demos, demo ∈ all)
    {labels : Allocator} {program : Program} (h : program ∈ series labels demos) :
    program.WellNamed := by
  induction demos generalizing labels with
  | nil => exact absurd h List.not_mem_nil
  | cons demo demos ih =>
    obtain ⟨hdemo, hdemos⟩ := List.forall_mem_cons.mp hdemos
    rcases List.mem_cons.mp h with rfl | h
    · exact wellNamed_build hdemo labels
    · exact ih hdemos h

/-- The listings of a series mark the labels of its programs, each as often as it occurs. -/
lemma count_label_series {demos : List Demo} (hdemos : ∀ demo ∈ demos, demo ∈ all)
    (labels : Allocator) (l : String) :
    ((series labels demos).flatMap Program.lines).count (Instr.label l).text
      = ((((series labels demos).flatMap Program.fragments).flatMap Node.labels).map
          Label.text).count l := by
  rw [List.flatMap_assoc, List.map_flatMap, List.count_flatMap, List.count_flatMap]
  refine congrArg List.sum (List.map_congr_left fun program hprogram => ?_)
  exact Program.count_label_lines (wellNamed_of_mem_series hdemos hprogram) l

/-- The listings are those of the programs, each assembled with some options. -/
def Lists (programs : List Program) (listings : List Listing) : Prop :=
  List.Forall₂ (fun program listing => ∃ options, program.assemble options = .ok listing)
    programs listings

lemma Lists.map_lines {programs : List Program} {listings : List Listing}
    (h : Lists programs listings) : listings.map Listing.lines = programs.map Program.lines := by
  induction h with
  | nil => rfl
  | cons hfirst _ ih =>
    obtain ⟨options, hfirst⟩ := hfirst
    rw [List.map_cons, List.map_cons, ih, (Program.assemble_eq_ok_iff.mp hfirst).2]
    rfl

/-- The labels of a family that a listing with well-formed names marks have the indices of the
program. -/
lemma label_mem_lines_iff {program : Program} (h : program.WellNamed) (label : Label) :
    (Instr.label label.text).text ∈ program.lines ↔
      label.index ∈ indicesOf label.family program.fragments := by
  have hlabels : label.text ∈ (program.fragments.flatMap Node.labels).map Label.text ↔
      label ∈ program.fragments.flatMap Node.labels := by
    simp only [List.mem_map, Label.text_inj, exists_eq_right]
  rw [← List.count_pos_iff, Program.count_label_lines h, List.count_pos_iff, hlabels,
    List.mem_flatMap, indicesOf, List.mem_flatMap]
  simp only [← List.count_pos_iff, Node.count_labels]

/-- The labels of the listings of a series: loops and conditionals are numbered from zero on, in
the order of the demos. -/
structure Numbered (demos : List Demo) (listings : List Listing) : Prop where
  /-- In all listings together, a label is marked at most once. -/
  mark_once : ∀ l, (listings.flatMap Listing.lines).count (Instr.label l).text ≤ 1
  /-- A jump leads to a label that is marked in the same listing. -/
  jump_inside : ∀ listing ∈ listings, ∀ l,
    (Instr.jump l).text ∈ listing.lines ∨ (Instr.jumpIfZero l).text ∈ listing.lines →
      (Instr.label l).text ∈ listing.lines
  /-- The indices of a family are 0, 1, 2, ... in order, one for each demo that draws one. -/
  indices : ∀ family,
    (indicesOf family ((series .start demos).flatMap Program.fragments)).map UInt64.toNat
      = List.range (drawCount family demos)
  /-- A demo that draws an index has one, and it counts the demos before it that draw one. -/
  index_at : ∀ (i : Nat) (demo : Demo) (program : Program), demos[i]? = some demo →
    (series .start demos)[i]? = some program → ∀ family,
      (indicesOf family program.fragments).map UInt64.toNat
        = if demo.draws family then [drawCount family (demos.take i)] else []
  /-- A listing marks the labels whose indices the demo has. -/
  marks_at : ∀ (i : Nat) (program : Program) (listing : Listing),
    (series .start demos)[i]? = some program → listings[i]? = some listing → ∀ label : Label,
      (Instr.label label.text).text ∈ listing.lines ↔
        label.index ∈ indicesOf label.family program.fragments

/-- **Labels never repeat in the listings of a series.**  Demos that are built one after another
from a new allocator, and assembled with any options that admit them, have listings in which no
label is marked twice, every jump stays in its listing, and loops and conditionals are numbered from
zero on, in the order of the demos that have them. -/
theorem numbered_of_series {demos : List Demo} (hdemos : ∀ demo ∈ demos, demo ∈ all)
    (hlength : demos.length < UInt64.size) {listings : List Listing}
    (hlistings : Lists (series .start demos) listings) : Numbered demos listings := by
  have hlines := hlistings.map_lines
  have hnamed {program : Program} (h : program ∈ series .start demos) : program.WellNamed :=
    wellNamed_of_mem_series hdemos h
  have hstart (family : LabelFamily) : Allocator.start.next family = 0 := by
    cases family <;> rfl
  -- fewer than `2 ^ 64` draws, so the counters do not wrap around
  have hsmall (family : LabelFamily) {part : List Demo} (hpart : part.length ≤ demos.length) :
      drawCount family part < UInt64.size :=
    Nat.lt_of_le_of_lt (Nat.le_trans List.countP_le_length hpart) hlength
  constructor
  case mark_once =>
    intro l
    have hfamily (family : LabelFamily) :
        (indicesOf family ((series .start demos).flatMap Program.fragments)).Nodup := by
      rw [indicesOf_series hdemos]
      exact drawn_nodup _ (Nat.le_of_lt (hsmall family (Nat.le_refl _)))
    have hnodup : (((series .start demos).flatMap Program.fragments).flatMap Node.labels).Nodup :=
      (Node.labels_nodup_iff _).mpr ⟨hfamily .loopStart, hfamily .branchElse⟩
    calc (listings.flatMap Listing.lines).count (Instr.label l).text
      _ = ((series .start demos).flatMap Program.lines).count (Instr.label l).text := by
        rw [List.flatMap_def, hlines, ← List.flatMap_def]
      _ = ((((series .start demos).flatMap Program.fragments).flatMap Node.labels).map
            Label.text).count l := count_label_series hdemos .start l
      _ ≤ 1 := List.nodup_iff_count_le_one.mp (hnodup.map fun l l' => Label.text_injective) l
  case jump_inside =>
    intro listing hlisting l hjump
    have hmem : listing.lines ∈ (series .start demos).map Program.lines := by
      rw [← hlines]
      exact List.mem_map_of_mem hlisting
    obtain ⟨program, hprogram, heq⟩ := List.mem_map.mp hmem
    have hiff {y : Instr} (hy : y.Labelled) := Program.text_mem_lines_iff (hnamed hprogram) hy
    rw [← heq] at hjump ⊢
    rw [hiff ⟨l, .inr (.inl rfl)⟩, hiff ⟨l, .inr (.inr rfl)⟩] at hjump
    rw [hiff ⟨l, .inl rfl⟩]
    exact Node.label_mem_of_jump_mem hjump
  case indices =>
    intro family
    rw [indicesOf_series hdemos, hstart,
      map_toNat_drawn_zero (Nat.le_of_lt (hsmall family (Nat.le_refl _)))]
  case index_at =>
    intro i demo program hdemo hprogram family
    rw [indicesOf_of_getElem?_series hdemos _ family hdemo hprogram, hstart, UInt64.zero_add,
      apply_ite (List.map UInt64.toNat), List.map_singleton, List.map_nil,
      UInt64.toNat_ofNat_of_lt' (hsmall family (List.length_take_le' i demos))]
  case marks_at =>
    intro i program listing hprogram hlisting label
    have heq : listing.lines = program.lines := by
      have hi := congrArg (fun lines => lines[i]?) hlines
      simpa [hprogram, hlisting] using hi
    rw [heq]
    exact label_mem_lines_iff (hnamed (List.mem_of_getElem? hprogram)) label

/-- All demos, two times over: the last loop gets the index three, and the last conditional the
index one. -/
theorem numbered_all_twice :
    ∃ listings, Lists (series .start (all ++ all)) listings ∧ Numbered (all ++ all) listings ∧
      drawCount .loopStart (all ++ all) = 4 ∧ drawCount .branchElse (all ++ all) = 2 := by
  have hlistings : Lists (series .start (all ++ all)) _ :=
    .cons ⟨{}, rfl⟩ <| .cons ⟨{}, rfl⟩ <| .cons ⟨{}, rfl⟩ <| .cons ⟨{}, rfl⟩ <|
      .cons ⟨{}, rfl⟩ <| .cons ⟨{}, rfl⟩ .nil
  refine ⟨_, hlistings, numbered_of_series (fun demo h => ?_) (by decide) hlistings, rfl, rfl⟩
  exact (List.mem_append.mp h).elim id id

end Demo

end Accumulator
